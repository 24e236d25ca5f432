import HiveForkManager.FullMode

namespace HiveForkManager

namespace Indexation

variable {β : Type} {cfg : IndexationConfig} {s s' : Indexation β} {tail : List (AppliedBlock β)}

inductive SyncStep (β : Type) where
  | notified (t : IndexationStep β)
  /-- The end of the syncing, with an interrupt after some turns of the loop of
  `flush_all_data_to_reversible`. -/
  | interrupted (turns : ℕ)

def enterInterrupted (cfg : IndexationConfig) (turns : ℕ) (s : Indexation β) :
    Except String (Indexation β) := do
  let s ← flushBeforeLive s
  if cfg.liteMode then pure { s with state := .live, cache := fun _ ↦ [] }
  else flushOneByOne (fun _ ↦ true) turns { s with state := .live }

def syncStep (cfg : IndexationConfig) (s : Indexation β) :
    SyncStep β → Except String (Indexation β)
  | .notified t => s.step cfg t
  | .interrupted turns => if s.state = .live then .ok s else enterInterrupted cfg turns s

def SyncLegal (s : Indexation β) : SyncStep β → Prop
  | .notified t => s.Legal t
  | .interrupted _ => s.stopped = false

def SyncRefused (cfg : IndexationConfig) (s : Indexation β) : SyncStep β → Prop
  | .notified t => s.Refused cfg t
  | .interrupted _ => False

inductive SyncReachable (cfg : IndexationConfig) : Indexation β → Prop
  | initial {head lib : ℕ} (psqlHead : ℕ) (interrupted : Bool) (h : lib ≤ head) :
      SyncReachable cfg (initial head lib psqlHead interrupted)
  | step {s s' : Indexation β} {t : SyncStep β} (hs : SyncReachable cfg s) (ht : s.SyncLegal t)
      (hstep : s.syncStep cfg t = .ok s') : SyncReachable cfg s'

def SingleBlocks (dumped : List (DumpedBatch β)) : Prop :=
  ∀ d ∈ dumped, d.live = true → (d.data .blocks).length = 1

theorem SingleBlocks.massive {dumped : List (DumpedBatch β)} (h : SingleBlocks dumped)
    (front : List (AppliedBlock β)) (n : ℕ) : SingleBlocks (dumped ++ massiveBatch front n) := by
  intro d hd hlive
  rcases List.mem_append.1 hd with hd | hd
  · exact h d hd hlive
  · unfold massiveBatch at hd
    split at hd
    · cases hd
    · obtain rfl := List.mem_singleton.1 hd
      cases hlive

theorem SingleBlocks.live {dumped : List (DumpedBatch β)} (h : SingleBlocks dumped)
    (front : List (AppliedBlock β)) : SingleBlocks (dumped ++ front.map liveBatch) := by
  intro d hd hlive
  rcases List.mem_append.1 hd with hd | hd
  · exact h d hd hlive
  · obtain ⟨b, -, rfl⟩ := List.mem_map.1 hd
    exact length_rowsOf_blocks [b]

/-- The caches hold the rows of some ascending blocks. In the full live mode they are what an
interrupt has left there, possibly of a fork hived went back from. -/
structure Cached (cfg : IndexationConfig) (s : Indexation β) (tail : List (AppliedBlock β)) :
    Prop where
  cache : s.cache = rowsOf tail
  ascending : Ascending tail
  below : s.state ≠ .live ∨ cfg.liteMode = true → ∀ b ∈ tail, b.num ≤ s.head
  waiting : s.state.collectBlocks = false → tail = []
  reindex : s.state = .reindex → s.head ≤ s.lib
  single : SingleBlocks s.dumped

theorem cached_initial (cfg : IndexationConfig) (head lib psqlHead : ℕ) (interrupted : Bool) :
    Cached cfg (initial head lib psqlHead interrupted : Indexation β) [] :=
  ⟨rfl, .nil, by simp, fun _ ↦ rfl, by simp [initial], by simp [initial, SingleBlocks]⟩

theorem cached_empty (hcache : s.cache = rowsOf []) (hst : s.state ≠ .reindex)
    (hd : SingleBlocks s.dumped) : s.Cached cfg [] :=
  ⟨hcache, .nil, by simp, fun _ ↦ rfl, fun hr ↦ absurd hr hst, hd⟩

theorem Cached.suffix (h : s.Cached cfg tail) {back : List (AppliedBlock β)} (hback : back <:+ tail)
    {d : List (DumpedBatch β)} (hd : SingleBlocks d) :
    Cached cfg { s with cache := rowsOf back, dumped := d } back where
  cache := rfl
  ascending := h.ascending.sublist hback.sublist
  below hs b hb := h.below hs b (hback.mem hb)
  waiting hw := List.suffix_nil.1 (h.waiting hw ▸ hback)
  reindex := h.reindex
  single := hd

theorem Cached.flushCache (h : s.Cached cfg tail) (hs : s.state ≠ .live) (n : ℕ) :
    ∃ d, s.flushCache n = .ok { s with cache := rowsOf [], dumped := d } ∧ SingleBlocks d := by
  by_cases hw : s.state.collectBlocks = false
  · obtain rfl := h.waiting hw
    refine ⟨s.dumped, ?_, h.single⟩
    rw [flushCache_nil h.cache, ← h.cache]
  · have hmassive := IndexationState.massive_of_collectBlocks hs hw
    exact ⟨_, flushCache_massive hmassive h.cache n, h.single.massive tail n⟩

theorem Cached.flushIrreversibleBlocks (h : s.Cached cfg tail) (hs : s.state ≠ .live) :
    ∃ back d, back <:+ tail ∧ SingleBlocks d ∧
      s.flushIrreversibleBlocks = .ok { s with cache := rowsOf back, dumped := d } := by
  obtain ⟨front, back, rfl, -, -, hmove⟩ :=
    h.ascending.split_irreversible h.cache s.irreversibleBlockNum
  rw [Indexation.flushIrreversibleBlocks, hmove]
  by_cases hw : s.state.collectBlocks = false
  · obtain ⟨rfl, rfl⟩ := List.append_eq_nil_iff.1 (h.waiting hw)
    exact ⟨[], s.dumped, List.suffix_rfl, h.single, flushMoved_nil [] _⟩
  · have hmassive := IndexationState.massive_of_collectBlocks hs hw
    exact ⟨back, _, List.suffix_append _ _, h.single.massive front _,
      flushMoved_massive hmassive front back _⟩

theorem Cached.flushBeforeLive (h : s.Cached cfg tail) (hs : s.state ≠ .live) :
    ∃ back d, back <:+ tail ∧ SingleBlocks d ∧
      s.flushBeforeLive = .ok { s with cache := rowsOf back, dumped := d } := by
  unfold Indexation.flushBeforeLive
  split
  · exact ⟨tail, s.dumped, List.suffix_rfl, h.single, by rw [← h.cache]⟩
  · exact h.flushIrreversibleBlocks hs

theorem Cached.enterLive (h : s.Cached cfg tail) (hs : s.state ≠ .live) (n : ℕ) :
    ∃ d, SingleBlocks d ∧ s.updateState cfg .live n =
      .ok { s with state := .live, cache := rowsOf [], dumped := d } := by
  obtain ⟨back, d, hback, hd, hok⟩ := h.flushBeforeLive hs
  rw [updateState, if_neg hs, if_neg (by simp)]
  simp only [hok, bind, Except.bind, startLive]
  cases cfg.liteMode with
  | true => exact ⟨d, hd, rfl⟩
  | false =>
    refine ⟨_, hd.live back, flushSingleBlocks_all rfl rfl ?_⟩
    exact h.ascending.sublist hback.sublist

theorem flushOneByOne_interrupted (turns : ℕ) {back : List (AppliedBlock β)} (hs : s.state = .live)
    (hcache : s.cache = rowsOf back) (hasc : Ascending back) (hd : SingleBlocks s.dumped) :
    ∃ rest d, rest <:+ back ∧ SingleBlocks d ∧
      flushOneByOne (fun _ ↦ true) turns s = .ok { s with cache := rowsOf rest, dumped := d } := by
  induction turns generalizing s back with
  | zero => exact ⟨back, s.dumped, List.suffix_rfl, hd, by rw [← hcache]; rfl⟩
  | succ turns ih =>
    cases back with
    | nil =>
      refine ⟨[], s.dumped, List.suffix_rfl, hd, ?_⟩
      simp only [flushOneByOne, hcache, rowsOf_nil]
      rw [← rowsOf_nil, ← hcache]
    | cons b back =>
      obtain ⟨hb, hrest⟩ := List.pairwise_cons.1 hasc
      obtain ⟨x, hx⟩ := List.length_eq_one_iff.1 b.one_block
      have hrows : rowsOf (b :: back) .blocks = ⟨b.num, x⟩ :: rowsOf back .blocks := by
        simp [rowsOf_cons, hx]
      have hmove : moveItemsUptoBlock b.num (rowsOf (b :: back)) = (rowsOf [b], rowsOf back) :=
        moveItemsUptoBlock_rowsOf (by simp : ∀ b' ∈ [b], b'.num ≤ b.num) hb
      obtain ⟨rest, d, hsuffix, hd', hok⟩ := ih
        (s := { s with cache := rowsOf back, dumped := s.dumped ++ [liveBatch b] }) hs rfl hrest
        (hd.live [b])
      refine ⟨rest, d, hsuffix.trans (List.suffix_cons b back), hd', ?_⟩
      simp only [flushOneByOne, hcache, hrows, if_true, hmove, flushMoved_live hs]
      exact hok

theorem Cached.enterInterrupted (h : s.Cached cfg tail) (hs : s.state ≠ .live) (turns : ℕ) :
    ∃ s' tail', s.enterInterrupted cfg turns = .ok s' ∧ s'.Cached cfg tail' := by
  obtain ⟨back, d, hback, hd, hok⟩ := h.flushBeforeLive hs
  have hasc := h.ascending.sublist hback.sublist
  simp only [Indexation.enterInterrupted, hok, bind, Except.bind]
  cases hlite : cfg.liteMode with
  | true => exact ⟨_, [], rfl, cached_empty rfl (by simp) hd⟩
  | false =>
    obtain ⟨rest, d', hrest, hd', hok'⟩ := flushOneByOne_interrupted turns
      (s := { s with state := .live, cache := rowsOf back, dumped := d }) rfl rfl hasc hd
    refine ⟨_, rest, hok', rfl, hasc.sublist hrest.sublist, ?_, ?_, by simp, hd'⟩
    · simp [hlite]
    · simp [IndexationState.collectBlocks]

theorem updateState_empty (hcache : s.cache = rowsOf []) (hs : s.state = .wait) (n : ℕ) :
    s.updateState cfg .live n = .ok { s with state := .live } ∧
      (¬ s.Refuses n → s.updateState cfg .p2p n = .ok { s with
        state := .p2p, irreversibleBlockNum := none, lastFlushedBlockNum := 0 }) := by
  have hnil : ∀ kind, s.cache kind = [] := fun kind ↦ by rw [hcache, rowsOf_nil]
  have hmove : moveIrreversibleBlocks s.irreversibleBlockNum s.cache = (rowsOf [], rowsOf []) := by
    cases s.irreversibleBlockNum with
    | none => rw [moveIrreversibleBlocks, hcache, rowsOf_nil]
    | some m => exact Prod.ext (funext fun kind ↦ by simp [moveIrreversibleBlocks,
        moveItemsUptoBlock, hnil]) (funext fun kind ↦ by simp [moveIrreversibleBlocks,
        moveItemsUptoBlock, hnil])
  refine ⟨?_, fun hr ↦ ?_⟩
  · rw [updateState, if_neg (by simp [hs]), if_neg (by simp)]
    simp only [flushBeforeLive, hs, reduceCtorEq, if_false, flushIrreversibleBlocks, hmove,
      flushMoved_nil, bind, Except.bind, startLive]
    split
    · rw [← rowsOf_nil, ← hcache]
    · rw [hcache]
      rfl
  · rw [updateState, if_neg (by simp [hs]), if_neg fun hc ↦ hr hc.2]
    simp only [flushCache_nil hcache, bind, Except.bind, pure, Except.pure]

variable {canLive : Bool} {b : AppliedBlock β} {t : SyncStep β}

theorem onFirstBlock_wait (hcache : s.cache = rowsOf []) (hs : s.state = .wait) {n : ℕ}
    (hr : canLive = false → ¬ s.Refuses n) :
    ∃ st irr flushed, (st = .p2p → irr = none) ∧ s.onFirstBlock cfg canLive n = .ok { s with
      state := st, irreversibleBlockNum := irr, lastFlushedBlockNum := flushed } := by
  simp only [Indexation.onFirstBlock, hs]
  cases canLive with
  | true =>
    refine ⟨.live, s.irreversibleBlockNum, s.lastFlushedBlockNum, by simp, ?_⟩
    exact updateWithEmptyCache_eq hcache (updateState_empty hcache hs n).1 hcache
  | false =>
    refine ⟨.p2p, none, 0, fun _ ↦ rfl, ?_⟩
    exact updateWithEmptyCache_eq hcache ((updateState_empty hcache hs n).2 (hr rfl)) hcache

theorem onBlock_collecting (canLive : Bool) (n : ℕ) (hst : s.state.collectBlocks = true) :
    s.onBlock cfg canLive n = .ok s := by
  have hleave : s.leaveStart cfg n = .ok s :=
    if_neg fun hs ↦ by simp [hs, IndexationState.collectBlocks] at hst
  have hfirst : s.onFirstBlock cfg canLive n = .ok s := by
    unfold Indexation.onFirstBlock
    cases hs : s.state with
    | start | wait | reindexWait => simp [hs, IndexationState.collectBlocks] at hst
    | reindex | p2p | live => rfl
  simp only [Indexation.onBlock, hleave, bind, Except.bind]
  split
  · exact hfirst
  · rfl

theorem Cached.onBlock (h : s.Cached cfg tail) (hr : ¬ s.Refused cfg (.applyBlock b canLive)) :
    ∃ st irr flushed, (s.state.collectBlocks = true → st = s.state) ∧
      (s.state.collectBlocks = false → st = .p2p → irr = none) ∧
      s.onBlock cfg canLive b.num = .ok { s with
        state := st, irreversibleBlockNum := irr, lastFlushedBlockNum := flushed } := by
  have hfirst : ∀ s₁ : Indexation β, s₁ = { s with state := .wait } →
      s.state = .start ∨ s.state = .wait → ∃ st irr flushed, (st = .p2p → irr = none) ∧
        (if cfg.psqlFirstBlock ≤ b.num then s₁.onFirstBlock cfg canLive b.num else .ok s₁) =
          .ok { s with state := st, irreversibleBlockNum := irr, lastFlushedBlockNum := flushed } := by
    rintro s₁ rfl hst
    have hcache : s.cache = rowsOf [] := by
      have htail := h.waiting (by rcases hst with hst | hst <;> rw [hst] <;> rfl)
      exact htail ▸ h.cache
    split
    case isTrue hle =>
      refine onFirstBlock_wait (s := { s with state := .wait }) hcache rfl fun hc hre ↦ ?_
      exact hr ⟨hc, hle, hst, by rcases hst with hst | hst <;> simp [hst], hre.2⟩
    case isFalse => exact ⟨.wait, _, _, by simp, rfl⟩
  cases hst : s.state with
  | start =>
    obtain ⟨st, irr, flushed, hirr, hok⟩ := hfirst _ rfl (Or.inl hst)
    refine ⟨st, irr, flushed, fun hc ↦ by simp [IndexationState.collectBlocks] at hc,
      fun _ ↦ hirr, ?_⟩
    simpa [Indexation.onBlock, leaveStart, updateState, hst, bind, Except.bind, pure, Except.pure]
      using hok
  | wait =>
    obtain ⟨st, irr, flushed, hirr, hok⟩ := hfirst s (by rw [← hst]) (Or.inr hst)
    refine ⟨st, irr, flushed, fun hc ↦ by simp [IndexationState.collectBlocks] at hc,
      fun _ ↦ hirr, ?_⟩
    simpa [Indexation.onBlock, leaveStart, hst, bind, Except.bind, pure, Except.pure] using hok
  | reindexWait =>
    obtain rfl := h.waiting (by rw [hst]; rfl)
    have henter : s.updateWithEmptyCache cfg .reindex b.num = .ok { s with state := .reindex } := by
      refine updateWithEmptyCache_eq h.cache ?_ h.cache
      simp [updateState, hst, flushCache_nil h.cache, bind, Except.bind, pure, Except.pure]
    by_cases hle : cfg.psqlFirstBlock ≤ b.num
    · refine ⟨.reindex, s.irreversibleBlockNum, s.lastFlushedBlockNum,
        fun hc ↦ by simp [IndexationState.collectBlocks] at hc, by simp, ?_⟩
      simp [Indexation.onBlock, leaveStart, hst, hle, Indexation.onFirstBlock, henter, bind,
        Except.bind]
    · have hleave : s.leaveStart cfg b.num = .ok s := if_neg (by simp [hst])
      refine ⟨s.state, s.irreversibleBlockNum, s.lastFlushedBlockNum, fun _ ↦ hst,
        by simp [hst], ?_⟩
      simp only [Indexation.onBlock, hleave, bind, Except.bind, if_neg hle]
      rfl
  | reindex | p2p | live =>
    exact ⟨s.state, s.irreversibleBlockNum, s.lastFlushedBlockNum, fun _ ↦ hst,
      by simp [IndexationState.collectBlocks], onBlock_collecting canLive b.num (by rw [hst]; rfl)⟩

theorem Cached.collect (h : s.Cached cfg tail) (hst : s.state.collectBlocks)
    (hb : b.num ≤ s.head) (hnew : ∀ b' ∈ tail, b'.num < b.num) :
    (s.collect b).Cached cfg (tail ++ [b]) where
  cache := funext fun kind ↦ by simp only [Indexation.collect, h.cache, rowsOf_append]
  ascending := List.pairwise_append.2 ⟨h.ascending, List.pairwise_singleton _ _,
    fun b' hb' _ hmem ↦ List.mem_singleton.1 hmem ▸ hnew b' hb'⟩
  below hs b' hb' := by
    rcases List.mem_append.1 hb' with hb' | hb'
    · exact h.below hs b' hb'
    · exact List.mem_singleton.1 hb' ▸ hb
  waiting hw := by
    have hw' : s.state.collectBlocks = false := hw
    rw [hst] at hw'
    cases hw'
  reindex := h.reindex
  single := h.single

theorem Cached.trigger (h : s.Cached cfg tail) (hst : s.state.collectBlocks) {n : ℕ}
    (hone : s.state = .live → cfg.liteMode = false → ∃ b, tail = [b] ∧ b.num = n) :
    ∃ s' tail', s.triggerDataFlush cfg n = .ok s' ∧ s'.Cached cfg tail' := by
  cases hstate : s.state with
  | start | wait | reindexWait => simp [hstate, IndexationState.collectBlocks] at hst
  | reindex =>
    simp only [triggerDataFlush, hstate]
    split
    · obtain ⟨d, hok, hd⟩ := h.flushCache (by simp [hstate]) n
      exact ⟨_, [], hok, h.suffix (List.nil_suffix) hd⟩
    · exact ⟨s, tail, rfl, h⟩
  | p2p =>
    simp only [triggerDataFlush, hstate]
    cases hirr : s.irreversibleBlockNum with
    | none => exact ⟨s, tail, rfl, h⟩
    | some m =>
      dsimp only
      split
      · exact ⟨s, tail, rfl, h⟩
      · obtain ⟨front, back, rfl, -, -, hmove⟩ :=
    h.ascending.split_irreversible h.cache s.irreversibleBlockNum
        rw [hirr] at hmove
        simp only [hmove, flushMoved_massive (Or.inr hstate), bind, Except.bind, pure, Except.pure]
        have h' := h.suffix (List.suffix_append _ _) (h.single.massive front m)
        exact ⟨_, back, rfl, { h' with }⟩
  | live =>
    cases hlite : cfg.liteMode with
    | false =>
      obtain ⟨b, rfl, rfl⟩ := hone hstate hlite
      have htrigger : s.triggerDataFlush cfg b.num = s.flushCache b.num := by
        simp only [triggerDataFlush, hstate, hlite, Bool.false_eq_true, if_false]
      exact ⟨_, [], htrigger.trans (flushCache_live hstate h.cache),
        h.suffix List.nil_suffix (h.single.live [b])⟩
    | true =>
      simp only [triggerDataFlush, hstate, hlite, if_true]
      cases s.irreversibleBlockNum with
      | none => exact ⟨s, tail, rfl, h⟩
      | some m =>
        obtain ⟨front, back, rfl, hfront, hback⟩ := h.ascending.splitAt m
        refine ⟨_, back, flushOneByOne_eq (fun b hb ↦ decide_eq_true (hfront b hb)) ?_ ?_ hstate
          h.ascending h.cache, h.suffix (List.suffix_append _ _) (h.single.live front)⟩
        · intro b hb
          exact decide_eq_false (not_le.2 (hback b (List.mem_of_mem_head? hb)))
        · rw [h.cache, length_rowsOf_blocks, List.length_append]
          omega

/-- A block comes to the full live mode with nothing left of an interrupted entry, and a shutdown of
the live state with at most one cached block announced irreversible. -/
def OneBlock (cfg : IndexationConfig) (s : Indexation β) : SyncStep β → Prop
  | .notified (.applyBlock _ _) =>
    s.state = .live → cfg.liteMode = false → (s.cache .blocks).isEmpty = true
  | .notified .shutdown => s.state = .live →
    ((moveIrreversibleBlocks s.irreversibleBlockNum s.cache).1 .blocks).length ≤ 1
  | _ => True

theorem Cached.applyBlock (h : s.Cached cfg tail)
    (hb : b.num = s.head + 1) (hone : s.OneBlock cfg (.notified (.applyBlock b canLive)))
    (hr : ¬ s.Refused cfg (.applyBlock b canLive)) :
    ∃ s' tail', s.step cfg (.applyBlock b canLive) = .ok s' ∧ s'.Cached cfg tail' := by
  obtain ⟨st, irr, flushed, hst, -, hok⟩ := h.onBlock hr
  have hfull : s.state = .live → cfg.liteMode = false → tail = [] := fun hl hf ↦ by
    have hnil := hone hl hf
    rwa [h.cache, isEmpty_rowsOf_blocks, List.isEmpty_iff] at hnil
  have htail : ∀ b' ∈ tail, b'.num < b.num := fun b' hb' ↦ by
    by_cases hl : s.state = .live ∧ cfg.liteMode = false
    · rw [hfull hl.1 hl.2] at hb'
      cases hb'
    · have hle := h.below (by cases hf : cfg.liteMode <;> simp_all) b' hb'
      omega
  have hempty : s.state.collectBlocks = false → tail = [] := h.waiting
  have hprepared : Cached cfg (advanceHead b.num { s with
      state := st, irreversibleBlockNum := irr, lastFlushedBlockNum := flushed }) tail := by
    refine ⟨h.cache, h.ascending, fun _ b' hb' ↦ (htail b' hb').le, fun hw ↦ ?_, fun hre ↦ ?_,
      h.single⟩
    · by_cases hc : s.state.collectBlocks = true
      · have hw' : st.collectBlocks = false := hw
        rw [hst hc, hc] at hw'
        cases hw'
      · exact hempty (by simpa using hc)
    · have hre' : st = .reindex := hre
      simp [advanceHead, hre']
  simp only [step, hok, bind, Except.bind, onPostApplyBlock]
  split
  case isTrue hcollect =>
    refine (hprepared.collect hcollect le_rfl htail).trigger hcollect fun hl hf ↦ ⟨b, ?_, rfl⟩
    have hl' : st = .live := hl
    by_cases hc : s.state.collectBlocks = true
    · rw [hfull (hst hc ▸ hl') hf, List.nil_append]
    · rw [hempty (by simpa using hc), List.nil_append]
  case isFalse => exact ⟨_, tail, rfl, hprepared⟩

theorem Cached.switchFork (h : s.Cached cfg tail) {k : ℕ} (hlib : s.lib ≤ k) (hk : k ≤ s.head) :
    ∃ s' tail', s.step cfg (.switchFork k) = .ok s' ∧ s'.Cached cfg tail' := by
  have hsingle : SingleBlocks (s.onSwitchFork cfg k).dumped := by
    unfold onSwitchFork
    dsimp only
    split
    · exact fun d hd ↦ h.single d (List.mem_of_mem_filter hd)
    · exact h.single
  by_cases herase : s.state = .p2p ∨ s.state = .live ∧ cfg.liteMode = true
  · obtain ⟨front, back, rfl, hfront, hback⟩ := h.ascending.splitAt k
    refine ⟨_, front, rfl, ?_, h.ascending.sublist (List.sublist_append_left _ _),
      fun _ ↦ hfront, fun hw ↦ (List.append_eq_nil_iff.1 (h.waiting hw)).1, fun hre ↦ ?_, hsingle⟩
    · simp only [onSwitchFork, if_pos herase, h.cache,
        eraseItemsGreaterThanBlock_rowsOf hfront hback]
    · have hre' : s.state = .reindex := hre
      simp [hre'] at herase
  · refine ⟨_, tail, rfl, ?_, h.ascending, fun hs b hb ↦ ?_, h.waiting, fun hre ↦ ?_, hsingle⟩
    · simp only [onSwitchFork, if_neg herase, h.cache]
    · -- Only a replay has blocks cached here, and it has no blocks to go back from.
      have hs' : s.state ≠ .live ∨ cfg.liteMode = true := hs
      cases hst : s.state with
      | start | wait | reindexWait =>
        rw [h.waiting (by rw [hst]; rfl)] at hb
        cases hb
      | reindex => exact (h.below hs' b hb).trans ((h.reindex hst).trans hlib)
      | p2p => simp [hst] at herase
      | live => simp_all
    · exact hk.trans ((h.reindex hre).trans (le_refl s.lib))

theorem flushMoved_single (hs : s.state = .live) (b : AppliedBlock β)
    (back : List (AppliedBlock β)) (n : ℕ) : flushMoved (rowsOf [b], rowsOf back) n s =
      .ok { s with cache := rowsOf back, dumped := s.dumped ++ [⟨rowsOf [b], n, true⟩] } := by
  have hlen := length_rowsOf_blocks [b]
  simp only [flushMoved, forceTriggerFlush, isEmpty_rowsOf_blocks, hs, hlen]
  rfl

theorem Cached.shutdown (h : s.Cached cfg tail) (hone : s.OneBlock cfg (.notified .shutdown)) :
    ∃ s' tail', s.step cfg .shutdown = .ok s' ∧ s'.Cached cfg tail' := by
  simp only [step, flushAllCachedData]
  split
  case isTrue hst =>
    obtain ⟨front, back, rfl, -, -, hmove⟩ :=
    h.ascending.split_irreversible h.cache s.irreversibleBlockNum
    have hle := hone hst
    rw [hmove, length_rowsOf_blocks] at hle
    have hsuffix : back <:+ front ++ back := List.suffix_append _ _
    rcases front with - | ⟨b, - | ⟨b', front⟩⟩
    · have h' := h.suffix hsuffix h.single
      simp only [Indexation.flushIrreversibleBlocks, hmove, flushMoved_nil, bind, Except.bind,
        pure, Except.pure]
      exact ⟨_, back, rfl, { h' with }⟩
    · have hlen := length_rowsOf_blocks [b]
      have hd : SingleBlocks (s.dumped ++
          [⟨rowsOf [b], s.irreversibleBlockNum.getD 2147483647, true⟩]) := by
        intro d hd hlive
        rcases List.mem_append.1 hd with hd | hd
        · exact h.single d hd hlive
        · rw [List.mem_singleton.1 hd]
          exact hlen
      have h' := h.suffix hsuffix hd
      simp only [Indexation.flushIrreversibleBlocks, hmove, flushMoved_single hst, bind,
        Except.bind, pure, Except.pure]
      exact ⟨_, back, rfl, { h' with }⟩
    · simp at hle
  case isFalse hst =>
    obtain ⟨d, hok, hd⟩ := h.flushCache hst s.head
    have h' := h.suffix List.nil_suffix hd
    simp only [hok, bind, Except.bind, pure, Except.pure]
    exact ⟨_, [], rfl, { h' with }⟩

theorem Cached.postReindex (h : s.Cached cfg tail) (stopAt : ℕ) :
    ∃ s' tail', s.step cfg (.postReindex stopAt) = .ok s' ∧ s'.Cached cfg tail' := by
  have hstop : s.state ≠ .live → ∃ s' tail', (do
      let s ← Indexation.flushCache s.head s
      pure { s with stopped := true }) = .ok s' ∧ s'.Cached cfg tail' := fun hst ↦ by
    obtain ⟨d, hok, hd⟩ := h.flushCache hst s.head
    have h' := h.suffix List.nil_suffix hd
    refine ⟨{ s with cache := rowsOf [], dumped := d, stopped := true }, [], ?_, { h' with }⟩
    simp only [hok, bind, Except.bind, pure, Except.pure]
  simp only [step, onPostReindex]
  cases hst : s.state with
  | start | p2p | live | wait => exact ⟨s, tail, rfl, h⟩
  | reindex =>
    dsimp only
    split
    · exact hstop (by simp [hst])
    · obtain ⟨d, hok, hd⟩ := h.flushCache (by simp [hst]) s.head
      refine ⟨{ s with
        state := .p2p, cache := rowsOf [], irreversibleBlockNum := none, lastFlushedBlockNum := 0,
        dumped := d }, [], ?_, cached_empty rfl (by simp) hd⟩
      simp [updateState, hst, hok, bind, Except.bind, pure, Except.pure]
  | reindexWait =>
    dsimp only
    split
    · exact hstop (by simp [hst])
    · obtain rfl := h.waiting (by rw [hst]; rfl)
      refine ⟨{ s with state := .wait }, [], ?_, cached_empty h.cache (by simp) h.single⟩
      simp [updateState, hst]

theorem Cached.syncStep (h : s.Cached cfg tail) (ht : s.SyncLegal t)
    (hone : s.OneBlock cfg t) (hr : ¬ s.SyncRefused cfg t) :
    ∃ s' tail', s.syncStep cfg t = .ok s' ∧ s'.Cached cfg tail' := by
  cases t with
  | interrupted turns =>
    simp only [Indexation.syncStep]
    split
    · exact ⟨s, tail, rfl, h⟩
    · exact h.enterInterrupted (by assumption) turns
  | notified t =>
    simp only [Indexation.syncStep]
    cases t with
    | preReindex canLive =>
      obtain ⟨-, hst⟩ := ht
      obtain rfl := h.waiting (by rw [hst]; rfl)
      refine ⟨{ s with state := if canLive then .wait else .reindexWait }, [], ?_,
        cached_empty h.cache (by cases canLive <;> simp) h.single⟩
      cases canLive <;> simp [step, onPreReindex, updateState, hst]
    | postReindex stopAt => exact h.postReindex stopAt
    | applyBlock b canLive => exact h.applyBlock ht.2 hone hr
    | irreversible n =>
      exact ⟨_, tail, rfl, h.cache, h.ascending, h.below, h.waiting,
        fun hre ↦ (h.reindex hre).trans ht.2.1, h.single⟩
    | switchFork k => exact h.switchFork ht.2.1 ht.2.2
    | endOfSyncing =>
      simp only [step, onEndOfSyncing]
      split
      · exact ⟨s, tail, rfl, h⟩
      · obtain ⟨d, hd, hok⟩ := h.enterLive (by assumption) s.head
        exact ⟨_, [], hok, cached_empty rfl (by simp) hd⟩
    | shutdown => exact h.shutdown hone

theorem oneBlock_of_ok (h : s.Cached cfg tail)
    (hok : s.syncStep cfg t = .ok s') : s.OneBlock cfg t := by
  cases t with
  | interrupted turns => trivial
  | notified t =>
    cases t with
    | applyBlock b canLive =>
      intro hst hfull
      have hblock : s.onBlock cfg canLive b.num = .ok s :=
        onBlock_collecting canLive b.num (by rw [hst]; rfl)
      have hlength : (rowsOf (tail ++ [b]) .blocks).length = 1 := by
        by_contra hne
        simp [Indexation.syncStep, step, hblock, bind, Except.bind, onPostApplyBlock, advanceHead,
          hst, IndexationState.collectBlocks, triggerDataFlush, Indexation.collect, hfull,
          Indexation.flushCache, forceTriggerFlush, h.cache, ← rowsOf_append,
          isEmpty_rowsOf_blocks, hne] at hok
      rw [length_rowsOf_blocks, List.length_append, List.length_singleton] at hlength
      rw [h.cache, isEmpty_rowsOf_blocks, List.isEmpty_iff, ← List.length_eq_zero_iff]
      omega
    | shutdown =>
      intro hst
      by_contra hgt
      have hempty : ((moveIrreversibleBlocks s.irreversibleBlockNum s.cache).1 .blocks).isEmpty =
          false := by
        cases hrows : (moveIrreversibleBlocks s.irreversibleBlockNum s.cache).1 .blocks with
        | nil => simp [hrows] at hgt
        | cons => rfl
      have hne : ((moveIrreversibleBlocks s.irreversibleBlockNum s.cache).1 .blocks).length ≠ 1 := by
        omega
      simp [Indexation.syncStep, step, flushAllCachedData, hst, Indexation.flushIrreversibleBlocks,
        flushMoved, forceTriggerFlush, hempty, hne, bind, Except.bind] at hok
    | _ => trivial

theorem syncRefused_of_ok (hok : s.syncStep cfg t = .ok s') :
    ¬ s.SyncRefused cfg t := by
  cases t with
  | notified t => exact not_refused_of_ok hok
  | interrupted turns => exact not_false

theorem SyncReachable.cached (hs : s.SyncReachable cfg) : ∃ tail, s.Cached cfg tail := by
  induction hs with
  | @initial head lib psqlHead interrupted h =>
    exact ⟨[], cached_initial cfg head lib psqlHead interrupted⟩
  | step hs ht hstep ih =>
    obtain ⟨tail, h⟩ := ih
    obtain ⟨s'', tail', hok, h'⟩ :=
      h.syncStep ht (oneBlock_of_ok h hstep) (syncRefused_of_ok hstep)
    rw [hok] at hstep
    exact ⟨tail', Except.ok.inj hstep ▸ h'⟩

/-- On every run, in both modes, the live dumper was called with one block each time, and the next
step is served or refused before any dumper is called. -/
theorem live_dumper_gets_one_block (hs : s.SyncReachable cfg) {t : SyncStep β}
    (ht : s.SyncLegal t) (hone : s.OneBlock cfg t) :
    SingleBlocks s.dumped ∧
      (s.SyncRefused cfg t ∨ ∃ s', s.syncStep cfg t = .ok s' ∧ SingleBlocks s'.dumped) := by
  obtain ⟨tail, h⟩ := hs.cached
  refine ⟨h.single, or_iff_not_imp_left.2 fun hr ↦ ?_⟩
  obtain ⟨s', tail', hok, h'⟩ := h.syncStep ht hone hr
  exact ⟨s', hok, h'.single⟩

/-- Two live blocks in the lite mode, the first of them irreversible. -/
theorem lite_shutdown_gets_one_block : ∃ s s' : Indexation ℕ, s.SyncReachable ⟨true, 1⟩ ∧
    s.syncStep ⟨true, 1⟩ (.notified .shutdown) = .ok s' ∧
    s'.dumped.map DumpedBatch.live = [true] ∧ SingleBlocks s'.dumped := by
  have hs := SyncReachable.step (t := .notified (.irreversible 1))
    (.step (t := .notified (.applyBlock (sampleBlock 2 2) true))
      (.step (t := .notified (.applyBlock (sampleBlock 1 1) true))
        (.initial 0 false (le_refl 0) : SyncReachable ⟨true, 1⟩ _) ⟨rfl, rfl⟩ rfl) ⟨rfl, rfl⟩ rfl)
    ⟨rfl, by decide, by decide⟩ rfl
  have hone := live_dumper_gets_one_block hs (t := .notified .shutdown) rfl
    fun _ ↦ (by decide : 1 ≤ 1)
  obtain ⟨s', hok, hsingle⟩ := hone.2.resolve_left not_false
  exact ⟨_, s', hs, hok, by cases hok; rfl, hsingle⟩

/-- Two cached blocks that were both announced irreversible fail a shutdown in the lite mode; and a
block that comes after an interrupted entry fails with those left in the caches. -/
theorem live_dumper_gets_two_blocks :
    (∃ s : Indexation ℕ, s.SyncReachable ⟨true, 1⟩ ∧ s.SyncLegal (.notified .shutdown) ∧
      s.syncStep ⟨true, 1⟩ (.notified .shutdown) =
        .error "LIVE sync can only process one block") ∧
    ∃ s : Indexation ℕ, s.SyncReachable ⟨false, 1⟩ ∧
      s.SyncLegal (.notified (.applyBlock (sampleBlock 2 2) true)) ∧
      s.syncStep ⟨false, 1⟩ (.notified (.applyBlock (sampleBlock 2 2) true)) =
        .error "LIVE sync can only process one block" := by
  have hlite := SyncReachable.step (t := .notified (.irreversible 2))
    (.step (t := .notified (.applyBlock (sampleBlock 2 2) true))
      (.step (t := .notified (.applyBlock (sampleBlock 1 1) true))
        (.initial 0 false (le_refl 0) : SyncReachable ⟨true, 1⟩ _) ⟨rfl, rfl⟩ rfl) ⟨rfl, rfl⟩ rfl)
    ⟨rfl, by decide, by decide⟩ rfl
  have hfull := SyncReachable.step (t := .interrupted 0)
    (.step (t := .notified (.applyBlock (sampleBlock 1 1) false))
      (.initial 0 false (le_refl 0) : SyncReachable ⟨false, 1⟩ _) ⟨rfl, rfl⟩ rfl) rfl rfl
  exact ⟨⟨_, hlite, rfl, rfl⟩, _, hfull, ⟨rfl, rfl⟩, rfl⟩

/-- A block left in the caches by an interrupted entry to the live state stays there when a fork
takes it off the chain, so what was dumped followed by what is cached is not the rows of the chain.
-/
theorem interrupted_entry_keeps_forked_rows : ∃ s : Indexation ℕ, s.SyncReachable ⟨false, 1⟩ ∧
    s.chain = [] ∧ s.dumped = [] ∧ s.cache .blocks = [⟨1, 1⟩] ∧
      (s.dumped.flatMap fun d ↦ d.data .blocks) ++ s.cache .blocks ≠ rowsOf s.chain .blocks := by
  have hs := SyncReachable.step (t := .notified (.switchFork 0)) (.step (t := .interrupted 0)
    (.step (t := .notified (.applyBlock (sampleBlock 1 1) false))
      (.initial 0 false (le_refl 0) : SyncReachable ⟨false, 1⟩ _) ⟨rfl, rfl⟩ rfl) rfl rfl)
    ⟨rfl, by decide, by decide⟩ rfl
  exact ⟨_, hs, rfl, rfl, rfl, by decide⟩

end Indexation

end HiveForkManager
