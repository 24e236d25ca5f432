import HiveForkManager.FullMode

namespace HiveForkManager

namespace Indexation

variable {β : Type} {cfg : IndexationConfig} {s : Indexation β}
  {segs : List (List (AppliedBlock β))} {tail front back : List (AppliedBlock β)}

/-- A batch of the massive sync is copied into the tables, one of the live sync goes through
`push_block_lite`, which returns at once when its block is there. -/
def pushBatch (tables : CachedData β) (d : DumpedBatch β) : CachedData β :=
  if d.live && (tables .blocks).any fun r ↦ (d.data .blocks).any fun r' ↦
      decide (r.blockNumber = r'.blockNumber) then tables
  else fun kind ↦ tables kind ++ d.data kind

def hafdTables (s : Indexation β) : CachedData β := s.dumped.foldl pushBatch fun _ ↦ []

def restart (psqlHead : ℕ) (interrupted : Bool) (s : Indexation β) : Indexation β :=
  { initial s.lib s.lib psqlHead interrupted with
    dumped := s.dumped, chain := s.chain.filter fun b ↦ decide (b.num ≤ s.lib) }

/-- The live state is entered with no cached block above the irreversible one, at a shutdown there
is at most one irreversible block left to push, or no reversible one to dump, and the serializer
does not collect blocks below the first one it was asked for. -/
def Careful (cfg : IndexationConfig) (s : Indexation β) : IndexationStep β → Prop
  | .endOfSyncing => s.state = .live ∨ cfg.psqlFirstBlock ≤ s.head + 1 ∧
      ∀ r ∈ s.cache .blocks, ∃ n, s.irreversibleBlockNum = some n ∧ r.blockNumber ≤ n
  | .shutdown =>
    if s.state = .live then
      ((moveIrreversibleBlocks s.irreversibleBlockNum s.cache).1 .blocks).length ≤ 1
    else ∀ r ∈ s.cache .blocks, r.blockNumber ≤ s.lib
  | .switchFork k => cfg.psqlFirstBlock ≤ k + 1
  | _ => True

inductive LiteReachable (cfg : IndexationConfig) : Indexation β → Prop
  | initial {head lib : ℕ} (psqlHead : ℕ) (interrupted : Bool) (h : lib ≤ head) :
      LiteReachable cfg (initial head lib psqlHead interrupted)
  | step {s s' : Indexation β} {t : IndexationStep β} (hs : LiteReachable cfg s)
      (ht : s.Legal t) (hc : s.Careful cfg t) (hstep : s.step cfg t = .ok s') :
      LiteReachable cfg s'
  | restart {s : Indexation β} (psqlHead : ℕ) (interrupted : Bool) (hs : LiteReachable cfg s)
      (hstop : s.stopped = true) : LiteReachable cfg (s.restart psqlHead interrupted)

structure LiteAligned (cfg : IndexationConfig) (s : Indexation β)
    (segs : List (List (AppliedBlock β))) (tail : List (AppliedBlock β)) : Prop where
  chain : s.chain = segs.flatten ++ tail
  cache : s.cache = rowsOf tail
  covers : List.Forall₂ (Covers s.lib) s.dumped segs
  dumped_le : ∀ b ∈ segs.flatten, b.num ≤ s.lib
  ascending : Ascending s.chain
  below : ∀ b ∈ s.chain, b.num ≤ s.head
  gapFree : ∀ b ∈ s.chain, ∀ n, b.num ≤ n → n ≤ s.head → ∃ b' ∈ s.chain, b'.num = n
  lib_le : s.lib ≤ s.head
  irr_le : ∀ n ∈ s.irreversibleBlockNum, n ≤ s.lib
  reindex : s.state = .reindex → s.head ≤ s.lib
  waiting : s.state.collectBlocks = false → tail = []
  first_le : ∀ b ∈ s.chain, cfg.psqlFirstBlock ≤ b.num
  collecting : s.state.collectBlocks = true → cfg.psqlFirstBlock ≤ s.head + 1
  known : s.irreversibleBlockNum = some s.lib ∨ s.state = .reindex ∨ ∀ b ∈ tail, s.lib < b.num
  stopped : s.stopped = true → ∀ b ∈ tail, s.lib < b.num

def LiteInv (cfg : IndexationConfig) (s : Indexation β) : Prop :=
  ∃ segs tail, s.LiteAligned cfg segs tail

variable {b : AppliedBlock β}

theorem mem_rowsOf_blocks {blocks : List (AppliedBlock β)}
    (hb : b ∈ blocks) : ∃ r ∈ rowsOf blocks .blocks, r.blockNumber = b.num := by
  obtain ⟨x, hx⟩ := List.length_eq_one_iff.1 b.one_block
  exact ⟨⟨b.num, x⟩, List.mem_flatMap.2 ⟨b, hb, by simp [hx]⟩, rfl⟩

theorem foldl_pushBatch {bound : ℕ} {ds : List (DumpedBatch β)}
    (h : List.Forall₂ (Covers bound) ds segs) {before : List (AppliedBlock β)}
    (hasc : Ascending (before ++ segs.flatten)) :
    ds.foldl pushBatch (rowsOf before) = rowsOf (before ++ segs.flatten) := by
  induction h generalizing before with
  | nil => simp
  | @cons d seg ds segs hd _ ih =>
    have hpush : pushBatch (rowsOf before) d = rowsOf (before ++ seg) := by
      have hskip : ((rowsOf before .blocks).any fun r ↦ (rowsOf seg .blocks).any fun r' ↦
          decide (r.blockNumber = r'.blockNumber)) = false := by
        simp only [List.any_eq_false, List.any_eq_true, decide_eq_true_eq, not_exists, not_and]
        intro r hr r' hr'
        obtain ⟨b, hb, heq⟩ := exists_of_mem_rowsOf hr
        obtain ⟨b', hb', heq'⟩ := exists_of_mem_rowsOf hr'
        have := (List.pairwise_append.1 hasc).2.2 b hb b' (by simp [hb'])
        omega
      funext kind
      simp [pushBatch, hskip, hd.data, rowsOf_append]
    rw [List.foldl_cons, hpush, ih (by simpa using hasc)]
    simp

theorem LiteAligned.hafdTables (h : s.LiteAligned cfg segs tail) :
    s.hafdTables = rowsOf segs.flatten := by
  have hasc := (List.pairwise_append.1 (h.chain ▸ h.ascending)).1
  exact foldl_pushBatch h.covers (show Ascending ([] ++ segs.flatten) from hasc)

theorem liteInv_initial (cfg : IndexationConfig) {head lib : ℕ} (h : lib ≤ head) (psqlHead : ℕ)
    (interrupted : Bool) : LiteInv cfg (initial head lib psqlHead interrupted : Indexation β) :=
  ⟨[], [], rfl, rfl, .nil, by simp, .nil, by simp [initial], by simp [initial], h,
    by simp [initial], by simp [initial], fun _ ↦ rfl, by simp [initial],
    by simp [initial, IndexationState.collectBlocks], Or.inr (Or.inr (by simp)), by simp⟩

theorem LiteAligned.tail_ascending (h : s.LiteAligned cfg segs tail) : Ascending tail :=
  (List.pairwise_append.1 (h.chain ▸ h.ascending)).2.1

theorem LiteAligned.tail_below (h : s.LiteAligned cfg segs tail) (hb : b ∈ tail) : b.num ≤ s.head :=
  h.below b (h.chain ▸ List.mem_append_right _ hb)

theorem LiteAligned.flush (h : s.LiteAligned cfg segs (front ++ back))
    {ds : List (DumpedBatch β)} {segs' : List (List (AppliedBlock β))}
    (hcov : List.Forall₂ (Covers s.lib) ds segs') (heq : segs'.flatten = segs.flatten ++ front)
    (hfront : ∀ b ∈ front, b.num ≤ s.lib) :
    LiteAligned cfg { s with cache := rowsOf back, dumped := ds } segs' back :=
  { chain := by rw [heq, List.append_assoc]; exact h.chain
    cache := rfl
    covers := hcov
    dumped_le := fun b hb ↦ by
      rw [heq] at hb
      exact (List.mem_append.1 hb).elim (h.dumped_le b) (hfront b)
    ascending := h.ascending
    below := h.below
    gapFree := h.gapFree
    lib_le := h.lib_le
    irr_le := h.irr_le
    reindex := h.reindex
    waiting := fun hw ↦ (List.append_eq_nil_iff.1 (h.waiting hw)).2
    first_le := h.first_le
    collecting := h.collecting
    known := h.known.imp_right
      (Or.imp_right fun hb b hmem ↦ hb b (List.mem_append_right front hmem))
    stopped := fun hs b hb ↦ h.stopped hs b (List.mem_append_right front hb) }

theorem LiteAligned.massive (h : s.LiteAligned cfg segs (front ++ back))
    (hfront : ∀ b ∈ front, b.num ≤ s.lib) (n : ℕ) :
    ∃ segs', LiteAligned cfg
      { s with cache := rowsOf back, dumped := s.dumped ++ massiveBatch front n } segs' back := by
  obtain ⟨segs', hcov, heq⟩ := covers_massiveBatch h.covers hfront n
  exact ⟨segs', h.flush hcov heq hfront⟩

theorem LiteAligned.split_irreversible (h : s.LiteAligned cfg segs tail) :
    ∃ front back, tail = front ++ back ∧
      (∀ b ∈ front, ∃ n, s.irreversibleBlockNum = some n ∧ b.num ≤ n) ∧
      (∀ b ∈ back, ∀ n, s.irreversibleBlockNum = some n → n < b.num) ∧
      moveIrreversibleBlocks s.irreversibleBlockNum s.cache = (rowsOf front, rowsOf back) :=
  h.tail_ascending.split_irreversible h.cache _

theorem LiteAligned.le_lib (h : s.LiteAligned cfg segs tail)
    (hb : ∃ n, s.irreversibleBlockNum = some n ∧ b.num ≤ n) : b.num ≤ s.lib := by
  obtain ⟨n, hn, hle⟩ := hb
  exact hle.trans (h.irr_le n hn)

theorem LiteAligned.enter (h : s.LiteAligned cfg segs []) (target : IndexationState)
    {irr : Option ℕ} (hirr : ∀ n ∈ irr, n ≤ s.lib) (flushed : ℕ)
    (hre : target = .reindex → s.head ≤ s.lib)
    (hfirst : target.collectBlocks = true → cfg.psqlFirstBlock ≤ s.head + 1) :
    LiteAligned cfg { s with
      state := target, irreversibleBlockNum := irr, lastFlushedBlockNum := flushed } segs [] :=
  { chain := h.chain
    cache := h.cache
    covers := h.covers
    dumped_le := h.dumped_le
    ascending := h.ascending
    below := h.below
    gapFree := h.gapFree
    lib_le := h.lib_le
    irr_le := hirr
    reindex := hre
    waiting := fun _ ↦ rfl
    first_le := h.first_le
    collecting := hfirst
    known := Or.inr (Or.inr (by simp))
    stopped := by simp }

theorem LiteAligned.flushCache (h : s.LiteAligned cfg segs tail) (hs : s.state ≠ .live)
    (htail : ∀ b ∈ tail, b.num ≤ s.lib) (n : ℕ) :
    ∃ d segs', s.flushCache n = .ok { s with cache := rowsOf [], dumped := d } ∧
      LiteAligned cfg { s with cache := rowsOf [], dumped := d } segs' [] := by
  by_cases hw : s.state.collectBlocks = false
  · obtain rfl := h.waiting hw
    refine ⟨s.dumped, segs, ?_, ?_⟩ <;> rw [← h.cache]
    · exact flushCache_nil h.cache n
    · exact h
  · have hmassive := IndexationState.massive_of_collectBlocks hs hw
    have h' := h
    rw [← List.append_nil tail] at h'
    obtain ⟨segs', hal⟩ := h'.massive htail n
    exact ⟨_, segs', flushCache_massive hmassive h.cache n, hal⟩

theorem LiteAligned.tail_le_lib (h : s.LiteAligned cfg segs tail) (hs : s.state = .reindex)
    (b : AppliedBlock β) (hb : b ∈ tail) : b.num ≤ s.lib :=
  (h.tail_below hb).trans (h.reindex hs)

theorem LiteAligned.enterLive (h : s.LiteAligned cfg segs tail) (hlite : cfg.liteMode = true)
    (hs : s.state ≠ .live) (hfirst : cfg.psqlFirstBlock ≤ s.head + 1)
    (htail : ∀ b ∈ tail, ∃ n, s.irreversibleBlockNum = some n ∧ b.num ≤ n) (n : ℕ) :
    ∃ d segs', s.updateState cfg .live n =
        .ok { s with state := .live, cache := rowsOf [], dumped := d } ∧
      LiteAligned cfg { s with state := .live, cache := rowsOf [], dumped := d } segs' [] := by
  have hflush : ∃ d segs', s.flushBeforeLive = .ok { s with cache := rowsOf [], dumped := d } ∧
      LiteAligned cfg { s with cache := rowsOf [], dumped := d } segs' [] := by
    by_cases hw : s.state.collectBlocks = false
    · obtain rfl := h.waiting hw
      obtain ⟨front, back, heq, -, -, hmove⟩ := h.split_irreversible
      obtain ⟨rfl, rfl⟩ := List.append_eq_nil_iff.1 heq.symm
      refine ⟨s.dumped, segs, ?_, by rw [← h.cache]; exact h⟩
      unfold Indexation.flushBeforeLive
      split
      · rw [← h.cache]
      · rw [Indexation.flushIrreversibleBlocks, hmove, flushMoved_nil]
    · obtain ⟨front, back, rfl, -, hback, hmove⟩ := h.split_irreversible
      have hnil : back = [] := List.eq_nil_iff_forall_not_mem.2 fun b hb ↦ by
        obtain ⟨m, hm, hle⟩ := htail b (List.mem_append_right front hb)
        have := hback b hb m hm
        omega
      subst hnil
      have hle : ∀ b ∈ front, b.num ≤ s.lib := fun b hb ↦
        h.le_lib (htail b (List.mem_append_left [] hb))
      obtain ⟨segs', hal⟩ := h.massive hle (s.irreversibleBlockNum.getD 2147483647)
      refine ⟨_, segs', ?_, hal⟩
      rw [Indexation.flushBeforeLive, if_neg fun hst ↦ hw (by simp [hst,
        IndexationState.collectBlocks]), Indexation.flushIrreversibleBlocks, hmove]
      exact flushMoved_massive (IndexationState.massive_of_collectBlocks hs hw) front [] _
  obtain ⟨d, segs', hok, hal⟩ := hflush
  refine ⟨d, segs', ?_, hal.enter .live hal.irr_le _ (by simp) fun _ ↦ hfirst⟩
  rw [updateState, if_neg hs, if_neg (by simp)]
  simp only [hok, bind, Except.bind, startLive, hlite, if_true]
  rfl

theorem LiteAligned.onBlock (h : s.LiteAligned cfg segs tail) (hlite : cfg.liteMode = true)
    {canLive : Bool}
    (hr : ¬ s.Refused cfg (.applyBlock b canLive)) (hfirst : cfg.psqlFirstBlock ≤ b.num) :
    ∃ st irr flushed, s.onBlock cfg canLive b.num = .ok { s with
        state := st, irreversibleBlockNum := irr, lastFlushedBlockNum := flushed } ∧
      st.collectBlocks = true ∧ (∀ n ∈ irr, n ≤ s.lib) ∧
      (st = s.state ∧ irr = s.irreversibleBlockNum ∨ tail = []) := by
  have hempty : s.state.collectBlocks = false → s.cache = rowsOf [] := fun hw ↦ by
    rw [h.cache, h.waiting hw]
  have hwait : s.state = .start ∨ s.state = .wait →
      ∃ st irr flushed, updateWithEmptyCache cfg (if canLive then .live else .p2p) b.num
          { s with state := .wait } = .ok { s with
            state := st, irreversibleBlockNum := irr, lastFlushedBlockNum := flushed } ∧
        st.collectBlocks = true ∧ (∀ n ∈ irr, n ≤ s.lib) ∧
        (st = s.state ∧ irr = s.irreversibleBlockNum ∨ tail = []) := fun hst ↦ by
    have hw : s.state.collectBlocks = false := by
      rcases hst with hst | hst <;> simp [hst, IndexationState.collectBlocks]
    obtain rfl := h.waiting hw
    have hal := h.enter .wait h.irr_le s.lastFlushedBlockNum (by simp)
      (by simp [IndexationState.collectBlocks])
    cases canLive with
    | true =>
      obtain ⟨front, back, heq, -, -, hmove⟩ := hal.split_irreversible
      obtain ⟨rfl, rfl⟩ := List.append_eq_nil_iff.1 heq.symm
      refine ⟨.live, s.irreversibleBlockNum, s.lastFlushedBlockNum, ?_, rfl, h.irr_le, Or.inr rfl⟩
      have hlive : updateState cfg .live b.num { s with state := .wait } =
          .ok { s with state := .live, cache := rowsOf [] } := by
        rw [updateState, if_neg (by simp), if_neg (by simp)]
        simp only [Indexation.flushBeforeLive, reduceCtorEq, if_false,
          Indexation.flushIrreversibleBlocks, hmove, flushMoved_nil, bind, Except.bind, startLive,
          hlite, if_true]
        rfl
      rw [if_pos rfl, updateWithEmptyCache_eq hal.cache hlive rfl, ← h.cache]
    | false =>
      have hp2p : updateState cfg .p2p b.num { s with state := .wait } = .ok { s with
          state := .p2p, irreversibleBlockNum := none, lastFlushedBlockNum := 0 } := by
        rw [updateState, if_neg (by simp), if_neg fun hc ↦ hr ⟨rfl, hfirst, hst, ?_, hc.2.2⟩]
        · simp only [flushCache_nil hal.cache, bind, Except.bind, pure, Except.pure]
        · rcases hst with hst | hst <;> simp [hst]
      exact ⟨.p2p, none, 0, updateWithEmptyCache_eq hal.cache hp2p h.cache, rfl, by simp,
        Or.inr rfl⟩
  cases hst : s.state with
  | start =>
    have hleave : s.leaveStart cfg b.num = .ok { s with state := .wait } := by
      simp [leaveStart, updateState, hst]
    simpa [Indexation.onBlock, hleave, bind, Except.bind, hfirst, onFirstBlock, hst] using
      hwait (Or.inl hst)
  | wait =>
    have hsame : { s with state := .wait } = s := by rw [← hst]
    have h' := hwait (Or.inr hst)
    rw [hsame] at h'
    simpa [Indexation.onBlock, leaveStart, bind, Except.bind, hfirst, onFirstBlock, hst] using h'
  | reindexWait =>
    have hw : s.state.collectBlocks = false := by simp [hst, IndexationState.collectBlocks]
    have hre : updateState cfg .reindex b.num s = .ok { s with state := .reindex } := by
      simp [updateState, hst, flushCache_nil (hempty hw), bind, Except.bind, pure, Except.pure]
    refine ⟨.reindex, s.irreversibleBlockNum, s.lastFlushedBlockNum, ?_, rfl, h.irr_le,
      Or.inr (h.waiting hw)⟩
    simp [Indexation.onBlock, leaveStart, bind, Except.bind, hfirst, onFirstBlock, hst,
      updateWithEmptyCache_eq (hempty hw) hre (hempty hw)]
  | reindex | p2p | live =>
    have hok : s.onBlock cfg canLive b.num = .ok s := by
      simp [Indexation.onBlock, leaveStart, bind, Except.bind, hfirst, onFirstBlock, hst]
    exact ⟨s.state, s.irreversibleBlockNum, s.lastFlushedBlockNum, hok,
      by simp [hst, IndexationState.collectBlocks], h.irr_le, Or.inl ⟨hst, rfl⟩⟩

theorem LiteAligned.collect (h : s.LiteAligned cfg segs tail) (hstop : s.stopped = false)
    (hb : b.num = s.head + 1) (hfirst : cfg.psqlFirstBlock ≤ b.num)
    {st : IndexationState} (hst : st.collectBlocks = true) {irr : Option ℕ}
    (hirr : ∀ n ∈ irr, n ≤ s.lib) (flushed : ℕ)
    (hor : st = s.state ∧ irr = s.irreversibleBlockNum ∨ tail = []) :
    LiteAligned cfg (Indexation.collect b (Indexation.advanceHead b.num { s with
      state := st, irreversibleBlockNum := irr, lastFlushedBlockNum := flushed }))
      segs (tail ++ [b]) := by
  have hlib := h.lib_le
  have hgrow : s.lib ≤ if st = .reindex then b.num else s.lib := by split <;> omega
  exact
    { chain := by simp only [Indexation.collect, Indexation.advanceHead, h.chain,
        List.append_assoc]
      cache := funext fun kind ↦ by
        simp only [Indexation.collect, Indexation.advanceHead, h.cache, rowsOf_append]
      covers := h.covers.imp fun _ _ ↦ Covers.mono hgrow
      dumped_le := fun b' hb' ↦ (h.dumped_le b' hb').trans hgrow
      ascending := List.pairwise_append.2 ⟨h.ascending, List.pairwise_singleton _ _,
        fun b' hb' x hx ↦ by
          have := h.below b' hb'
          rw [List.mem_singleton.1 hx]
          omega⟩
      below := fun b' hb' ↦ by
        change b'.num ≤ b.num
        rcases List.mem_append.1 hb' with hmem | hmem
        · have := h.below b' hmem
          omega
        · rw [List.mem_singleton.1 hmem]
      gapFree := fun b' hb' n hle hn ↦ by
        have hn' : n ≤ b.num := hn
        by_cases heq : n = b.num
        · exact ⟨b, by simp [Indexation.collect], heq.symm⟩
        · rcases List.mem_append.1 hb' with hmem | hmem
          · obtain ⟨x, hx, hxn⟩ := h.gapFree b' hmem n hle (by omega)
            exact ⟨x, List.mem_append_left _ hx, hxn⟩
          · rw [List.mem_singleton.1 hmem] at hle
            omega
      lib_le := by
        change (if st = .reindex then b.num else s.lib) ≤ b.num
        split <;> omega
      irr_le := fun n hn ↦ (hirr n hn).trans hgrow
      reindex := fun hre ↦ by
        have hre' : st = .reindex := hre
        change b.num ≤ if st = .reindex then b.num else s.lib
        rw [if_pos hre']
      waiting := fun hw ↦ by
        have hw' : st.collectBlocks = false := hw
        rw [hst] at hw'
        cases hw'
      first_le := fun b' hb' ↦ by
        rcases List.mem_append.1 hb' with hmem | hmem
        · exact h.first_le b' hmem
        · rwa [List.mem_singleton.1 hmem]
      collecting := fun _ ↦ by
        change cfg.psqlFirstBlock ≤ b.num + 1
        omega
      known := by
        by_cases hre : st = .reindex
        · exact Or.inr (Or.inl hre)
        · have hsame : (if st = .reindex then b.num else s.lib) = s.lib := if_neg hre
          have hlast : (∀ x ∈ tail, s.lib < x.num) → ∀ x ∈ tail ++ [b], s.lib < x.num :=
            fun htail x hx ↦ (List.mem_append.1 hx).elim (htail x) fun hx ↦ by
              rw [List.mem_singleton.1 hx]
              omega
          change irr = some (if st = .reindex then b.num else s.lib) ∨ st = .reindex ∨
            ∀ x ∈ tail ++ [b], (if st = .reindex then b.num else s.lib) < x.num
          rw [hsame]
          rcases hor with ⟨rfl, rfl⟩ | rfl
          · exact h.known.imp_right fun hk ↦ Or.inr (hlast (hk.resolve_left hre))
          · exact Or.inr (Or.inr (hlast (by simp)))
      stopped := fun hs ↦ by
        have hs' : s.stopped = true := hs
        rw [hstop] at hs'
        cases hs' }

theorem LiteAligned.trigger (h : s.LiteAligned cfg segs tail) (hlite : cfg.liteMode = true)
    (n : ℕ) :
    ∃ s' segs' tail', s.triggerDataFlush cfg n = .ok s' ∧ s'.LiteAligned cfg segs' tail' ∧
      (s'.state = .live → ∀ b ∈ tail', ∀ m, s'.irreversibleBlockNum = some m → m < b.num) := by
  cases hst : s.state with
  | start | wait | reindexWait =>
    exact ⟨s, segs, tail, by simp [triggerDataFlush, hst], h, by simp [hst]⟩
  | reindex =>
    by_cases hn : n % 1000 = 0
    · obtain ⟨d, segs', hok, hal⟩ := h.flushCache (by simp [hst]) (h.tail_le_lib hst) n
      exact ⟨_, segs', [], by simp [triggerDataFlush, hst, hn, hok], hal, by simp⟩
    · exact ⟨s, segs, tail, by simp [triggerDataFlush, hst, hn], h, by simp [hst]⟩
  | p2p =>
    cases hirr : s.irreversibleBlockNum with
    | none => exact ⟨s, segs, tail, by simp [triggerDataFlush, hst, hirr], h, by simp [hst]⟩
    | some m =>
      by_cases hm : (m : ℤ) - s.lastFlushedBlockNum < 1000
      · exact ⟨s, segs, tail, by simp [triggerDataFlush, hst, hirr, hm], h, by simp [hst]⟩
      · obtain ⟨front, back, rfl, hfront, -, hmove⟩ := h.split_irreversible
        obtain ⟨segs', hal⟩ := h.massive (fun b hb ↦ h.le_lib (hfront b hb)) m
        rw [hirr] at hmove
        refine ⟨{ s with
          cache := rowsOf back, dumped := s.dumped ++ massiveBatch front m,
          lastFlushedBlockNum := m }, segs', back, ?_, { hal with }, fun hl ↦ ?_⟩
        · simp only [triggerDataFlush, hst, hirr, hm, if_false, hmove,
            flushMoved_massive (Or.inr hst), bind, Except.bind, pure, Except.pure]
        · exact absurd (hst.symm.trans hl) (by simp)
  | live =>
    cases hirr : s.irreversibleBlockNum with
    | none =>
      exact ⟨s, segs, tail, by simp [triggerDataFlush, hst, hlite, hirr], h, by simp [hirr]⟩
    | some m =>
      obtain ⟨front, back, rfl, hfront, hback⟩ := h.tail_ascending.splitAt m
      obtain ⟨segs', hcov, heq⟩ := covers_liveBatch h.covers front
      have hle : ∀ b ∈ front, b.num ≤ s.lib := fun b hb ↦ h.le_lib ⟨m, hirr, hfront b hb⟩
      have hflush : s.flushSingleBlocks (fun k ↦ decide (k ≤ m)) =
          .ok { s with cache := rowsOf back, dumped := s.dumped ++ front.map liveBatch } := by
        refine flushOneByOne_eq (fun b hb ↦ decide_eq_true (hfront b hb)) (fun b hb ↦ ?_) ?_ hst
          h.tail_ascending h.cache
        · have := hback b (List.mem_of_mem_head? hb)
          simpa using this
        · rw [h.cache, length_rowsOf_blocks, List.length_append]
          omega
      refine ⟨_, segs', back, ?_, h.flush hcov heq hle, fun _ b hb k hk ↦ ?_⟩
      · simp only [triggerDataFlush, hst, hlite, if_true, hirr, hflush]
      · have hmk : m = k := Option.some.inj (hirr.symm.trans hk)
        exact hmk ▸ hback b hb

theorem LiteAligned.skip (h : s.LiteAligned cfg segs tail)
    (hb : b.num = s.head + 1) (hfirst : b.num < cfg.psqlFirstBlock) (canLive : Bool) :
    ∃ s', s.step cfg (.applyBlock b canLive) = .ok s' ∧ s'.LiteInv cfg ∧ s'.state ≠ .live := by
  have hw : s.state.collectBlocks = false := by
    by_contra hc
    have := h.collecting (by simpa using hc)
    omega
  have hnil : s.chain = [] := List.eq_nil_iff_forall_not_mem.2 fun x hx ↦ by
    have := h.first_le x hx
    have := h.below x hx
    omega
  have hleave : ∃ st, s.leaveStart cfg b.num = .ok { s with state := st } ∧
      st.collectBlocks = false := by
    by_cases hst : s.state = .start
    · exact ⟨.wait, by simp [leaveStart, updateState, hst], rfl⟩
    · exact ⟨s.state, by simp [leaveStart, hst], hw⟩
  obtain ⟨st, hok, hst⟩ := hleave
  have hlib := h.lib_le
  have hre : st ≠ .reindex := fun he ↦ by simp [he, IndexationState.collectBlocks] at hst
  have hlive : st ≠ .live := fun he ↦ by simp [he, IndexationState.collectBlocks] at hst
  obtain rfl := h.waiting hw
  refine ⟨{ s with state := st, head := b.num }, ?_, ⟨segs, [], ?_⟩, hlive⟩
  · simp [step, Indexation.onBlock, hok, bind, Except.bind, pure, Except.pure,
      show ¬ cfg.psqlFirstBlock ≤ b.num by omega, Indexation.onPostApplyBlock,
      Indexation.advanceHead, hst, hre]
  · exact
      { chain := h.chain
        cache := h.cache
        covers := h.covers
        dumped_le := h.dumped_le
        ascending := h.ascending
        below := fun x hx ↦ by simp [hnil] at hx
        gapFree := fun x hx ↦ by simp [hnil] at hx
        lib_le := by change s.lib ≤ b.num; omega
        irr_le := h.irr_le
        reindex := fun he ↦ absurd he hre
        waiting := fun _ ↦ rfl
        first_le := h.first_le
        collecting := fun hc ↦ by
          have hc' : st.collectBlocks = true := hc
          rw [hst] at hc'
          cases hc'
        known := Or.inr (Or.inr (by simp))
        stopped := by simp }

theorem LiteAligned.irreversible (h : s.LiteAligned cfg segs tail) (hstop : s.stopped = false)
    {n : ℕ} (hlib : s.lib ≤ n) (hn : n ≤ s.head) :
    LiteAligned cfg { s with irreversibleBlockNum := some n, lib := n } segs tail :=
  { chain := h.chain
    cache := h.cache
    covers := h.covers.imp fun _ _ ↦ Covers.mono hlib
    dumped_le := fun b hb ↦ (h.dumped_le b hb).trans hlib
    ascending := h.ascending
    below := h.below
    gapFree := h.gapFree
    lib_le := hn
    irr_le := by simp
    reindex := fun hre ↦ (h.reindex hre).trans hlib
    waiting := h.waiting
    first_le := h.first_le
    collecting := h.collecting
    known := Or.inl rfl
    stopped := fun hs ↦ by
      have hs' : s.stopped = true := hs
      rw [hstop] at hs'
      cases hs' }

theorem LiteAligned.switchFork (h : s.LiteAligned cfg segs tail) (hlite : cfg.liteMode = true)
    {k : ℕ} (hlib : s.lib ≤ k) (hk : k ≤ s.head) (hfirst : cfg.psqlFirstBlock ≤ k + 1) :
    ∃ s', s.step cfg (.switchFork k) = .ok s' ∧ s'.LiteInv cfg := by
  obtain ⟨front, back, rfl, hfront, hback⟩ := h.tail_ascending.splitAt k
  have hkeep : segs.flatten.filter (fun b ↦ decide (b.num ≤ k)) = segs.flatten :=
    List.filter_eq_self.2 fun b hb ↦ decide_eq_true ((h.dumped_le b hb).trans hlib)
  have hcache : (s.onSwitchFork cfg k).cache = rowsOf front := by
    by_cases hst : s.state = .p2p ∨ s.state = .live
    · have hc : s.state = .p2p ∨ s.state = .live ∧ cfg.liteMode = true :=
        hst.imp_right fun hl ↦ ⟨hl, hlite⟩
      simp only [onSwitchFork, if_pos hc, h.cache]
      exact eraseItemsGreaterThanBlock_rowsOf hfront hback
    · have hnil : back = [] := by
        by_cases hw : s.state.collectBlocks = false
        · exact (List.append_eq_nil_iff.1 (h.waiting hw)).2
        · have hre :=
            (IndexationState.massive_of_collectBlocks (fun hl ↦ hst (Or.inr hl)) hw).resolve_right
            fun hp ↦ hst (Or.inl hp)
          refine List.eq_nil_iff_forall_not_mem.2 fun b hb ↦ ?_
          have := h.tail_le_lib hre b (List.mem_append_right front hb)
          have := hback b hb
          omega
      subst hnil
      have hc : ¬ (s.state = .p2p ∨ s.state = .live ∧ cfg.liteMode = true) := fun hc ↦
        hst (hc.imp_right And.left)
      simp only [onSwitchFork, if_neg hc, h.cache, List.append_nil]
  have hdumped : (s.onSwitchFork cfg k).dumped = s.dumped := by simp [onSwitchFork, hlite]
  refine ⟨_, rfl, segs, front, ?_⟩
  exact
    { chain := by
        change s.chain.filter _ = _
        rw [h.chain, List.filter_append, hkeep, filter_num_le hfront hback]
      cache := hcache
      covers := by
        change List.Forall₂ (Covers s.lib) (s.onSwitchFork cfg k).dumped segs
        rw [hdumped]
        exact h.covers
      dumped_le := h.dumped_le
      ascending := List.Pairwise.filter _ h.ascending
      below := fun b hb ↦ of_decide_eq_true (List.mem_filter.1 hb).2
      gapFree := fun b hb n hle hn ↦ by
        have hn' : n ≤ k := hn
        obtain ⟨b', hb', rfl⟩ := h.gapFree b (List.mem_filter.1 hb).1 n hle (hn'.trans hk)
        exact ⟨b', List.mem_filter.2 ⟨hb', decide_eq_true hn'⟩, rfl⟩
      lib_le := hlib
      irr_le := h.irr_le
      reindex := fun hre ↦ hk.trans (h.reindex hre)
      waiting := fun hw ↦ (List.append_eq_nil_iff.1 (h.waiting hw)).1
      first_le := fun b hb ↦ h.first_le b (List.mem_filter.1 hb).1
      collecting := fun _ ↦ hfirst
      known := h.known.imp_right
        (Or.imp_right fun hb b hmem ↦ hb b (List.mem_append_left back hmem))
      stopped := fun hs b hb ↦ h.stopped hs b (List.mem_append_left back hb) }

theorem LiteAligned.stop (h : s.LiteAligned cfg segs tail) (htail : ∀ b ∈ tail, s.lib < b.num) :
    LiteAligned cfg { s with stopped := true } segs tail :=
  { h with stopped := fun _ ↦ htail }

theorem LiteAligned.shutdown_live (h : s.LiteAligned cfg segs tail) (hst : s.state = .live)
    (hc : ((moveIrreversibleBlocks s.irreversibleBlockNum s.cache).1 .blocks).length ≤ 1) :
    ∃ s', s.step cfg .shutdown = .ok s' ∧ s'.LiteInv cfg := by
  obtain ⟨front, back, rfl, hfront, hback, hmove⟩ := h.split_irreversible
  have hlate : ∀ b ∈ back, s.lib < b.num := fun b hb ↦ by
    rcases h.known with hk | hk | hk
    · exact hback b hb _ hk
    · simp [hst] at hk
    · exact hk b (List.mem_append_right front hb)
  rw [hmove, length_rowsOf_blocks] at hc
  cases front with
  | nil =>
    have hal : LiteAligned cfg { s with cache := rowsOf back } segs back :=
      h.flush h.covers (by simp) (by simp)
    refine ⟨_, ?_, segs, back, hal.stop hlate⟩
    simp only [step, flushAllCachedData, hst, if_true, Indexation.flushIrreversibleBlocks, hmove,
      flushMoved_nil, bind, Except.bind, pure, Except.pure]
  | cons b front =>
    obtain rfl : front = [] := List.eq_nil_of_length_eq_zero (by simp at hc; simpa using hc)
    obtain ⟨n, hn, hbn⟩ := hfront b (by simp)
    have hmem : b ∈ s.chain := by rw [h.chain]; simp
    have hnum : b.num = n := by
      obtain ⟨b', hb', rfl⟩ := h.gapFree b hmem n hbn ((h.irr_le n hn).trans h.lib_le)
      have hasc := h.ascending
      rw [h.chain] at hb' hasc
      rcases List.mem_append.1 hb' with hd | hd
      · have := (List.pairwise_append.1 hasc).2.2 b' hd b (by simp)
        omega
      · rcases List.mem_append.1 hd with hd | hd
        · rw [List.mem_singleton.1 hd]
        · exact absurd (hback b' hd _ hn) (lt_irrefl _)
    obtain ⟨segs', hcov, heq⟩ := covers_liveBatch h.covers [b]
    have hal := h.flush hcov heq fun x hx ↦ h.le_lib (hfront x hx)
    refine ⟨_, ?_, segs', back, hal.stop hlate⟩
    have hflush : s.flushIrreversibleBlocks =
        .ok { s with cache := rowsOf back, dumped := s.dumped ++ [b].map liveBatch } := by
      have hget : s.irreversibleBlockNum.getD 2147483647 = b.num := by
        rw [hn]
        exact hnum.symm
      rw [Indexation.flushIrreversibleBlocks, hmove, hget]
      exact flushMoved_live hst b back
    simp only [step, flushAllCachedData, if_pos hst, hflush, bind, Except.bind, pure, Except.pure]

theorem LiteAligned.restart (h : s.LiteAligned cfg segs tail) (hstop : s.stopped = true)
    (psqlHead : ℕ) (interrupted : Bool) :
    (s.restart psqlHead interrupted).LiteAligned cfg segs [] := by
  have hchain : s.chain.filter (fun b ↦ decide (b.num ≤ s.lib)) = segs.flatten := by
    rw [h.chain, filter_num_le h.dumped_le (h.stopped hstop)]
  have hsub : ∀ b ∈ (s.restart psqlHead interrupted).chain, b ∈ s.chain ∧ b.num ≤ s.lib :=
    fun b hb ↦ ⟨(List.mem_filter.1 hb).1, of_decide_eq_true (List.mem_filter.1 hb).2⟩
  exact
    { chain := by rw [List.append_nil]; exact hchain
      cache := rfl
      covers := h.covers
      dumped_le := h.dumped_le
      ascending := List.Pairwise.filter _ h.ascending
      below := fun b hb ↦ (hsub b hb).2
      gapFree := fun b hb n hle hn ↦ by
        have hn' : n ≤ s.lib := hn
        obtain ⟨b', hb', rfl⟩ := h.gapFree b (hsub b hb).1 n hle (hn'.trans h.lib_le)
        exact ⟨b', List.mem_filter.2 ⟨hb', decide_eq_true hn'⟩, rfl⟩
      lib_le := le_rfl
      irr_le := by simp [Indexation.restart, initial]
      reindex := by simp [Indexation.restart, initial]
      waiting := fun _ ↦ rfl
      first_le := fun b hb ↦ h.first_le b (hsub b hb).1
      collecting := by simp [Indexation.restart, initial, IndexationState.collectBlocks]
      known := Or.inr (Or.inr (by simp))
      stopped := by simp }

theorem LiteAligned.applyBlock (h : s.LiteAligned cfg segs tail) (hlite : cfg.liteMode = true)
    (hstop : s.stopped = false) (hb : b.num = s.head + 1) {canLive : Bool}
    (hr : ¬ s.Refused cfg (.applyBlock b canLive)) :
    ∃ s' segs' tail', s.step cfg (.applyBlock b canLive) = .ok s' ∧
      s'.LiteAligned cfg segs' tail' ∧
      (s'.state = .live → ∀ x ∈ tail', ∀ n, s'.irreversibleBlockNum = some n → n < x.num) := by
  by_cases hfirst : cfg.psqlFirstBlock ≤ b.num
  · obtain ⟨st, irr, flushed, hok, hst, hirr, hor⟩ := h.onBlock hlite hr hfirst
    have hcol := h.collect hstop hb hfirst hst hirr flushed hor
    obtain ⟨s', segs', tail', hok', hal, hlive⟩ := hcol.trigger hlite b.num
    refine ⟨s', segs', tail', ?_, hal, hlive⟩
    simp only [step, hok, bind, Except.bind]
    exact (if_pos hst).trans hok'
  · obtain ⟨s', hok, ⟨segs', tail', hal⟩, hne⟩ := h.skip hb (by omega) canLive
    exact ⟨s', segs', tail', hok, hal, fun hl ↦ absurd hl hne⟩

theorem LiteInv.step (hinv : s.LiteInv cfg) (hlite : cfg.liteMode = true) {t : IndexationStep β}
    (ht : s.Legal t) (hc : s.Careful cfg t) (hr : ¬ s.Refused cfg t) :
    ∃ s', s.step cfg t = .ok s' ∧ s'.LiteInv cfg := by
  obtain ⟨segs, tail, h⟩ := hinv
  cases t with
  | preReindex canLive =>
    obtain ⟨-, hst⟩ := ht
    obtain rfl := h.waiting (by simp [hst, IndexationState.collectBlocks])
    cases canLive with
    | true => exact ⟨_, by simp [Indexation.step, onPreReindex, updateState, hst], segs, [],
        h.enter .wait h.irr_le s.lastFlushedBlockNum (by simp)
          (by simp [IndexationState.collectBlocks])⟩
    | false => exact ⟨_, by simp [Indexation.step, onPreReindex, updateState, hst], segs, [],
        h.enter .reindexWait h.irr_le s.lastFlushedBlockNum (by simp)
          (by simp [IndexationState.collectBlocks])⟩
  | postReindex stopAt =>
    simp only [Indexation.step, onPostReindex]
    cases hst : s.state with
    | start | p2p | live | wait => exact ⟨s, rfl, segs, tail, h⟩
    | reindex =>
      obtain ⟨d, segs', hok, hal⟩ := h.flushCache (by simp [hst]) (h.tail_le_lib hst) s.head
      dsimp only
      split
      · exact ⟨_, by simp [hok, bind, Except.bind, pure, Except.pure], segs', [],
          hal.stop (by simp)⟩
      · have hp := hal.enter .p2p (by simp : ∀ n ∈ (none : Option ℕ), n ≤ s.lib) 0 (by simp)
          fun _ ↦ h.collecting (by simp [hst, IndexationState.collectBlocks])
        refine ⟨_, ?_, segs', [], hp⟩
        rw [updateState, if_neg (by simp [hst]), if_neg fun hc ↦ hc.2.1 hst]
        simp only [hok, bind, Except.bind, pure, Except.pure]
    | reindexWait =>
      obtain rfl := h.waiting (by simp [hst, IndexationState.collectBlocks])
      dsimp only
      split
      · exact ⟨_, by simp [flushCache_nil h.cache, bind, Except.bind, pure, Except.pure], segs,
          [], h.stop (by simp)⟩
      · exact ⟨_, by simp [updateState, hst], segs, [],
          h.enter .wait h.irr_le s.lastFlushedBlockNum (by simp)
          (by simp [IndexationState.collectBlocks])⟩
  | applyBlock b canLive =>
    obtain ⟨s', segs', tail', hok, hal, -⟩ := h.applyBlock hlite ht.1 ht.2 hr
    exact ⟨s', hok, segs', tail', hal⟩
  | irreversible n => exact ⟨_, rfl, segs, tail, h.irreversible ht.1 ht.2.1 ht.2.2⟩
  | switchFork k => exact h.switchFork hlite ht.2.1 ht.2.2 hc
  | endOfSyncing =>
    simp only [Indexation.step, onEndOfSyncing]
    split
    case isTrue => exact ⟨s, rfl, segs, tail, h⟩
    case isFalse hst =>
      obtain ⟨hfirst, hcached⟩ := hc.resolve_left hst
      have htail : ∀ b ∈ tail, ∃ n, s.irreversibleBlockNum = some n ∧ b.num ≤ n := fun b hb ↦ by
        obtain ⟨r, hmem, hnum⟩ := mem_rowsOf_blocks hb
        exact hnum ▸ hcached r (h.cache ▸ hmem)
      obtain ⟨d, segs', hok, hal⟩ := h.enterLive hlite hst hfirst htail s.head
      exact ⟨_, hok, segs', [], hal⟩
  | shutdown =>
    unfold Careful at hc
    by_cases hst : s.state = .live
    · rw [if_pos hst] at hc
      exact h.shutdown_live hst hc
    · rw [if_neg hst] at hc
      have htail : ∀ b ∈ tail, b.num ≤ s.lib := fun b hb ↦ by
        obtain ⟨r, hmem, hnum⟩ := mem_rowsOf_blocks hb
        exact hnum ▸ hc r (h.cache ▸ hmem)
      obtain ⟨d, segs', hok, hal⟩ := h.flushCache hst htail s.head
      refine ⟨_, ?_, segs', [], hal.stop (by simp)⟩
      simp only [Indexation.step, flushAllCachedData, if_neg hst, hok, bind, Except.bind, pure,
        Except.pure]

theorem LiteReachable.inv (hlite : cfg.liteMode = true) (hs : s.LiteReachable cfg) :
    s.LiteInv cfg := by
  induction hs with
  | initial psqlHead interrupted h => exact liteInv_initial cfg h psqlHead interrupted
  | step hs ht hc hstep ih =>
    obtain ⟨s'', hok, hinv⟩ := ih.step hlite ht hc (not_refused_of_ok hstep)
    rw [hok] at hstep
    exact Except.ok.inj hstep ▸ hinv
  | restart psqlHead interrupted hs hstop ih =>
    obtain ⟨segs, tail, h⟩ := ih
    exact ⟨segs, [], h.restart hstop psqlHead interrupted⟩

/-- In every state of such a run the tables are the rows of a front of the chain without gaps, and
the flush after a block in the live state leaves no announced block out. -/
theorem lite_mode_tables_complete (hlite : cfg.liteMode = true) (hs : s.LiteReachable cfg) :
    (∃ front tail, s.chain = front ++ tail ∧ s.hafdTables = rowsOf front ∧ Ascending s.chain ∧
      (∀ b ∈ front, b.num ≤ s.lib) ∧
      ∀ b ∈ s.chain, ∀ y ∈ front, ∀ n, b.num ≤ n → n ≤ y.num → ∃ x ∈ front, x.num = n) ∧
    (∀ t, s.Legal t → s.Careful cfg t → ¬ s.Refused cfg t → ∃ s', s.step cfg t = .ok s') ∧
    ∀ b canLive s', s.Legal (.applyBlock b canLive) →
      s.step cfg (.applyBlock b canLive) = .ok s' → s'.state = .live →
      ∀ n, s'.irreversibleBlockNum = some n → ∀ x ∈ s'.chain, x.num ≤ n →
        ∀ kind, ∀ r ∈ rowsOf [x] kind, r ∈ s'.hafdTables kind := by
  obtain ⟨segs, tail, h⟩ := hs.inv hlite
  refine ⟨⟨segs.flatten, tail, h.chain, h.hafdTables, h.ascending, h.dumped_le, ?_⟩, ?_, ?_⟩
  · intro b hb y hy n hbn hny
    have hymem : y ∈ s.chain := h.chain ▸ List.mem_append_left tail hy
    obtain ⟨x, hx, rfl⟩ := h.gapFree b hb n hbn (hny.trans (h.below y hymem))
    have hasc := h.ascending
    rw [h.chain] at hx hasc
    rcases List.mem_append.1 hx with hx | hx
    · exact ⟨x, hx, rfl⟩
    · have := (List.pairwise_append.1 hasc).2.2 y hy x hx
      omega
  · intro t ht hc hr
    obtain ⟨s', hok, -⟩ := (hs.inv hlite).step hlite ht hc hr
    exact ⟨s', hok⟩
  · intro b canLive s' ht hok hlive n hn x hx hxn kind r hrow
    obtain ⟨s'', segs', tail', hok', hal, hlate⟩ :=
      h.applyBlock hlite ht.1 ht.2 (not_refused_of_ok hok)
    obtain rfl := Except.ok.inj (hok'.symm.trans hok)
    rw [hal.hafdTables]
    rw [hal.chain] at hx
    rcases List.mem_append.1 hx with hx | hx
    · obtain ⟨xs, ys, hxs⟩ := List.append_of_mem hx
      rw [hxs, rowsOf_append]
      exact List.mem_append_right _ (List.mem_append_left _ (by simpa [rowsOf] using hrow))
    · have := hlate hlive x hx n hn
      omega

/-- Two live blocks, the first of them irreversible at the shutdown, and a restart after which the
second block comes again. -/
theorem lite_restart_tables_complete : ∃ s : Indexation ℕ, s.LiteReachable ⟨true, 1⟩ ∧
    s.chain.map AppliedBlock.num = [1, 2, 3] ∧
    (s.hafdTables .blocks).map CachedRow.blockNumber = [1, 2] ∧
    ∃ front tail, s.chain = front ++ tail ∧ s.hafdTables = rowsOf front := by
  have hs := LiteReachable.step (t := .applyBlock (sampleBlock 3 4) true)
    (.step (t := .irreversible 2) (.step (t := .applyBlock (sampleBlock 2 3) true)
      (.restart 1 false (.step (t := .shutdown) (.step (t := .irreversible 1)
        (.step (t := .applyBlock (sampleBlock 2 2) true)
          (.step (t := .applyBlock (sampleBlock 1 1) true)
            (.initial 0 false (le_refl 0) : LiteReachable ⟨true, 1⟩ _)
            ⟨rfl, rfl⟩ trivial rfl) ⟨rfl, rfl⟩ trivial rfl)
        ⟨rfl, by decide, by decide⟩ trivial rfl) rfl (by decide : 1 ≤ 1) rfl) rfl)
      ⟨rfl, rfl⟩ trivial rfl) ⟨rfl, by decide, by decide⟩ trivial rfl) ⟨rfl, rfl⟩ trivial rfl
  obtain ⟨front, tail, hchain, htables, -⟩ := (lite_mode_tables_complete rfl hs).1
  exact ⟨_, hs, rfl, rfl, front, tail, hchain, htables⟩

/-- Blocks 2 and 3, reversible when the live state is entered, never reach the tables; two announced
blocks left in the caches fail the shutdown; and a shutdown of a P2P sync dumps reversible blocks,
which come again after the restart. -/
theorem lite_mode_loses_blocks :
    (∃ s : Indexation ℕ, s.Reachable ⟨true, 1⟩ ∧ s.state = .live ∧
      s.irreversibleBlockNum = some 4 ∧ s.chain.map AppliedBlock.num = [1, 2, 3, 4, 5] ∧
      (s.hafdTables .blocks).map CachedRow.blockNumber = [1, 4]) ∧
    (∃ s : Indexation ℕ, s.Reachable ⟨true, 1⟩ ∧ s.Legal .shutdown ∧
      s.step ⟨true, 1⟩ .shutdown = .error "LIVE sync can only process one block") ∧
    ∃ s s' : Indexation ℕ, s.Reachable ⟨true, 1⟩ ∧ s.step ⟨true, 1⟩ .shutdown = .ok s' ∧
      (s'.hafdTables .blocks).map CachedRow.blockNumber = [1, 2] ∧
      (s'.restart 2 false).head = 0 := by
  have h₁ := Reachable.step (t := .applyBlock (sampleBlock 1 1) false)
    (.initial 0 false (le_refl 0) : Reachable ⟨true, 1⟩ _) ⟨rfl, rfl⟩ rfl
  have h₂ := h₁.step (t := .applyBlock (sampleBlock 2 2) false) ⟨rfl, rfl⟩ rfl
  have hgap := Reachable.step (t := .applyBlock (sampleBlock 5 5) false)
    (.step (t := .irreversible 4) (.step (t := .applyBlock (sampleBlock 4 4) false)
      (.step (t := .endOfSyncing) (.step (t := .irreversible 1)
        (h₂.step (t := .applyBlock (sampleBlock 3 3) false) ⟨rfl, rfl⟩ rfl)
        ⟨rfl, by decide, by decide⟩ rfl) rfl rfl) ⟨rfl, rfl⟩ rfl)
      ⟨rfl, by decide, by decide⟩ rfl) ⟨rfl, rfl⟩ rfl
  have hlive := Reachable.step (t := .irreversible 2)
    (.step (t := .applyBlock (sampleBlock 2 2) true)
      (.step (t := .applyBlock (sampleBlock 1 1) true)
        (.initial 0 false (le_refl 0) : Reachable ⟨true, 1⟩ _) ⟨rfl, rfl⟩ rfl) ⟨rfl, rfl⟩ rfl)
    ⟨rfl, by decide, by decide⟩ rfl
  exact ⟨⟨_, hgap, rfl, rfl, rfl, rfl⟩, ⟨_, hlive, rfl, rfl⟩, _, _, h₂, rfl, rfl, rfl⟩

end Indexation

end HiveForkManager
