import HiveForkManager.IndexationRuns

namespace HiveForkManager

namespace Indexation

variable {β : Type} {cfg : IndexationConfig} {s : Indexation β}
  {segs : List (List (AppliedBlock β))} {tail front back : List (AppliedBlock β)}

theorem Aligned.tail_ascending (h : s.Aligned cfg segs tail) : Ascending tail :=
  (List.pairwise_append.1 (h.chain ▸ h.ascending)).2.1

variable {b : AppliedBlock β} {n : ℕ} {t : IndexationStep β}

theorem Aligned.tail_below (h : s.Aligned cfg segs tail) (hb : b ∈ tail) :
    b.num ≤ s.head :=
  h.below b (h.chain ▸ List.mem_append_right _ hb)

theorem Aligned.lib_le_settledBlock (h : s.Aligned cfg segs tail) : s.lib ≤ s.settledBlock := by
  have := h.lib_le
  unfold settledBlock
  split <;> omega

theorem Aligned.massive (h : s.Aligned cfg segs (front ++ back))
    (hfront : ∀ b ∈ front, b.num ≤ s.settledBlock) (n : ℕ) :
    ∃ segs', Aligned cfg
      { s with cache := rowsOf back, dumped := s.dumped ++ massiveBatch front n } segs' back := by
  obtain ⟨segs', hcov, heq⟩ := covers_massiveBatch h.covers hfront n
  exact ⟨segs',
    { chain := by rw [heq, List.append_assoc]; exact h.chain
      cache := rfl
      covers := hcov
      ascending := h.ascending
      below := h.below
      lib_le := h.lib_le
      irr_le := h.irr_le
      reindex := h.reindex
      waiting := fun hw ↦ (List.append_eq_nil_iff.1 (h.waiting hw)).2
      settled := fun hs b hb ↦ by
        rw [heq] at hb
        exact (List.mem_append.1 hb).elim (h.settled hs b) (hfront b)
      live := fun hl hf ↦ (List.append_eq_nil_iff.1 (h.live hl hf)).2 }⟩

theorem Aligned.split_irreversible (h : s.Aligned cfg segs tail) :
    ∃ front back, tail = front ++ back ∧ (∀ b ∈ front, b.num ≤ s.lib) ∧
      moveIrreversibleBlocks s.irreversibleBlockNum s.cache = (rowsOf front, rowsOf back) := by
  obtain ⟨front, back, heq, hfront, -, hmove⟩ :=
    h.tail_ascending.split_irreversible h.cache s.irreversibleBlockNum
  refine ⟨front, back, heq, fun b hb ↦ ?_, hmove⟩
  obtain ⟨n, hn, hle⟩ := hfront b hb
  exact hle.trans (h.irr_le n hn)

theorem flushMoved_nil (back : List (AppliedBlock β)) (n : ℕ) :
    flushMoved (rowsOf [], rowsOf back) n s = .ok { s with cache := rowsOf back } := rfl

theorem Aligned.flushIrreversibleBlocks (h : s.Aligned cfg segs tail) (hs : s.state ≠ .live) :
    ∃ c d segs' tail', s.flushIrreversibleBlocks = .ok { s with cache := c, dumped := d } ∧
      Aligned cfg { s with cache := c, dumped := d } segs' tail' := by
  obtain ⟨front, back, rfl, hfront, hmove⟩ := h.split_irreversible
  have hbound : ∀ b ∈ front, b.num ≤ s.settledBlock := fun b hb ↦
    (hfront b hb).trans h.lib_le_settledBlock
  obtain ⟨segs', hal⟩ := h.massive hbound (s.irreversibleBlockNum.getD 2147483647)
  refine ⟨_, _, segs', back, ?_, hal⟩
  rw [Indexation.flushIrreversibleBlocks, hmove]
  by_cases hw : s.state.collectBlocks = false
  · obtain ⟨rfl, rfl⟩ := List.append_eq_nil_iff.1 (h.waiting hw)
    rw [flushMoved_nil]
    simp [massiveBatch]
  · exact flushMoved_massive (IndexationState.massive_of_collectBlocks hs hw) front back _

theorem flushSingleBlocks_all (h : s.cache = rowsOf tail) (hs : s.state = .live)
    (hasc : Ascending tail) :
    s.flushSingleBlocks (fun _ ↦ true) =
      .ok { s with cache := rowsOf [], dumped := s.dumped ++ tail.map liveBatch } := by
  refine flushOneByOne_eq (fun _ _ ↦ rfl) (by simp) ?_ hs (by simpa using hasc) (by simpa using h)
  rw [h, length_rowsOf_blocks]

theorem Aligned.live_entry (h : s.Aligned cfg segs tail) (hfull : cfg.liteMode = false) :
    Inv cfg { s with
      state := .live, cache := rowsOf [], dumped := s.dumped ++ tail.map liveBatch } := by
  obtain ⟨segs', hcov, heq⟩ := covers_liveBatch h.covers tail
  exact ⟨segs', [],
    { chain := by rw [heq, List.append_nil]; exact h.chain
      cache := rfl
      covers := hcov
      ascending := h.ascending
      below := h.below
      lib_le := h.lib_le
      irr_le := h.irr_le
      reindex := fun hr ↦ by cases hr
      waiting := fun _ ↦ rfl
      settled := fun hor ↦ by simp [hfull] at hor
      live := fun _ _ ↦ rfl }⟩

theorem Aligned.flushBeforeLive (h : s.Aligned cfg segs tail) (hs : s.state ≠ .live) :
    ∃ c d segs' tail', s.flushBeforeLive = .ok { s with cache := c, dumped := d } ∧
      Aligned cfg { s with cache := c, dumped := d } segs' tail' := by
  unfold Indexation.flushBeforeLive
  split
  · exact ⟨s.cache, s.dumped, segs, tail, rfl, h⟩
  · exact h.flushIrreversibleBlocks hs

theorem Aligned.enterLive (h : s.Aligned cfg segs tail) (hfull : cfg.liteMode = false)
    (hs : s.state ≠ .live) (n : ℕ) :
    ∃ d, s.updateState cfg .live n =
        .ok { s with state := .live, cache := rowsOf [], dumped := d } ∧
      Inv cfg { s with state := .live, cache := rowsOf [], dumped := d } := by
  obtain ⟨c, d, segs', tail', hok, hal⟩ := h.flushBeforeLive hs
  refine ⟨_, ?_, hal.live_entry hfull⟩
  rw [updateState, if_neg hs, if_neg (by simp)]
  simp only [hok, bind, Except.bind, startLive, hfull, Bool.false_eq_true, if_false]
  exact flushSingleBlocks_all hal.cache rfl hal.tail_ascending

theorem Aligned.withState (h : s.Aligned cfg segs []) (hs : s.state ≠ .live)
    (target : IndexationState) (hr : target = .reindex → s.head ≤ s.lib) :
    Aligned cfg { s with state := target } segs [] :=
  { chain := h.chain
    cache := h.cache
    covers := h.covers
    ascending := h.ascending
    below := h.below
    lib_le := h.lib_le
    irr_le := h.irr_le
    reindex := hr
    waiting := fun _ ↦ rfl
    settled := fun _ ↦ h.settled (Or.inl hs)
    live := fun _ _ ↦ rfl }

/-- `update_state( P2P )` refuses to go on after an interrupted massive sync. -/
def Refuses (s : Indexation β) (n : ℕ) : Prop :=
  s.state ≠ .reindex ∧ s.priorMassiveSyncInterrupted = true ∧ n ≠ s.psqlHeadAtStartup + 1

theorem Aligned.tail_settled (h : s.Aligned cfg segs tail) (hs : s.state = .reindex)
    (hb : b ∈ tail) : b.num ≤ s.settledBlock :=
  (h.tail_below hb).trans ((h.reindex hs).trans h.lib_le_settledBlock)

theorem Aligned.flushCache (h : s.Aligned cfg segs tail)
    (hs : tail = [] ∨ (s.state = .reindex ∨ s.state = .p2p) ∧ ∀ b ∈ tail, b.num ≤ s.settledBlock)
    (n : ℕ) :
    ∃ d segs', s.flushCache n = .ok { s with cache := rowsOf [], dumped := d } ∧
      Aligned cfg { s with cache := rowsOf [], dumped := d } segs' [] := by
  rcases hs with rfl | ⟨hs, htail⟩
  · refine ⟨s.dumped, segs, ?_, ?_⟩
    · rw [flushCache_nil h.cache, ← h.cache]
    · rw [← h.cache]
      exact h
  · rw [← List.append_nil tail] at h
    obtain ⟨segs', hal⟩ := h.massive htail n
    rw [List.append_nil] at h
    exact ⟨_, segs', flushCache_massive hs h.cache n, hal⟩

theorem Aligned.enterP2P (h : s.Aligned cfg segs tail) (hs : s.state ≠ .live)
    (htail : tail = [] ∨ s.state = .reindex) (hr : ¬ s.Refuses n) :
    ∃ s' segs', s.updateState cfg .p2p n = .ok s' ∧ s'.Aligned cfg segs' [] ∧
      s'.head = s.head ∧ s'.chain = s.chain ∧ s'.stopped = s.stopped ∧ s'.state = .p2p := by
  obtain ⟨d, segs', hok, hal⟩ := h.flushCache
    (htail.imp_right fun hre ↦ ⟨Or.inl hre, fun _ ↦ h.tail_settled hre⟩) n
  refine ⟨{ s with
    state := .p2p, cache := rowsOf [], irreversibleBlockNum := none, lastFlushedBlockNum := 0,
    dumped := d }, segs', ?_, ?_, rfl, rfl, rfl, rfl⟩
  · rw [updateState, if_neg hs, if_neg fun hc ↦ hr hc.2]
    simp only [hok, bind, Except.bind, pure, Except.pure]
  · have hp := hal.withState hs .p2p fun h ↦ by cases h
    exact ⟨hp.chain, hp.cache, hp.covers, hp.ascending, hp.below, hp.lib_le, by simp,
      by simp, hp.waiting, hp.settled, hp.live⟩

theorem settledBlock_of_running (h : s.stopped = false) : s.settledBlock = s.lib := by
  simp [settledBlock, h]

theorem Aligned.grow (h : s.Aligned cfg segs tail) (hstop : s.stopped = false) {head lib : ℕ}
    (hhead : s.head ≤ head) (hlib : s.lib ≤ lib) (hle : lib ≤ head)
    (hre : s.state = .reindex → head ≤ lib) :
    Aligned cfg { s with head := head, lib := lib } segs tail := by
  have hbound : s.settledBlock ≤ settledBlock { s with head := head, lib := lib } := by
    simpa [settledBlock, hstop] using hlib
  exact
    { chain := h.chain
      cache := h.cache
      covers := h.covers.imp fun _ _ ↦ Covers.mono hbound
      ascending := h.ascending
      below := fun b hb ↦ (h.below b hb).trans hhead
      lib_le := hle
      irr_le := fun n hn ↦ (h.irr_le n hn).trans hlib
      reindex := hre
      waiting := h.waiting
      settled := fun hs b hb ↦ (h.settled hs b hb).trans hbound
      live := h.live }

theorem Aligned.advanceHead (h : s.Aligned cfg segs tail) (hstop : s.stopped = false)
    (hn : s.head ≤ n) : (s.advanceHead n).Aligned cfg segs tail := by
  have := h.lib_le
  refine h.grow hstop hn ?_ ?_ fun hre ↦ ?_
  · split <;> omega
  · split <;> omega
  · rw [if_pos hre]

/-- The state in which a block is collected: hived is at the block, which is not collected yet. -/
structure Prepared (cfg : IndexationConfig) (s s' : Indexation β) (n : ℕ) : Prop where
  inv : (s'.advanceHead n).Inv cfg
  chain : s'.chain = s.chain
  stopped : s'.stopped = s.stopped

theorem updateWithEmptyCache_eq (h : s.cache = rowsOf []) {target : IndexationState}
    {s' : Indexation β} (hok : s.updateState cfg target n = .ok s')
    (hs' : s'.cache = rowsOf []) : s.updateWithEmptyCache cfg target n = .ok s' := by
  have hsame : { s with cache := fun _ ↦ [] } = s := by rw [← rowsOf_nil, ← h]
  have hsame' : { s' with cache := s.cache } = s' := by rw [h, ← hs']
  simp only [updateWithEmptyCache, hsame, hok, bind, Except.bind, pure, Except.pure, hsame']

theorem Aligned.onFirstBlock (h : s.Aligned cfg segs tail) (hfull : cfg.liteMode = false)
    (hstop : s.stopped = false) (canLive : Bool) (hn : s.head ≤ n)
    (hr : canLive = false → s.state = .start ∨ s.state = .wait → ¬ s.Refuses n) :
    ∃ s', s.onFirstBlock cfg canLive n = .ok s' ∧ Prepared cfg s s' n := by
  have hstart : s.state = .start ∨ s.state = .wait →
      ∃ s', s.updateWithEmptyCache cfg (if canLive then .live else .p2p) n = .ok s' ∧
        Prepared cfg s s' n := fun hst ↦ by
    have hs : s.state ≠ .live := by rcases hst with hst | hst <;> simp [hst]
    obtain rfl := h.waiting
      (by rcases hst with hst | hst <;> simp [hst, IndexationState.collectBlocks])
    cases canLive with
    | true =>
      obtain ⟨d, hok, segs', tail', hal⟩ := h.enterLive hfull hs n
      exact ⟨_, updateWithEmptyCache_eq h.cache hok rfl,
        ⟨segs', tail', hal.advanceHead hstop hn⟩, rfl, rfl⟩
    | false =>
      obtain ⟨s', segs', hok, hal, hhead, hchain, hstopped, -⟩ :=
        h.enterP2P hs (Or.inl rfl) (hr rfl hst)
      exact ⟨s', updateWithEmptyCache_eq h.cache hok hal.cache,
        ⟨segs', [], hal.advanceHead (hstopped.trans hstop) (hhead ▸ hn)⟩, hchain, hstopped⟩
  unfold Indexation.onFirstBlock
  cases hst : s.state with
  | start => exact hstart (Or.inl hst)
  | wait => exact hstart (Or.inr hst)
  | reindexWait =>
    obtain rfl := h.waiting (by simp [hst, IndexationState.collectBlocks])
    refine ⟨{ s with state := .reindex }, updateWithEmptyCache_eq h.cache ?_ h.cache, ?_, rfl, rfl⟩
    · simp [updateState, hst, flushCache_nil h.cache, bind, Except.bind, pure, Except.pure]
    · have hlib := h.lib_le
      have hg := h.grow hstop hn (hlib.trans hn) le_rfl fun _ ↦ le_rfl
      exact ⟨segs, [], hg.withState (by simp [hst]) .reindex fun _ ↦ le_rfl⟩
  | reindex | p2p | live => exact ⟨s, rfl, ⟨segs, tail, h.advanceHead hstop hn⟩, rfl, rfl⟩

theorem Aligned.onBlock (h : s.Aligned cfg segs tail) (hfull : cfg.liteMode = false)
    (hstop : s.stopped = false) (canLive : Bool) (hn : s.head ≤ n)
    (hr : canLive = false → cfg.psqlFirstBlock ≤ n → s.state = .start ∨ s.state = .wait →
      ¬ s.Refuses n) :
    ∃ s', s.onBlock cfg canLive n = .ok s' ∧ Prepared cfg s s' n := by
  have hleave : ∃ st, s.leaveStart cfg n = .ok { s with state := st } ∧
      Aligned cfg { s with state := st } segs tail ∧
      (st = .start ∨ st = .wait → s.state = .start ∨ s.state = .wait) := by
    unfold leaveStart
    split
    case isTrue hst =>
      obtain rfl := h.waiting (by simp [hst, IndexationState.collectBlocks])
      exact ⟨.wait, by simp [updateState, hst], h.withState (by simp [hst]) .wait (by simp),
        fun _ ↦ Or.inl hst⟩
    case isFalse => exact ⟨s.state, rfl, h, id⟩
  obtain ⟨st, hok, hal, hst⟩ := hleave
  simp only [Indexation.onBlock, hok, bind, Except.bind]
  split
  case isTrue hfirst =>
    obtain ⟨s', hok', hinv, hchain, hstopped⟩ := hal.onFirstBlock hfull hstop canLive hn
      fun hc hw href ↦ hr hc hfirst (hst hw)
        ⟨fun hre ↦ by have := hst hw; simp [hre] at this, href.2⟩
    exact ⟨s', hok', hinv, hchain, hstopped⟩
  case isFalse => exact ⟨_, rfl, ⟨segs, tail, hal.advanceHead hstop hn⟩, rfl, rfl⟩

theorem Aligned.ascending_collect (h : s.Aligned cfg segs tail)
    (hnew : ∀ b' ∈ s.chain, b'.num < b.num) : Ascending (s.collect b).chain :=
  List.pairwise_append.2 ⟨h.ascending, List.pairwise_singleton _ _,
    fun b' hb' _ hx ↦ List.mem_singleton.1 hx ▸ hnew b' hb'⟩

theorem Aligned.below_collect (h : s.Aligned cfg segs tail)
    (hb : b.num ≤ s.head) : ∀ b' ∈ (s.collect b).chain, b'.num ≤ s.head := fun b' hb' ↦
  (List.mem_append.1 hb').elim (h.below b') fun hx ↦ List.mem_singleton.1 hx ▸ hb

theorem Aligned.collect (h : s.Aligned cfg segs tail) (hs : s.state = .reindex ∨ s.state = .p2p)
    (hb : b.num ≤ s.head) (hnew : ∀ b' ∈ s.chain, b'.num < b.num) :
    (s.collect b).Aligned cfg segs (tail ++ [b]) :=
  { chain := by simp only [Indexation.collect, h.chain, List.append_assoc]
    cache := funext fun kind ↦ by simp only [Indexation.collect, h.cache, rowsOf_append]
    covers := h.covers
    ascending := h.ascending_collect hnew
    below := h.below_collect hb
    lib_le := h.lib_le
    irr_le := h.irr_le
    reindex := h.reindex
    waiting := fun hw ↦ by
      have hw' : s.state.collectBlocks = false := hw
      rcases hs with hs | hs <;> simp [hs, IndexationState.collectBlocks] at hw'
    settled := h.settled
    live := fun hl ↦ by
      have hl' : s.state = .live := hl
      rcases hs with hs | hs <;> simp [hs] at hl' }

theorem Aligned.trigger_massive (h : s.Aligned cfg segs tail)
    (hs : s.state = .reindex ∨ s.state = .p2p) (n : ℕ) :
    ∃ s', s.triggerDataFlush cfg n = .ok s' ∧ s'.Inv cfg := by
  rcases hs with hs | hs
  · simp only [triggerDataFlush, hs]
    split
    · obtain ⟨d, segs', hok, hal⟩ :=
        h.flushCache (Or.inr ⟨Or.inl hs, fun _ ↦ h.tail_settled hs⟩) n
      exact ⟨_, hok, segs', [], hal⟩
    · exact ⟨s, rfl, segs, tail, h⟩
  · simp only [triggerDataFlush, hs]
    cases hirr : s.irreversibleBlockNum with
    | none => exact ⟨s, rfl, segs, tail, h⟩
    | some m =>
      dsimp only
      split
      · exact ⟨s, rfl, segs, tail, h⟩
      · obtain ⟨front, back, rfl, hfront, hmove⟩ := h.split_irreversible
        obtain ⟨segs', hal⟩ := h.massive
          (fun b hb ↦ (hfront b hb).trans h.lib_le_settledBlock) m
        rw [hirr] at hmove
        simp only [hmove, flushMoved_massive (Or.inr hs), bind, Except.bind, pure, Except.pure]
        exact ⟨_, rfl, segs', back, { hal with }⟩

theorem flushCache_live (hs : s.state = .live) (hcache : s.cache = rowsOf [b]) :
    s.flushCache b.num =
      .ok { s with cache := rowsOf [], dumped := s.dumped ++ [liveBatch b] } := by
  have hlen := length_rowsOf_blocks [b]
  simp only [Indexation.flushCache, forceTriggerFlush, hcache, isEmpty_rowsOf_blocks, hs, hlen]
  rfl

theorem Aligned.onPostApplyBlock (h : s.Aligned cfg segs tail) (hfull : cfg.liteMode = false)
    (hb : b.num ≤ s.head) (hnew : ∀ b' ∈ s.chain, b'.num < b.num) :
    ∃ s', s.onPostApplyBlock cfg b = .ok s' ∧ s'.Inv cfg := by
  unfold Indexation.onPostApplyBlock
  cases hst : s.state with
  | start | wait | reindexWait => exact ⟨s, rfl, segs, tail, h⟩
  | reindex => exact (h.collect (Or.inl hst) hb hnew).trigger_massive (Or.inl hst) b.num
  | p2p => exact (h.collect (Or.inr hst) hb hnew).trigger_massive (Or.inr hst) b.num
  | live =>
    obtain rfl := h.live hst hfull
    obtain ⟨segs', hcov, heq⟩ := covers_liveBatch h.covers [b]
    have hcache : (s.collect b).cache = rowsOf [b] :=
      funext fun kind ↦ by simp only [Indexation.collect, h.cache, rowsOf_nil, List.nil_append]
    have hlive : (s.collect b).state = .live := hst
    refine ⟨{ s.collect b with cache := rowsOf [], dumped := s.dumped ++ [liveBatch b] }, ?_,
      segs', [], ?_⟩
    · have htrigger : triggerDataFlush cfg b.num (s.collect b) =
          Indexation.flushCache b.num (s.collect b) := by
        simp only [triggerDataFlush, hlive, hfull, Bool.false_eq_true, if_false]
      exact (if_pos rfl).trans (htrigger.trans (flushCache_live hlive hcache))
    exact
      { chain := by simp only [Indexation.collect, heq, List.append_nil, h.chain]
        cache := rfl
        covers := hcov
        ascending := h.ascending_collect hnew
        below := h.below_collect hb
        lib_le := h.lib_le
        irr_le := h.irr_le
        reindex := h.reindex
        waiting := fun _ ↦ rfl
        settled := fun hor ↦ by simp [hlive, hfull] at hor
        live := fun _ _ ↦ rfl }

theorem Aligned.stop (h : s.Aligned cfg segs tail) :
    Aligned cfg { s with stopped := true } segs tail := by
  have hbound : s.settledBlock ≤ s.head := by
    have := h.lib_le
    unfold settledBlock
    split <;> omega
  exact ⟨h.chain, h.cache, h.covers.imp fun _ _ ↦ Covers.mono hbound, h.ascending, h.below,
    h.lib_le, h.irr_le, h.reindex, h.waiting, fun hs b hb ↦ (h.settled hs b hb).trans hbound,
    h.live⟩

theorem Aligned.flushCache_stop (h : s.Aligned cfg segs tail) (hs : s.state ≠ .live) (n : ℕ) :
    ∃ d, s.flushCache n = .ok { s with cache := rowsOf [], dumped := d } ∧
      Inv cfg { s with cache := rowsOf [], dumped := d, stopped := true } := by
  by_cases hw : s.state.collectBlocks = false
  · obtain rfl := h.waiting hw
    refine ⟨s.dumped, ?_, segs, [], ?_⟩ <;> rw [← h.cache]
    · exact flushCache_nil h.cache n
    · exact h.stop
  · have hmassive := IndexationState.massive_of_collectBlocks hs hw
    have hstop := h.stop
    rw [← List.append_nil tail] at hstop
    obtain ⟨segs', hal⟩ := hstop.massive (fun b hb ↦ h.tail_below hb) n
    exact ⟨_, flushCache_massive hmassive h.cache n, segs', [], hal⟩

theorem Aligned.switchFork (h : s.Aligned cfg segs tail) (hfull : cfg.liteMode = false)
    (hstop : s.stopped = false) {k : ℕ} (hlib : s.lib ≤ k) (hk : k ≤ s.head) :
    ∃ s', s.step cfg (.switchFork k) = .ok s' ∧ s'.Inv cfg := by
  suffices hdata : ∃ segs' tail',
      segs'.flatten ++ tail' = s.chain.filter (fun b ↦ decide (b.num ≤ k)) ∧
      (s.onSwitchFork cfg k).cache = rowsOf tail' ∧
      List.Forall₂ (Covers s.lib) (s.onSwitchFork cfg k).dumped segs' ∧
      (s.state.collectBlocks = false → tail' = []) ∧ (s.state = .live → tail' = []) ∧
      (s.state ≠ .live → ∀ b ∈ segs'.flatten, b.num ≤ s.lib) by
    obtain ⟨segs', tail', hchain, hcache, hcov, hwait, hlive, hsettled⟩ := hdata
    obtain ⟨c, d, hsame⟩ : ∃ c d, s.onSwitchFork cfg k = { s with cache := c, dumped := d } :=
      ⟨_, _, rfl⟩
    rw [hsame] at hcache hcov
    refine ⟨_, rfl, segs', tail', ?_⟩
    rw [hsame]
    have hbound : settledBlock { s with
        cache := c, dumped := d, head := k, chain := s.chain.filter fun b ↦ decide (b.num ≤ k) } =
        s.lib := settledBlock_of_running hstop
    exact
      { chain := hchain.symm
        cache := hcache
        covers := by rw [hbound]; exact hcov
        ascending := List.Pairwise.filter _ h.ascending
        below := fun b hb ↦ of_decide_eq_true (List.mem_filter.1 hb).2
        lib_le := hlib
        irr_le := h.irr_le
        reindex := fun hre ↦ hk.trans (h.reindex hre)
        waiting := hwait
        settled := fun hs b hb ↦ by
          rw [hbound]
          exact hsettled (hs.resolve_right (by simp [hfull])) b hb
        live := fun hl _ ↦ hlive hl }
  have hcov := h.covers
  rw [settledBlock_of_running hstop] at hcov
  by_cases hst : s.state = .live
  · obtain rfl := h.live hst hfull
    obtain ⟨segs', hcov', heq⟩ := covers_filter hlib hcov
    refine ⟨segs', [], ?_, ?_, ?_, fun _ ↦ rfl, fun _ ↦ rfl, fun hn ↦ absurd hst hn⟩
    · rw [heq, h.chain, List.append_nil, List.append_nil]
    · simpa [onSwitchFork, hst, hfull] using h.cache
    · simpa [onSwitchFork, hst, hfull] using hcov'
  · have hsettled : ∀ b ∈ segs.flatten, b.num ≤ s.lib := fun b hb ↦
      settledBlock_of_running hstop ▸ h.settled (Or.inl hst) b hb
    have hkeep : segs.flatten.filter (fun b ↦ decide (b.num ≤ k)) = segs.flatten :=
      List.filter_eq_self.2 fun b hb ↦ decide_eq_true ((hsettled b hb).trans hlib)
    obtain ⟨front, back, rfl, hfront, hback⟩ := h.tail_ascending.splitAt k
    refine ⟨segs, front, ?_, ?_, ?_, fun hw ↦ (List.append_eq_nil_iff.1 (h.waiting hw)).1,
      fun hl ↦ absurd hl hst, fun _ ↦ hsettled⟩
    · rw [h.chain, List.filter_append, hkeep, filter_num_le hfront hback]
    · by_cases hp : s.state = .p2p
      · simpa [onSwitchFork, hp, h.cache] using eraseItemsGreaterThanBlock_rowsOf hfront hback
      · -- Elsewhere no cached block is above the fork.
        have hnil : back = [] := by
          by_cases hw : s.state.collectBlocks = false
          · exact (List.append_eq_nil_iff.1 (h.waiting hw)).2
          · have hre := (IndexationState.massive_of_collectBlocks hst hw).resolve_right hp
            refine List.eq_nil_iff_forall_not_mem.2 fun b hb ↦ ?_
            have := h.tail_below (List.mem_append_right front hb)
            have := h.reindex hre
            have := hback b hb
            omega
        subst hnil
        simpa [onSwitchFork, hp, hst] using h.cache
    · simpa [onSwitchFork, hst] using hcov

/-- The one notification that is not served: the first block after an interrupted massive sync,
when it does not follow the dumped head. -/
def Refused (cfg : IndexationConfig) (s : Indexation β) : IndexationStep β → Prop
  | .applyBlock b canMoveToLivesync => canMoveToLivesync = false ∧ cfg.psqlFirstBlock ≤ b.num ∧
      (s.state = .start ∨ s.state = .wait) ∧ s.Refuses b.num
  | _ => False

theorem Refused.step_eq (h : s.Refused cfg t) :
    ∃ e, s.step cfg t = .error e := by
  cases t with
  | applyBlock b canLive =>
    obtain ⟨rfl, hfirst, hst, -, hint, hne⟩ := h
    rcases hst with hst | hst <;>
      simp [step, onBlock, leaveStart, updateState, hst, hfirst, onFirstBlock,
        updateWithEmptyCache, hint, hne, bind, Except.bind]
  | _ => exact h.elim

theorem not_refused_of_ok {s' : Indexation β}
    (hok : s.step cfg t = .ok s') : ¬ s.Refused cfg t := fun hr ↦ by
  obtain ⟨e, he⟩ := hr.step_eq
  rw [he] at hok
  cases hok

theorem Inv.step (hinv : s.Inv cfg) (hfull : cfg.liteMode = false)
    (ht : s.Legal t) (hr : ¬ s.Refused cfg t) : ∃ s', s.step cfg t = .ok s' ∧ s'.Inv cfg := by
  obtain ⟨segs, tail, h⟩ := hinv
  cases t with
  | preReindex canLive =>
    obtain ⟨-, hst⟩ := ht
    obtain rfl := h.waiting (by simp [hst, IndexationState.collectBlocks])
    cases canLive with
    | true => exact ⟨_, by simp [Indexation.step, onPreReindex, updateState, hst], segs, [],
        h.withState (by simp [hst]) .wait (by simp)⟩
    | false => exact ⟨_, by simp [Indexation.step, onPreReindex, updateState, hst], segs, [],
        h.withState (by simp [hst]) .reindexWait (by simp)⟩
  | postReindex stopAt =>
    simp only [Indexation.step, onPostReindex]
    cases hst : s.state with
    | start | p2p | live | wait => exact ⟨s, rfl, segs, tail, h⟩
    | reindex =>
      dsimp only
      split
      · obtain ⟨d, hok, hstop⟩ := h.flushCache_stop (by simp [hst]) s.head
        exact ⟨_, by simp [hok, bind, Except.bind, pure, Except.pure], hstop⟩
      · obtain ⟨s', segs', hok, hal, -⟩ := h.enterP2P (n := s.head) (by simp [hst]) (Or.inr hst)
          fun hc ↦ hc.1 hst
        exact ⟨s', hok, segs', [], hal⟩
    | reindexWait =>
      obtain rfl := h.waiting (by simp [hst, IndexationState.collectBlocks])
      dsimp only
      split
      · obtain ⟨d, hok, hstop⟩ := h.flushCache_stop (by simp [hst]) s.head
        exact ⟨_, by simp [hok, bind, Except.bind, pure, Except.pure], hstop⟩
      · exact ⟨_, by simp [updateState, hst], segs, [],
          h.withState (by simp [hst]) .wait (by simp)⟩
  | applyBlock b canLive =>
    obtain ⟨hstop, hb⟩ := ht
    obtain ⟨s', hok, ⟨segs', tail', hal⟩, hchain, -⟩ := h.onBlock hfull hstop canLive
      (n := b.num) (by omega) fun hc hfirst hst hre ↦ hr ⟨hc, hfirst, hst, hre⟩
    obtain ⟨s'', hok', hinv⟩ := hal.onPostApplyBlock hfull le_rfl fun b' hb' ↦ by
      have hmem : b' ∈ s'.chain := hb'
      have := h.below b' (hchain ▸ hmem)
      omega
    exact ⟨s'', by simp only [Indexation.step, hok, bind, Except.bind, hok'], hinv⟩
  | irreversible n =>
    obtain ⟨hstop, hlib, hn⟩ := ht
    have hg := h.grow hstop le_rfl hlib hn fun hre ↦ (h.reindex hre).trans hlib
    exact ⟨_, rfl, segs, tail, { hg with irr_le := by simp }⟩
  | switchFork k => exact h.switchFork hfull ht.1 ht.2.1 ht.2.2
  | endOfSyncing =>
    simp only [Indexation.step, onEndOfSyncing]
    split
    · exact ⟨s, rfl, segs, tail, h⟩
    · obtain ⟨d, hok, hlive⟩ := h.enterLive hfull (by assumption) s.head
      exact ⟨_, hok, hlive⟩
  | shutdown =>
    simp only [Indexation.step, flushAllCachedData]
    split
    case isTrue hst =>
      obtain rfl := h.live hst hfull
      obtain ⟨front, back, heq, -, hmove⟩ := h.split_irreversible
      obtain ⟨rfl, rfl⟩ := List.append_eq_nil_iff.1 heq.symm
      have hsame : { s with cache := rowsOf [] } = s := by rw [← h.cache]
      refine ⟨{ s with stopped := true }, ?_, segs, [], h.stop⟩
      simp only [Indexation.flushIrreversibleBlocks, hmove, flushMoved_nil, hsame, bind,
        Except.bind, pure, Except.pure]
    case isFalse hst =>
      obtain ⟨d, hok, hstop⟩ := h.flushCache_stop hst s.head
      exact ⟨_, by simp [hok, bind, Except.bind, pure, Except.pure], hstop⟩

theorem Reachable.inv (hfull : cfg.liteMode = false) (hs : s.Reachable cfg) : s.Inv cfg := by
  induction hs with
  | initial psqlHead interrupted h => exact inv_initial cfg h psqlHead interrupted
  | @step s s' t hs ht hstep ih =>
    obtain ⟨s'', hok, hinv⟩ := ih.step hfull ht (not_refused_of_ok hstep)
    rw [hok] at hstep
    exact Except.ok.inj hstep ▸ hinv

theorem flatMap_data {bound : ℕ} {ds : List (DumpedBatch β)}
    (h : List.Forall₂ (Covers bound) ds segs) (kind : CacheKind) :
    (ds.flatMap fun d ↦ d.data kind) = rowsOf segs.flatten kind := by
  induction h with
  | nil => rfl
  | cons hd _ ih => rw [List.flatMap_cons, List.flatten_cons, rowsOf_append, hd.data, ih]

/-- In every state of a run in the full mode the caches are sorted, what was dumped followed by
what is cached is the rows of the chain, each batch has the rows of all kinds of the blocks it
covers, and every notification is served, but for the refusal to resume. -/
theorem full_mode_conserves_rows (hfull : cfg.liteMode = false) (hs : s.Reachable cfg) :
    (∀ kind, (s.cache kind).Pairwise fun r r' ↦ r.blockNumber ≤ r'.blockNumber) ∧
    (∀ kind, (s.dumped.flatMap fun d ↦ d.data kind) ++ s.cache kind = rowsOf s.chain kind) ∧
    (∃ segs tail, s.chain = segs.flatten ++ tail ∧ s.cache = rowsOf tail ∧
      List.Forall₂ (fun d seg ↦ d.data = rowsOf seg) s.dumped segs) ∧
    ∀ t, s.Legal t → ((∃ s', s.step cfg t = .ok s') ↔ ¬ s.Refused cfg t) := by
  obtain ⟨segs, tail, h⟩ := hs.inv hfull
  refine ⟨fun kind ↦ ?_, fun kind ↦ ?_, ⟨segs, tail, h.chain, h.cache, ?_⟩, fun t ht ↦ ?_⟩
  · rw [h.cache]
    exact sorted_rowsOf h.tail_ascending kind
  · rw [flatMap_data h.covers, h.cache, h.chain, rowsOf_append]
  · exact h.covers.imp fun _ _ hd ↦ hd.data
  · constructor
    · intro ⟨s', hok⟩
      exact not_refused_of_ok hok
    · intro hr
      obtain ⟨s', hok, -⟩ := (hs.inv hfull).step hfull ht hr
      exact ⟨s', hok⟩

def sampleBlock (n id : ℕ) : AppliedBlock ℕ :=
  ⟨n, fun | .blocks => [id] | .operations => [10 * id, 10 * id + 1] | _ => [], rfl⟩

/-- Three blocks of a P2P sync, the last of them replaced, and one live block. -/
theorem p2p_fork_live_conserves_rows : ∃ s : Indexation ℕ,
    s.Reachable ⟨false, 1⟩ ∧ s.dumped.map DumpedBatch.live = [false, true, true, true] ∧
      (s.dumped.flatMap fun d ↦ d.data .operations) ++ s.cache .operations =
        rowsOf s.chain .operations := by
  have hs := Reachable.step (t := .applyBlock (sampleBlock 4 5) false)
    (.step (t := .endOfSyncing) (.step (t := .applyBlock (sampleBlock 3 4) false)
      (.step (t := .switchFork 2) (.step (t := .irreversible 1)
        (.step (t := .applyBlock (sampleBlock 3 3) false)
          (.step (t := .applyBlock (sampleBlock 2 2) false)
            (.step (t := .applyBlock (sampleBlock 1 1) false)
              (.initial 0 false (le_refl 0) : Reachable ⟨false, 1⟩ _)
              ⟨rfl, rfl⟩ rfl) ⟨rfl, rfl⟩ rfl) ⟨rfl, rfl⟩ rfl) ⟨rfl, by decide, by decide⟩ rfl)
        ⟨rfl, by decide, by decide⟩ rfl) ⟨rfl, rfl⟩ rfl) rfl rfl) ⟨rfl, rfl⟩ rfl
  exact ⟨_, hs, rfl, (full_mode_conserves_rows rfl hs).2.1 .operations⟩

end Indexation

end HiveForkManager
