import HiveForkManager.Tracking

namespace HiveForkManager

open HistoryEntry

variable {ρ : Type} {h : Hafd} {history : List HistoryEntry} {lo : ℕ} {chain chain' : List BlockData}
  {stored : List (Reversible BlockData)} {c c' s : Context ρ} {limit : Option ℕ}
  {range : Option BlocksRange}

inductive Outcome (h : Hafd) (history : List HistoryEntry) (limit : Option ℕ) (s : Context ρ) :
    Context ρ → Option BlocksRange → Prop
  /-- The first reversible block is delivered. -/
  | firstReversible {i : ℕ} {a : HistoryEntry} (hon : onIrreversible h s)
      (hi : Sought h history s.eventsId i a) (hev : a.event.event = .newBlock)
      (hnum : a.height = s.currentBlockNum + 1) (hlimit : aboveLimit limit a.height = false) :
      Outcome h history limit s
        { s with currentBlockNum := a.height, eventsId := i, forkId := s.nextForkId h }
        (some ⟨a.height, a.height⟩)
  /-- A reversible block is refused; the context stays on irreversible blocks. -/
  | refused {i : ℕ} {a : HistoryEntry} (hon : onIrreversible h s)
      (hi : Sought h history s.eventsId i a) (hev : a.event.event = .newBlock)
      (hlimit : aboveLimit limit a.height = true) :
      Outcome h history limit s { s with eventsId := i, forkId := s.nextForkId h } (some .negative)
  /-- An irreversible block is delivered. -/
  | irreversible {i n : ℕ} {a : HistoryEntry} (hon : onIrreversible h s)
      (hi : Sought h history s.eventsId i a) (hn : n = leastLimit s.irreversibleBlock limit)
      (hlt : s.currentBlockNum < n) : Outcome h history limit s
        { s with
          currentBlockNum := s.currentBlockNum + 1, eventsId := i, forkId := s.nextForkId h }
        (some ⟨(s.currentBlockNum + 1 : ℕ), n⟩)
  /-- There is no irreversible block to deliver. -/
  | waiting {i : ℕ} {a : HistoryEntry} (hon : onIrreversible h s)
      (hi : Sought h history s.eventsId i a)
      (hev : a.event.event = .newBlock → s.currentBlockNum + 1 < a.height)
      (hle : leastLimit s.irreversibleBlock limit ≤ s.currentBlockNum) :
      Outcome h history limit s { s with eventsId := i, forkId := s.nextForkId h } (some .negative)
  /-- The following block is delivered. -/
  | nextReversible {a : HistoryEntry} (hoff : ¬ onIrreversible h s)
      (ha : history[s.eventsId + 1]? = some a) (hev : a.event.event = .newBlock)
      (hnum : a.height = s.currentBlockNum + 1) (hlimit : aboveLimit limit a.height = false) :
      Outcome h history limit s
        { s with currentBlockNum := a.height, eventsId := s.eventsId + 1 }
        (some ⟨a.height, a.height⟩)
  /-- The following block is refused, and its event is gone. -/
  | lost {a : HistoryEntry} (hoff : ¬ onIrreversible h s)
      (ha : history[s.eventsId + 1]? = some a) (hev : a.event.event = .newBlock)
      (hnum : a.height = s.currentBlockNum + 1) (hlimit : aboveLimit limit a.height = true)
      (hmem : a.event ∈ h.eventsQueue) :
      Outcome h history limit s { s with eventsId := s.eventsId + 1 } (some .negative)
  /-- The context goes back before a fork. -/
  | forked {a : HistoryEntry} (hoff : ¬ onIrreversible h s)
      (ha : history[s.eventsId + 1]? = some a) (hev : a.event.event = .backFromFork)
      (hle : a.height ≤ s.currentBlockNum) : Outcome h history limit s
        { s.backFromFork a.height with
          currentBlockNum := a.height, eventsId := s.eventsId + 1, forkId := a.forkId } none
  /-- An irreversible block is announced to a context above it. -/
  | announced {a : HistoryEntry} (hoff : ¬ onIrreversible h s)
      (ha : history[s.eventsId + 1]? = some a) (hev : a.event.event = .newIrreversible)
      (hcur : s.currentBlockNum = a.height) :
      Outcome h history limit s { s with eventsId := s.eventsId + 1 } (some .negative)
  /-- There is no event left. -/
  | idle (hoff : ¬ onIrreversible h s) (hlast : history[s.eventsId + 1]? = none)
      (hcur : s.currentBlockNum = heightAt history s.eventsId) :
      Outcome h history limit s s (some .negative)

theorem processIrreversibleRange_eq (storage : StorageInv h chain' stored) {current n : ℕ}
    (hn : n ≤ h.headOfBlocks) (c : Context ρ) :
    processIrreversibleRange h current n c =
      if current < n then ({ c with currentBlockNum := current + 1 }, some ⟨(current + 1 : ℕ), n⟩)
      else (c, some .negative) := by
  have hnums : h.irreversible.blocks.map Block.num = List.range' 1 h.headOfBlocks := by
    have hmap := (storage.consistent.numbered.take h.headOfBlocks).map_num
    rw [List.length_take_of_le storage.head_le_length] at hmap
    rw [storage.irreversible, IrreversibleTables.ofChain, List.map_map]
    exact hmap
  have hmem : ∀ {x}, x ∈ (h.irreversible.blocks.map Block.num).filter
      (fun x ↦ decide (current < x ∧ x ≤ n)) ↔ current < x ∧ x ≤ n := by
    intro x
    rw [hnums, List.mem_filter, decide_eq_true_eq, List.mem_range'_1]
    omega
  rw [processIrreversibleRange]
  split
  · rename_i first last hmin hmax
    rw [List.min?_eq_some_iff] at hmin
    rw [List.max?_eq_some_iff] at hmax
    have hfirst := hmem.mp hmin.1
    have hlast := hmem.mp hmax.1
    have h₁ := hmin.2 (current + 1) (hmem.mpr (by omega))
    have h₂ := hmax.2 n (hmem.mpr (by omega))
    obtain rfl : first = current + 1 := by omega
    obtain rfl : last = n := by omega
    rw [if_pos (by omega)]
  · rename_i hnone
    have hnot : ¬ current < n := by
      intro hlt
      have hpos : current + 1 ∈ (h.irreversible.blocks.map Block.num).filter
          (fun x ↦ decide (current < x ∧ x ≤ n)) := hmem.mpr (by omega)
      obtain ⟨first, hmin⟩ := Option.isSome_iff_exists.mp (List.isSome_min?_of_mem hpos)
      obtain ⟨last, hmax⟩ := Option.isSome_iff_exists.mp (List.isSome_max?_of_mem hpos)
      exact hnone first last hmin hmax
    rw [if_neg hnot]

section Process

variable {state : ContextState}

theorem appProcessEvent_of_irreversible
    (hev : ∀ e, state.nextEvent = some e → e.event.IsIrreversible) (c : Context ρ) :
    appProcessEvent h state limit c = .ok (processIrreversibleRange h state.currentBlockNum
      (leastLimit c.irreversibleBlock limit) c) := by
  rw [appProcessEvent]
  dsimp only
  split
  · rename_i he
    rcases hev _ he with htype | htype <;> cases htype
  · rename_i he
    rcases hev _ he with htype | htype <;> cases htype
  · rfl

theorem appProcessEvent_of_fork {e : Event} (he : state.nextEvent = some e)
    (hev : e.event = .backFromFork) {hf : Fork}
    (hfork : h.forks.find? (fun hf ↦ hf.id = e.blockNum) = some hf) (c : Context ρ) :
    appProcessEvent h state limit c = .ok ({ contextBackFromFork h hf.blockNum c with
      currentBlockNum := hf.blockNum, forkId := hf.id }, none) := by
  obtain ⟨id, type, num⟩ := e
  obtain rfl : type = .backFromFork := hev
  rw [appProcessEvent, he]
  dsimp only
  rw [hfork]

section NewBlock

variable {e : Event} (he : state.nextEvent = some e) (hev : e.event = .newBlock)
  (hlt : state.currentBlockNum < e.blockNum)

include he hev hlt

theorem appProcessEvent_of_aboveLimit (hlimit : aboveLimit limit e.blockNum = true) (c : Context ρ) :
    appProcessEvent h state limit c = .ok (c, some .negative) := by
  obtain ⟨id, type, num⟩ := e
  obtain rfl : type = .newBlock := hev
  rw [appProcessEvent, he]
  dsimp only
  rw [if_neg (not_not.mpr hlt), if_pos hlimit]

theorem appProcessEvent_of_succ (hlimit : aboveLimit limit e.blockNum = false)
    (hnum : e.blockNum = state.currentBlockNum + 1) (c : Context ρ) :
    appProcessEvent h state limit c =
      .ok ({ c with currentBlockNum := e.blockNum }, some ⟨e.blockNum, e.blockNum⟩) := by
  obtain ⟨id, type, num⟩ := e
  obtain rfl : type = .newBlock := hev
  rw [appProcessEvent, he]
  dsimp only
  rw [if_neg (not_not.mpr hlt), if_neg (Bool.eq_false_iff.mp hlimit), if_pos hnum]

theorem appProcessEvent_of_gap (hlimit : aboveLimit limit e.blockNum = false)
    (hnum : e.blockNum ≠ state.currentBlockNum + 1)
    (hirr : state.currentBlockNum ≤ state.irreversibleBlockNum) (c : Context ρ) :
    appProcessEvent h state limit c = .ok (processIrreversibleRange h state.currentBlockNum
      (leastLimit c.irreversibleBlock limit) c) := by
  obtain ⟨id, type, num⟩ := e
  obtain rfl : type = .newBlock := hev
  rw [appProcessEvent, he]
  dsimp only
  rw [if_neg (not_not.mpr hlt), if_neg (Bool.eq_false_iff.mp hlimit), if_neg hnum,
    if_neg (not_lt.mpr hirr)]

end NewBlock

end Process

theorem find?_fork (inv : EventsInv h history lo chain) (storage : StorageInv h chain' stored)
    {i : ℕ} {a : HistoryEntry} (ha : history[i + 1]? = some a)
    (hev : a.event.event = .backFromFork) :
    h.forks.find? (fun hf ↦ hf.id = a.event.blockNum) = some ⟨a.forkId, a.height⟩ := by
  obtain ⟨b, -, hstep⟩ := inv.isHistory.exists_pred ha
  have hnum := (hstep.backFromFork hev).2.2.2.1
  have hmem := inv.forkOfEvent a (List.mem_of_getElem? ha) hev
  have hsome : (h.forks.find? (fun hf ↦ decide (hf.id = a.event.blockNum))).isSome :=
    List.find?_isSome.mpr ⟨_, hmem, decide_eq_true hnum.symm⟩
  obtain ⟨f, hf⟩ := Option.isSome_iff_exists.mp hsome
  have hid : f.id = a.event.blockNum := by simpa using List.find?_some hf
  rw [hf, storage.fork_unique (List.mem_of_find?_eq_some hf) hmem (hid.trans hnum)]

section Total

variable (inv : EventsInv h history lo chain) (storage : StorageInv h chain' stored)
  (hirr : s.irreversibleBlock ≤ h.irreversibleHead)

include inv storage hirr

theorem outcome_on (hon : onIrreversible h s) (limit : Option ℕ) :
    ∃ c' range, appProcessEvent h (s.state h) limit (s.findNext h) = .ok (c', range) ∧
      Outcome h history limit s c' range := by
  obtain ⟨a, hsought, hnext⟩ := nextEvent_of_on inv hon
  have hfind : s.findNext h =
      { s with eventsId := a.event.id, forkId := s.nextForkId h } := by
    rcases hnext with hsome | ⟨hnone, -, hid⟩
    · rw [Context.findNext, hsome, Option.map_some, Option.getD_some]
    · rw [Context.findNext, hnone, Option.map_none, Option.getD_none, hid]
  have hrange : ∀ c : Context ρ, processIrreversibleRange h s.currentBlockNum
      (leastLimit s.irreversibleBlock limit) c = _ :=
    processIrreversibleRange_eq storage
      ((leastLimit_le _ _).trans (hirr.trans storage.head_le))
  have hdeliver : (a.event.event = .newBlock → s.currentBlockNum + 1 < a.height) →
      appProcessEvent h (s.state h) limit (s.findNext h) = .ok (processIrreversibleRange h
        s.currentBlockNum (leastLimit s.irreversibleBlock limit) (s.findNext h)) →
      ∃ c' range, appProcessEvent h (s.state h) limit (s.findNext h) = .ok (c', range) ∧
        Outcome h history limit s c' range := by
    intro hev hprocess
    rw [hprocess, hrange, hfind]
    split
    · exact ⟨_, _, rfl, .irreversible hon hsought rfl ‹_›⟩
    · exact ⟨_, _, rfl, .waiting hon hsought hev (not_lt.mp ‹_›)⟩
  cases hsought with
  | announcement ha htype hnone heq =>
    refine hdeliver (fun hev ↦ ?_) ?_
    · rcases htype with htype | htype <;> rw [hev] at htype <;> cases htype
    · rw [appProcessEvent_of_irreversible]
      · rw [hfind]
        rfl
      · intro e he
        rcases hnext with hsome | ⟨hnone', -, -⟩
        · have he' : s.nextEvent h = some e := he
          rw [hsome, Option.some.injEq] at he'
          exact he' ▸ htype
        · have he' : s.nextEvent h = some e := he
          rw [hnone'] at he'
          cases he'
  | block ha hev hi hfirst habove =>
    have hnext : s.nextEvent h = some a.event := by
      rcases hnext with hsome | ⟨-, htype, -⟩
      · exact hsome
      · rcases htype with htype | htype <;> rw [hev] at htype <;> cases htype
    have hsought : Sought h history s.eventsId a.event.id a := .block ha hev hi hfirst habove
    have hnum := inv.isHistory.blockNum_of_newBlock ha hev
    have hlt : s.currentBlockNum < a.event.blockNum := by
      have := hon.1
      omega
    cases hlimit : aboveLimit limit a.height with
    | true =>
      refine ⟨_, _, appProcessEvent_of_aboveLimit hnext hev hlt (hnum ▸ hlimit) _, ?_⟩
      rw [hfind]
      exact .refused hon hsought hev hlimit
    | false =>
      by_cases hsucc : a.height = s.currentBlockNum + 1
      · refine ⟨_, _, appProcessEvent_of_succ hnext hev hlt (hnum ▸ hlimit) (hnum ▸ hsucc) _, ?_⟩
        rw [hfind, hnum]
        exact .firstReversible hon hsought hev hsucc hlimit
      · refine hdeliver (fun _ ↦ by omega) ?_
        exact appProcessEvent_of_gap hnext hev hlt (hnum ▸ hlimit) (hnum ▸ hsucc) hon.1 _

theorem outcome_off (hoff : ¬ onIrreversible h s) (hlo : lo ≤ s.eventsId)
    (hsync : ∀ a, history[s.eventsId + 1]? = some a → a.event.event ≠ .massiveSync)
    (hcur : s.currentBlockNum = heightAt history s.eventsId ∨
      ∃ a, history[s.eventsId + 1]? = some a ∧ a.event.event = .backFromFork ∧
        a.height ≤ s.currentBlockNum) (limit : Option ℕ) :
    ∃ c' range, appProcessEvent h (s.state h) limit (s.findNext h) = .ok (c', range) ∧
      Outcome h history limit s c' range := by
  have hnext := nextEvent_of_off inv hoff hlo
  have hfork : s.nextForkId h = s.forkId := by rw [Context.nextForkId, if_neg hoff]
  have hbelow : s.irreversibleBlock ≤ s.currentBlockNum := by
    by_contra hlt
    rw [not_le] at hlt
    exact hoff ⟨hlt.le, consistentBlock_ne_none hirr (by omega)⟩
  have hirreversible : (∀ e, s.nextEvent h = some e → e.event.IsIrreversible) →
      appProcessEvent h (s.state h) limit (s.findNext h) = .ok (s.findNext h, some .negative) := by
    intro hev
    rw [appProcessEvent_of_irreversible hev, processIrreversibleRange_eq storage, if_neg]
    · rw [not_lt]
      exact (leastLimit_le _ _).trans hbelow
    · exact (leastLimit_le _ _).trans (hirr.trans storage.head_le)
  cases ha : history[s.eventsId + 1]? with
  | none =>
    rw [ha, Option.map_none] at hnext
    have hfind : s.findNext h = s := by
      rw [Context.findNext, hnext, hfork]
      rfl
    refine ⟨_, _, hirreversible (fun e he ↦ ?_), ?_⟩
    · rw [hnext] at he
      cases he
    · rw [hfind]
      refine .idle hoff ha (hcur.resolve_right ?_)
      rintro ⟨a, ha', -⟩
      rw [ha] at ha'
      cases ha'
  | some a =>
    rw [ha, Option.map_some] at hnext
    have hfind : s.findNext h = { s with eventsId := s.eventsId + 1 } := by
      rw [Context.findNext, hnext, hfork, Option.map_some, Option.getD_some,
        inv.isHistory.ids _ a ha]
    obtain ⟨b, hb, hstep⟩ := inv.isHistory.exists_pred ha
    have hheight : a.event.event ≠ .backFromFork → s.currentBlockNum = b.height := by
      intro hev
      rw [← heightAt_of_getElem? hb]
      refine hcur.resolve_right ?_
      rintro ⟨a', ha', hev', -⟩
      rw [ha, Option.some.injEq] at ha'
      exact hev (ha' ▸ hev')
    cases hev : a.event.event with
    | newBlock =>
      obtain ⟨⟨d, hd⟩, hnum, -⟩ := hstep.newBlock hev
      have hsucc : a.height = s.currentBlockNum + 1 := by
        rw [hheight (by rw [hev]; simp), height, hd, List.length_append]
        rfl
      have hlt : s.currentBlockNum < a.event.blockNum := by omega
      cases hlimit : aboveLimit limit a.height with
      | true =>
        refine ⟨_, _, appProcessEvent_of_aboveLimit hnext hev hlt (hnum ▸ hlimit) _, ?_⟩
        rw [hfind]
        exact .lost hoff ha hev hsucc hlimit (inv.mem_queue_of_le hlo (Nat.le_succ _) ha)
      | false =>
        refine ⟨_, _, appProcessEvent_of_succ hnext hev hlt (hnum ▸ hlimit) (hnum ▸ hsucc) _, ?_⟩
        rw [hfind, hnum]
        exact .nextReversible hoff ha hev hsucc hlimit
    | backFromFork =>
      have hle : a.height ≤ s.currentBlockNum := by
        rcases hcur with hcur | ⟨a', ha', -, hle⟩
        · rw [hcur, heightAt_of_getElem? hb, height, (hstep.backFromFork hev).1]
          exact (List.length_take_le' _ _)
        · rw [ha, Option.some.injEq] at ha'
          exact ha' ▸ hle
      refine ⟨_, _, appProcessEvent_of_fork hnext hev (find?_fork inv storage ha hev) _, ?_⟩
      have hback : ({ s with eventsId := s.eventsId + 1 } : Context ρ).backFromFork a.height =
          { s.backFromFork a.height with eventsId := s.eventsId + 1 } := by
        rw [Context.backFromFork, Context.backFromFork]
        split <;> rfl
      rw [hfind, contextBackFromFork_full storage.full, hback]
      exact .forked hoff ha hev hle
    | newIrreversible =>
      refine ⟨_, _, hirreversible (fun e he ↦ ?_), ?_⟩
      · rw [hnext, Option.some.injEq] at he
        exact he ▸ .inl hev
      · rw [hfind]
        refine .announced hoff ha hev ?_
        rw [hheight (by rw [hev]; simp), height, height, (hstep.newIrreversible hev).1]
    | massiveSync => exact absurd hev (hsync a ha)

end Total

theorem nextBlock_outcome (inv : EventsInv h history lo chain)
    (storage : StorageInv h chain' stored) (hc : Grounded h history lo c) (ht : Tracks h history c)
    (limit : Option ℕ) : ∃ c' range, c.nextBlock h limit = .ok (c', range) ∧
      Squashed h history c (c.squash h) ∧ Outcome h history limit (c.squash h) c' range := by
  have hs := squash_squashed inv storage hc.refersTo
  have hirr := (hs.irreversibleBlock_le inv hc).2
  cases hs.poised inv hc ht with
  | on hon =>
    obtain ⟨c', range, hok, hout⟩ := outcome_on inv storage hirr hon limit
    exact ⟨c', range, hok, hs, hout⟩
  | off hoff hlo hsync hcur =>
    obtain ⟨c', range, hok, hout⟩ := outcome_off inv storage hirr hoff hlo hsync hcur limit
    exact ⟨c', range, hok, hs, hout⟩

theorem Outcome.tracks (hout : Outcome h history limit s c' range)
    (hkept : ∀ a, ¬ onIrreversible h s → history[s.eventsId + 1]? = some a →
      a.event.event = .newBlock → aboveLimit limit a.height = false) : Tracks h history c' := by
  cases hout with
  | firstReversible hon hi =>
    right
    cases hi with
    | block ha => rw [heightAt_of_getElem? ha]
    | announcement ha => rw [heightAt_of_getElem? ha]
  | refused hon => exact .inl hon
  | irreversible hon hi hn hlt =>
    refine .inl ⟨?_, hon.2⟩
    have := leastLimit_le s.irreversibleBlock limit
    dsimp only
    omega
  | waiting hon => exact .inl hon
  | nextReversible hoff ha => exact .inr (heightAt_of_getElem? ha).symm
  | @lost a hoff ha hev hnum hlimit =>
    rw [hkept a hoff ha hev] at hlimit
    cases hlimit
  | forked hoff ha => exact .inr (heightAt_of_getElem? ha).symm
  | announced hoff ha hev hcur => exact .inr (hcur.trans (heightAt_of_getElem? ha).symm)
  | idle hoff hlast hcur => exact .inr hcur

end HiveForkManager
