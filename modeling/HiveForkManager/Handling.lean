import HiveForkManager.CallFrame
import HiveForkManager.Delivery
import HiveForkManager.Request

namespace HiveForkManager

open HistoryEntry

def Context.handle (range : Option BlocksRange) (c : Context ℕ) : Except Error (Context ℕ) :=
  match range with
  | none => .ok c
  | some r => c.insertBlocks [r.firstBlock.toNat]

variable {h : Hafd} {history : List HistoryEntry} {lo : ℕ} {chain chain' : List BlockData}
  {stored : List (Reversible BlockData)} {c c' s : Context ℕ} {limit : Option ℕ}
  {range : Option BlocksRange}

theorem Handed.exists_handle (hd : Handed s c' range) (hs : Exact s) :
    ∃ tables, c'.handle range = .ok { c' with tables } ∧
      (KeepsIrreversible s c' → c'.Settled → Exact { c' with tables }) := by
  cases hd with
  | nothing hexact => exact ⟨c'.tables, rfl, hexact hs⟩
  | @block r eventsId forkId hr =>
    have hnums : [r.firstBlock.toNat] =
        List.range' (s.currentBlockNum + 1) (s.currentBlockNum + 1 - s.currentBlockNum) := by
      rw [hr, Int.toNat_natCast, Nat.add_sub_cancel_left, List.range'_one]
    let c' : Context ℕ := { s with currentBlockNum := s.currentBlockNum + 1, eventsId, forkId }
    have hpos : 0 < c'.currentBlockNum := Nat.succ_pos _
    obtain ⟨c'', hok⟩ := exists_insertBlocks hpos [r.firstBlock.toNat]
    obtain ⟨tables, -, rfl⟩ := insertBlocks_eq_ok hok
    refine ⟨tables, hok, fun _ hsettled ↦ ?_⟩
    rw [hnums] at hok
    refine Exact.insertBlocks (c := c') (Nat.lt_succ_self _) hs.tables hs.triggers ?_ hok
    by_cases hfork : s.isForking = true ∧ s.isAttached = true
    · exact .inl ⟨hfork, rfl⟩
    · exact .inr (hsettled hfork)

/-- The tables are exact, and a forking, attached context has its place on the record. -/
structure Sound (h : Hafd) (history : List HistoryEntry) (c : Context ℕ) : Prop where
  exact : Exact c
  tracks : c.isForking = true → c.isAttached = true → Tracks h history c

theorem Sound.touch (hc : Sound h history c) (now : ℕ) : Sound h history (c.touch now) :=
  ⟨⟨hc.exact.triggers, hc.exact.tables, hc.exact.settled⟩, hc.tracks⟩

/-- No `BACK_FROM_FORK` that a context above its irreversible block has not consumed yet goes back
below that block. -/
def Context.Sheltered (h : Hafd) (c : Context ℕ) : Prop :=
  onIrreversible h c ∨ ∀ e ∈ h.eventsQueue, c.eventsId < e.id → e.event = .backFromFork →
    ∀ f ∈ h.forks, f.id = e.blockNum → c.irreversibleBlock ≤ f.blockNum

instance (h : Hafd) (c : Context ℕ) : Decidable (c.Sheltered h) := by
  unfold Context.Sheltered; infer_instance

/-- The limit refuses the next event of a context that is not on irreversible blocks. -/
def Context.Loses (h : Hafd) (limit : Option ℕ) (c : Context ℕ) : Prop :=
  ¬ onIrreversible h c ∧ ∃ e ∈ h.eventsQueue, e.id = c.eventsId + 1 ∧ e.event = .newBlock ∧
    aboveLimit limit e.blockNum = true

instance (h : Hafd) (limit : Option ℕ) (c : Context ℕ) : Decidable (c.Loses h limit) := by
  unfold Context.Loses; infer_instance

section PreState

variable (inv : EventsInv h history lo chain) (hg : Grounded h history lo c)
  (ht : Tracks h history c)

include inv in
theorem sheltered_fork (hshelter : c.Sheltered h) (hoff : ¬ onIrreversible h c)
    (hlo : lo ≤ c.eventsId) {j : ℕ} {a : HistoryEntry} (hj : c.eventsId ≤ j)
    (ha : history[j + 1]? = some a) (hev : a.event.event = .backFromFork) :
    c.irreversibleBlock ≤ a.height := by
  obtain ⟨x, -, hstep⟩ := inv.isHistory.exists_pred ha
  have hid := inv.isHistory.ids _ a ha
  exact hshelter.resolve_left hoff a.event (inv.mem_queue_of_le hlo (by omega) ha) (by omega) hev
    _ (inv.forkOfEvent a (List.mem_of_getElem? ha) hev) (hstep.backFromFork hev).2.2.2.1.symm

include inv ht in
theorem fresh_off (hp : c.eventsId = 0) (hoff : ¬ onIrreversible h c) :
    h.consistentBlock = none ∧ lo = 0 := by
  have hzero : c.currentBlockNum = 0 := by
    rw [ht.resolve_left hoff, hp, heightAt_of_getElem? inv.isHistory.getElem?_zero]
    rfl
  have hnone : h.consistentBlock = none := by
    by_contra hne
    exact hoff ⟨hzero ▸ Nat.zero_le _, hne⟩
  exact ⟨hnone, inv.nothingRemoved hnone⟩

include inv hg ht

theorem Squashed.fork_kept (hs : Squashed h history c s) (hshelter : c.Sheltered h)
    (hoff : ¬ onIrreversible h s) {a : HistoryEntry} (ha : history[s.eventsId + 1]? = some a)
    (hev : a.event.event = .backFromFork) : s.irreversibleBlock ≤ a.height := by
  have hkept : c.eventsId ≠ 0 → lo ≤ c.eventsId := hg.refersTo.kept.resolve_left
  cases hs with
  | fresh hp =>
    have hle := hg.irr_le
    rw [irreversibleHead_of_none (fresh_off inv ht hp hoff).1] at hle
    exact hle.trans (Nat.zero_le _)
  | updated hp =>
    have hoff' : ¬ onIrreversible h c := fun hon ↦
      hoff (onIrreversible_updateIrreversible inv hg.irr_le (hkept hp) hon)
    rw [updateIrreversible_eventsId] at ha
    obtain ⟨n, hlearns, hn, -⟩ := updateIrreversible_learns inv hg.irr_le (hkept hp)
    rw [hn]
    rcases hlearns.source hoff' with rfl | ⟨i, b, hi, -, hno, -⟩
    · exact sheltered_fork inv hshelter hoff' (hkept hp) le_rfl ha hev
    · exact absurd hev (hno _ a (Nat.lt_succ_self _) hi ha)
  | @forked q _ hp _ hq =>
    have hoff' : ¬ onIrreversible h c := fun hon ↦
      hoff (onIrreversible_updateIrreversible inv hg.irr_le (hkept hp) hon)
    obtain ⟨n, hlearns, hn, -⟩ := updateIrreversible_learns inv hg.irr_le (hkept hp)
    dsimp only
    rw [hn]
    rcases hlearns.source hoff' with rfl | ⟨i, b, hi, hb, hno, rfl⟩
    · exact sheltered_fork inv hshelter hoff' (hkept hp) hq ha hev
    · obtain ⟨x, hx, hstep⟩ := inv.isHistory.exists_pred ha
      by_cases hle : i ≤ q
      · exact (inv.isHistory.precedes hle hb hx).irr.trans (hstep.backFromFork hev).2.1
      · exact absurd hev (hno _ a (Nat.lt_succ_of_le hq) (not_le.mp hle) ha)
  | synced hp hq ha' hev' =>
    obtain rfl := Option.some.inj (ha.symm.trans ha')
    cases hev.symm.trans hev'
  | rewound hp hq ha' hev' =>
    obtain rfl := Option.some.inj (ha.symm.trans ha')
    cases hev.symm.trans hev'

theorem Squashed.block_kept (hs : Squashed h history c s) (hloses : ¬ c.Loses h limit)
    (a : HistoryEntry) (hoff : ¬ onIrreversible h s) (ha : history[s.eventsId + 1]? = some a)
    (hev : a.event.event = .newBlock) : aboveLimit limit a.height = false := by
  have hkept : c.eventsId ≠ 0 → lo ≤ c.eventsId := hg.refersTo.kept.resolve_left
  have hblock : ¬ onIrreversible h c → lo ≤ c.eventsId → history[c.eventsId + 1]? = some a →
      aboveLimit limit a.height = false := by
    intro hoff' hlo ha'
    rw [← Bool.not_eq_true]
    intro habove
    refine hloses ⟨hoff', a.event, inv.mem_queue_of_le hlo (Nat.le_succ _) ha',
      inv.isHistory.ids _ a ha', hev, ?_⟩
    rwa [inv.isHistory.blockNum_of_newBlock ha' hev]
  cases hs with
  | fresh hp => exact hblock hoff ((fresh_off inv ht hp hoff).2 ▸ Nat.zero_le _) ha
  | updated hp =>
    rw [updateIrreversible_eventsId] at ha
    exact hblock (fun hon ↦
      hoff (onIrreversible_updateIrreversible inv hg.irr_le (hkept hp) hon)) (hkept hp) ha
  | forked hp _ hq ha' hev' =>
    obtain rfl := Option.some.inj (ha.symm.trans ha')
    cases hev.symm.trans hev'
  | synced hp hq ha' hev' =>
    obtain rfl := Option.some.inj (ha.symm.trans ha')
    cases hev.symm.trans hev'
  | rewound hp hq ha' hev' =>
    obtain rfl := Option.some.inj (ha.symm.trans ha')
    cases hev.symm.trans hev'

theorem Outcome.keeps (hs : Squashed h history c s) (hshelter : c.Sheltered h)
    (hout : Outcome h history limit s c' range) : KeepsIrreversible s c' := by
  cases hout with
  | firstReversible _ _ _ hnum => exact .inl (hnum ▸ Nat.le_succ _)
  | irreversible => exact .inl (Nat.le_succ _)
  | nextReversible _ _ _ hnum => exact .inl (hnum ▸ Nat.le_succ _)
  | forked hoff ha hev =>
    right
    dsimp only
    rw [Context.backFromFork_irreversibleBlock]
    exact hs.fork_kept inv hg ht hshelter hoff ha hev
  | refused => exact .inl le_rfl
  | waiting => exact .inl le_rfl
  | lost => exact .inl le_rfl
  | announced => exact .inl le_rfl
  | idle => exact .inl le_rfl

/-- The limit refuses the next event of the context. -/
def Context.Refuses (h : Hafd) (limit : Option ℕ) (e : Event) (c : Context ℕ) : Prop :=
  (c.squash h).nextEvent h = some e ∧ e.event = .newBlock ∧ aboveLimit limit e.blockNum = true

theorem Context.Refuses.exists_entry {e : Event} (hrefuses : c.Refuses h limit e)
    (hs : Squashed h history c (c.squash h)) (hloses : ¬ c.Loses h limit) :
    onIrreversible h (c.squash h) ∧ ∃ a, history[e.id]? = some a ∧ a.event = e ∧
      h.irreversibleHead < a.height := by
  obtain ⟨hnext, hev, habove⟩ := hrefuses
  cases hs.poised inv hg ht with
  | on hon =>
    obtain ⟨a, hsought, hsome | ⟨hnone, -⟩⟩ := nextEvent_of_on inv hon
    · obtain rfl := Option.some.inj (hsome.symm.trans hnext)
      cases hsought with
      | block ha _ _ _ hlt => exact ⟨hon, a, ha, rfl, hlt⟩
      | announcement _ htype =>
        rcases htype with htype | htype <;> cases hev.symm.trans htype
    · cases hnone.symm.trans hnext
  | off hoff hlo =>
    rw [nextEvent_of_off inv hoff hlo] at hnext
    obtain ⟨a, ha, rfl⟩ := Option.map_eq_some_iff.mp hnext
    rw [inv.isHistory.blockNum_of_newBlock ha hev,
      hs.block_kept inv hg ht hloses a hoff ha hev] at habove
    cases habove

end PreState

theorem nextBlock_sound (inv : EventsInv h history lo chain) (storage : StorageInv h chain' stored)
    (hg : Grounded h history lo c) (hc : Sound h history c) (hfork : c.isForking = true)
    (hatt : c.isAttached = true) (limit : Option ℕ) :
    ∃ c' range tables, c.nextBlock h limit = .ok (c', range) ∧
      c'.handle (BlocksRange.toResult range) = .ok { c' with tables } ∧
      (c.Sheltered h → ¬ c.Loses h limit → Sound h history { c' with tables }) := by
  have ht := hc.tracks hfork hatt
  obtain ⟨c', range, hok, hs, hout⟩ := nextBlock_outcome inv storage hg ht limit
  obtain ⟨tables, hhandle, hexact⟩ := hout.handed.exists_handle (hs.exact inv hg hc.exact)
  refine ⟨c', range, tables, hok, hhandle, fun hshelter hloses ↦
    ⟨hexact (hout.keeps inv hg ht hs hshelter) ?_, fun _ _ ↦
      (hout.tracks (hs.block_kept inv hg ht hloses) : Tracks h history c')⟩⟩
  have hsettings := nextBlock_settings hok
  exact fun hmode ↦ absurd ⟨(congrArg Settings.isForking hsettings).trans hfork,
    (congrArg Settings.isAttached hsettings).trans hatt⟩ hmode

theorem mode_of_settings (hsettings : c'.settings = c.settings) :
    (c'.isForking = true ∧ c'.isAttached = true) = (c.isForking = true ∧ c.isAttached = true) := by
  simp only [Context.settings, Settings.mk.injEq] at hsettings
  rw [hsettings.2.1, hsettings.2.2.1]

theorem nextBlockNonForking_settings (limit : Option ℕ) :
    (c.nextBlockNonForking h limit).1.settings = c.settings :=
  (processIrreversibleRange_settings rfl).trans (squash_settings c)

/-- A call for a context that is not forking, or is not attached. -/
theorem nextBlockNonForking_sound (inv : EventsInv h history lo chain)
    (storage : StorageInv h chain' stored) (hg : Grounded h history lo c) (hc : Sound h history c)
    (hmode : ¬ (c.isForking = true ∧ c.isAttached = true)) (limit : Option ℕ) :
    ∃ tables, (c.nextBlockNonForking h limit).1.handle
        (BlocksRange.toResult (c.nextBlockNonForking h limit).2) =
          .ok { (c.nextBlockNonForking h limit).1 with tables } ∧
      Sound h history { (c.nextBlockNonForking h limit).1 with tables } := by
  have hs := squash_squashed inv storage hg.refersTo
  have hexact := hs.exact inv hg hc.exact
  have hirr := (hs.irreversibleBlock_le inv hg).2
  have hmode' := mode_of_settings (nextBlockNonForking_settings (h := h) (c := c) limit) ▸ hmode
  have hcur := hexact.settled (mode_of_settings (squash_settings c) ▸ hmode)
  have hmoved : Handed (c.squash h) (c.nextBlockNonForking h limit).1
      (BlocksRange.toResult (c.nextBlockNonForking h limit).2) ∧
      KeepsIrreversible (c.squash h) (c.nextBlockNonForking h limit).1 ∧
      (c.nextBlockNonForking h limit).1.Settled := by
    have hle := leastLimit_le (c.squash h).irreversibleBlock limit
    rw [Context.nextBlockNonForking, processIrreversibleRange_eq storage
      (hle.trans (hirr.trans storage.head_le))]
    split
    · rename_i hlt
      rw [BlocksRange.toResult_some (Int.ofNat_le.mpr hlt)]
      exact ⟨.block _ _ rfl, .inl (Nat.le_succ _), fun _ ↦ (Nat.succ_le_of_lt hlt).trans hle⟩
    · exact ⟨.nothing fun hs _ _ ↦ hs.move _ _, .inl le_rfl, fun _ ↦ hcur⟩
  obtain ⟨tables, hhandle, hexact'⟩ := hmoved.1.exists_handle hexact
  exact ⟨tables, hhandle, hexact' hmoved.2.1 hmoved.2.2,
    fun hfork hatt ↦ absurd ⟨hfork, hatt⟩ hmode'⟩

end HiveForkManager
