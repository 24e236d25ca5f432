import HiveForkManager.Squash

namespace HiveForkManager

open HistoryEntry

variable {ρ : Type} {h : Hafd} {history : List HistoryEntry} {lo : ℕ} {chain chain' : List BlockData}
  {stored : List (Reversible BlockData)} {c s : Context ρ}

def heightAt (history : List HistoryEntry) (i : ℕ) : ℕ := history[i]?.elim 0 height

variable {a : HistoryEntry}

theorem heightAt_of_getElem? {i : ℕ} (ha : history[i]? = some a) :
    heightAt history i = a.height := by
  rw [heightAt, ha, Option.elim_some]

def Tracks (h : Hafd) (history : List HistoryEntry) (c : Context ρ) : Prop :=
  onIrreversible h c ∨ c.currentBlockNum = heightAt history c.eventsId

/-- The place of a context after its events were squashed: above irreversible blocks it may also be
right before a fork. -/
inductive Poised (h : Hafd) (history : List HistoryEntry) (lo : ℕ) (s : Context ρ) : Prop
  | on (hon : onIrreversible h s)
  | off (hoff : ¬ onIrreversible h s) (hlo : lo ≤ s.eventsId)
      (hsync : ∀ a, history[s.eventsId + 1]? = some a → a.event.event ≠ .massiveSync)
      (hcur : s.currentBlockNum = heightAt history s.eventsId ∨
        ∃ a, history[s.eventsId + 1]? = some a ∧ a.event.event = .backFromFork ∧
          a.height ≤ s.currentBlockNum)

theorem irreversibleHead_of_none (hnone : h.consistentBlock = none) : h.irreversibleHead = 0 := by
  rw [Hafd.irreversibleHead, show h.hiveState.consistentBlock = none from hnone, Option.getD_none]

theorem consistentBlock_ne_none {n : ℕ} (hn : n ≤ h.irreversibleHead) (hpos : 0 < n) :
    h.consistentBlock ≠ none := by
  intro hnone
  rw [irreversibleHead_of_none hnone] at hn
  omega

theorem EventsInv.irr_pos (inv : EventsInv h history lo chain) {i : ℕ}
    (ha : history[i + 1]? = some a) (htype : a.event.event.IsIrreversible) : 0 < a.irr := by
  obtain ⟨b, -, hstep⟩ := inv.isHistory.exists_pred ha
  rw [inv.isHistory.irr_of_irreversible ha htype]
  rcases htype with hev | hev
  · exact (hstep.newIrreversible hev).2.2.2.2.2
  · exact (hstep.massiveSync hev).2.2.2.2.2

theorem onIrreversible_updateIrreversible (inv : EventsInv h history lo chain)
    (hirr : c.irreversibleBlock ≤ h.irreversibleHead) (hp : lo ≤ c.eventsId)
    (hon : onIrreversible h c) : onIrreversible h (c.updateIrreversible h) := by
  obtain ⟨n, hlearns, hn, -⟩ := updateIrreversible_learns inv hirr hp
  refine ⟨?_, hon.2⟩
  rw [updateIrreversible_currentBlockNum, hn]
  exact hon.1.trans hlearns.le

theorem onIrreversible_synced (inv : EventsInv h history lo chain)
    (hirr : c.irreversibleBlock ≤ h.irreversibleHead) (hp : lo ≤ c.eventsId)
    (ht : Tracks h history c) {q : ℕ} (hq : c.eventsId ≤ q)
    (ha : history[q + 1]? = some a) (hev : a.event.event = .massiveSync)
    (hno : NoFork history c.eventsId q) :
    (c.updateIrreversible h).currentBlockNum ≤ (c.updateIrreversible h).irreversibleBlock := by
  rcases ht with hon | hcur
  · exact (onIrreversible_updateIrreversible inv hirr hp hon).1
  · by_cases hon : onIrreversible h c
    · exact (onIrreversible_updateIrreversible inv hirr hp hon).1
    obtain ⟨n, hlearns, hn, -⟩ := updateIrreversible_learns inv hirr hp
    have hno' : NoFork history c.eventsId (q + 1) := by
      intro k x hk hkq hx
      rcases Nat.lt_or_ge q k with hlt | hle
      · obtain rfl : k = q + 1 := by omega
        rw [ha, Option.some.injEq] at hx
        rw [← hx, hev]
        simp
      · exact hno k x hk hle hx
    obtain ⟨hlen, -⟩ := List.getElem?_eq_some_iff.mp ha
    have hb : history[c.eventsId]? = some history[c.eventsId] :=
      List.getElem?_eq_getElem (by omega)
    have hfork := inv.isHistory.forkId_eq (by omega) hb ha hno'
    have hpre := (inv.isHistory.precedes (by omega) hb ha).sameFork hfork.symm
    have hle := hlearns.newest hon (q + 1) a (by omega) ha (.inr hev) hno'
    obtain ⟨x, -, hstep⟩ := inv.isHistory.exists_pred ha
    have hnum := (hstep.massiveSync hev).2.2.2.2.1
    rw [inv.isHistory.irr_of_irreversible ha (.inr hev), hnum] at hle
    rw [updateIrreversible_currentBlockNum, hn, hcur, heightAt_of_getElem? hb]
    exact hpre.length_le.trans hle

theorem Squashed.poised (inv : EventsInv h history lo chain) (hc : Grounded h history lo c)
    (ht : Tracks h history c) (hs : Squashed h history c s) : Poised h history lo s := by
  by_cases hon : onIrreversible h s
  · exact .on hon
  have hkept : c.eventsId ≠ 0 → lo ≤ c.eventsId := hc.refersTo.kept.resolve_left
  cases hs with
  | fresh hp =>
    have hcur := ht.resolve_left hon
    have hzero : c.currentBlockNum = 0 := by
      rw [hcur, hp, heightAt_of_getElem? inv.isHistory.getElem?_zero]
      rfl
    have hnone : h.consistentBlock = none := by
      by_contra hne
      exact hon ⟨hzero ▸ Nat.zero_le _, hne⟩
    refine .off hon (by rw [inv.nothingRemoved hnone]; exact Nat.zero_le _) ?_ (.inl hcur)
    intro a ha hev
    exact consistentBlock_ne_none (inv.irr_le ha) (inv.irr_pos ha (.inr hev)) hnone
  | updated hp hsync =>
    have hcur : ¬ onIrreversible h c := fun hon' ↦
      hon (onIrreversible_updateIrreversible inv hc.irr_le (hkept hp) hon')
    rw [← updateIrreversible_eventsId h c] at hp hsync
    refine .off hon (updateIrreversible_eventsId h c ▸ hkept (updateIrreversible_eventsId h c ▸ hp))
      (fun a ↦ hsync _ a (Nat.lt_succ_self _)) (.inl ?_)
    rw [updateIrreversible_currentBlockNum, updateIrreversible_eventsId]
    exact ht.resolve_left hcur
  | forked hp hsync hq ha hev hheight =>
    refine .off hon ((hkept hp).trans hq) (fun a ↦ hsync _ a (Nat.lt_succ_of_le hq))
      (.inr ⟨_, ha, hev, ?_⟩)
    dsimp only
    rw [updateIrreversible_currentBlockNum]
    exact hheight
  | synced hp hq ha hev hno =>
    refine absurd ⟨?_, ?_⟩ hon
    · exact onIrreversible_synced inv hc.irr_le (hkept hp) ht hq ha hev hno
    · exact consistentBlock_ne_none (inv.irr_le ha) (inv.irr_pos ha (.inr hev))
  | rewound hp hq ha hev =>
    refine absurd ⟨?_, ?_⟩ hon
    · dsimp only
      rw [Context.backFromFork_currentBlockNum, Context.backFromFork_irreversibleBlock]
      exact Nat.min_le_right _ _
    · exact consistentBlock_ne_none (inv.irr_le ha) (inv.irr_pos ha (.inr hev))

/-- From event `i` on and before event `j` no block above `n` was pushed. -/
def NoBlockAbove (history : List HistoryEntry) (n i j : ℕ) : Prop :=
  ∀ k x, i ≤ k → k < j → history[k]? = some x → x.event.event = .newBlock → x.height ≤ n

/-- The event a context on irreversible blocks goes to: the first one from its own on that pushed a
reversible block, else one that announced the irreversible head. -/
inductive Sought (h : Hafd) (history : List HistoryEntry) (p i : ℕ) (a : HistoryEntry) : Prop
  | block (ha : history[i]? = some a) (hev : a.event.event = .newBlock) (hi : p ≤ i)
      (hfirst : NoBlockAbove history h.irreversibleHead p i)
      (habove : h.irreversibleHead < a.height)
  | announcement (ha : history[i]? = some a) (hev : a.event.event.IsIrreversible)
      (hnone : NoBlockAbove history h.irreversibleHead p history.length)
      (hirr : a.irr = h.irreversibleHead)

section NextEvent

variable (inv : EventsInv h history lo chain)

include inv

theorem exists_max_id : ∃ e, lastEvent h.eventsQueue = some e ∧ ∀ x ∈ h.eventsQueue, x.id ≤ e.id := by
  obtain ⟨e, he⟩ := exists_lastEvent inv
  exact ⟨e, he, fun x hx ↦ List.le_of_mem_argmax hx he⟩

variable {p m : ℕ}

theorem mem_firstReversibleEvent (hm : ∀ x ∈ h.eventsQueue, x.id ≤ m) {e : Event} :
    e ∈ h.eventsQueue.filter (fun heq ↦ decide (h.irreversibleHead < heq.blockNum ∧
      heq.event ≠ .backFromFork ∧ p ≤ heq.id ∧ heq.id ≤ m)) ↔
    ∃ i a, history[i]? = some a ∧ a.event = e ∧ a.event.event = .newBlock ∧ p ≤ i ∧
      h.irreversibleHead < a.height := by
  rw [List.mem_filter, decide_eq_true_eq]
  constructor
  · rintro ⟨he, hlt, hbff, hp, -⟩
    obtain ⟨a, ha, rfl⟩ := inv.getElem?_of_mem_queue he
    have hev : a.event.event = .newBlock := by
      cases hev : a.event.event with
      | newBlock => rfl
      | backFromFork => exact absurd hev hbff
      | newIrreversible => exact absurd (inv.blockNum_le he (.inl hev)) (not_le.mpr hlt)
      | massiveSync => exact absurd (inv.blockNum_le he (.inr hev)) (not_le.mpr hlt)
    rw [inv.isHistory.blockNum_of_newBlock ha hev] at hlt
    exact ⟨_, a, ha, rfl, hev, hp, hlt⟩
  · rintro ⟨i, a, ha, rfl, hev, hp, hlt⟩
    have hmem := inv.mem_queue ha (.inr (inv.aboveKept i a ha hev hlt))
    have hid := inv.isHistory.ids i a ha
    exact ⟨hmem, by rwa [inv.isHistory.blockNum_of_newBlock ha hev], by rw [hev]; simp,
      hid ▸ hp, hm _ hmem⟩

theorem firstReversibleEvent_some (hm : ∀ x ∈ h.eventsQueue, x.id ≤ m) {e : Event}
    (he : h.firstReversibleEvent h.irreversibleHead p m = some e) :
    ∃ a, a.event = e ∧ a.event.event = .newBlock ∧ Sought h history p e.id a := by
  obtain ⟨i, a, ha, rfl, hev, hp, hlt⟩ :=
    (mem_firstReversibleEvent inv hm).mp (List.argmin_mem he)
  obtain rfl := inv.isHistory.ids i a ha
  refine ⟨a, rfl, hev, .block ha hev hp (fun k x hk hki hx hxev ↦ ?_) hlt⟩
  by_contra hnot
  have hmem := (mem_firstReversibleEvent inv hm).mpr ⟨k, x, hx, rfl, hxev, hk, not_le.mp hnot⟩
  have hle := List.le_of_mem_argmin hmem he
  rw [inv.isHistory.ids k x hx] at hle
  omega

theorem firstReversibleEvent_none (hm : ∀ x ∈ h.eventsQueue, x.id ≤ m)
    (he : h.firstReversibleEvent h.irreversibleHead p m = none) :
    NoBlockAbove history h.irreversibleHead p history.length := by
  intro k x hk _ hx hxev
  rw [Hafd.firstReversibleEvent, firstEvent, List.argmin_eq_none] at he
  by_contra hnot
  have hmem := (mem_firstReversibleEvent inv hm).mpr ⟨k, x, hx, rfl, hxev, hk, not_le.mp hnot⟩
  rw [he] at hmem
  exact absurd hmem (by simp)

theorem exists_firstIrreversibleEvent (hm : ∀ x ∈ h.eventsQueue, x.id ≤ m)
    (hcons : h.consistentBlock ≠ none) :
    ∃ a : HistoryEntry, h.firstIrreversibleEvent h.irreversibleHead m = some a.event ∧
      history[a.event.id]? = some a ∧ a.event.event.IsIrreversible ∧ a.irr = h.irreversibleHead := by
  obtain ⟨n, hn⟩ := Option.ne_none_iff_exists'.mp hcons
  have hhead : h.irreversibleHead = n := by
    rw [Hafd.irreversibleHead, show h.hiveState.consistentBlock = some n from hn, Option.getD_some]
  obtain ⟨b, hb, hlo, htype, hnum⟩ := inv.irreversibleEvent n hn
  have hmem := inv.mem_queue (inv.isHistory.exists_of_mem hb) (.inr hlo)
  have hfilter : b.event ∈ h.eventsQueue.filter (fun heq ↦ decide (heq.blockNum = h.irreversibleHead ∧
      (heq.event = .massiveSync ∨ heq.event = .newIrreversible) ∧ heq.id ≤ m)) :=
    List.mem_filter.mpr ⟨hmem, decide_eq_true ⟨hnum.trans hhead.symm, htype.symm, hm _ hmem⟩⟩
  cases hfirst : h.firstIrreversibleEvent h.irreversibleHead m with
  | none =>
    rw [Hafd.firstIrreversibleEvent, firstEvent, List.argmin_eq_none] at hfirst
    rw [hfirst] at hfilter
    exact absurd hfilter (by simp)
  | some e =>
    obtain ⟨he, hcond⟩ := List.mem_filter.mp (List.argmin_mem hfirst)
    obtain ⟨hnum', htype', -⟩ := of_decide_eq_true hcond
    obtain ⟨a, ha, rfl⟩ := inv.getElem?_of_mem_queue he
    exact ⟨a, rfl, ha, htype'.symm,
      (inv.isHistory.irr_of_irreversible ha htype'.symm).trans hnum'⟩

theorem nextEvent_of_on (hon : onIrreversible h s) :
    ∃ a, Sought h history s.eventsId a.event.id a ∧
      (s.nextEvent h = some a.event ∨
        s.nextEvent h = none ∧ a.event.event.IsIrreversible ∧ a.event.id = s.eventsId) := by
  obtain ⟨last, hlast, hm⟩ := exists_max_id inv
  rw [Context.nextEvent, hlast, Option.bind_some, pickNextEvent, if_pos hon]
  cases hfirst : h.firstReversibleEvent h.irreversibleHead s.eventsId last.id with
  | some e =>
    obtain ⟨a, rfl, -, hsought⟩ := firstReversibleEvent_some inv hm hfirst
    exact ⟨a, hsought, .inl rfl⟩
  | none =>
    have hnone := firstReversibleEvent_none inv hm hfirst
    obtain ⟨a, hsome, ha, htype, hirr⟩ := exists_firstIrreversibleEvent inv hm hon.2
    refine ⟨a, .announcement ha htype hnone hirr, ?_⟩
    dsimp only
    rw [hsome]
    dsimp only
    by_cases hid : a.event.id = s.eventsId
    · exact .inr ⟨if_pos hid, htype, hid⟩
    · exact .inl (if_neg hid)

theorem nextEvent_of_off (hoff : ¬ onIrreversible h s) (hlo : lo ≤ s.eventsId) :
    s.nextEvent h = (history[s.eventsId + 1]?).map HistoryEntry.event := by
  obtain ⟨last, hlast, hm⟩ := exists_max_id inv
  rw [Context.nextEvent, hlast, Option.bind_some, pickNextEvent, if_neg hoff]
  cases hnext : history[s.eventsId + 1]? with
  | none =>
    rw [Option.map_none, Hafd.firstEventAfter, firstEvent, List.argmin_eq_none,
      List.filter_eq_nil_iff]
    intro e he hcond
    have hlen := inv.id_lt_length he
    have hlt := (of_decide_eq_true hcond).1
    rw [List.getElem?_eq_none_iff] at hnext
    omega
  | some a =>
    have hmem := inv.mem_queue_of_le hlo (Nat.le_succ _) hnext
    have hid := inv.isHistory.ids _ a hnext
    have hfilter : a.event ∈ h.eventsQueue.filter
        (fun heq ↦ decide (s.eventsId < heq.id ∧ heq.id ≤ last.id)) :=
      List.mem_filter.mpr ⟨hmem, decide_eq_true ⟨by omega, hm _ hmem⟩⟩
    cases hfirst : h.firstEventAfter s.eventsId last.id with
    | none =>
      rw [Hafd.firstEventAfter, firstEvent, List.argmin_eq_none] at hfirst
      rw [hfirst] at hfilter
      exact absurd hfilter (by simp)
    | some e =>
      have hle := List.le_of_mem_argmin hfilter hfirst
      obtain ⟨he, hcond⟩ := List.mem_filter.mp (List.argmin_mem hfirst)
      obtain ⟨b, hb, rfl⟩ := inv.getElem?_of_mem_queue he
      have hlt := (of_decide_eq_true hcond).1
      obtain hsame : b.event.id = s.eventsId + 1 := by omega
      rw [hsame, hnext, Option.some.injEq] at hb
      rw [hb, Option.map_some]

end NextEvent

end HiveForkManager
