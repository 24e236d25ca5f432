import HiveForkManager.ContextStep

namespace HiveForkManager

open HistoryEntry

variable {ρ : Type} {h : Hafd} {history : List HistoryEntry} {lo : ℕ} {chain : List BlockData}
  {c s : Context ρ}

def EventType.IsIrreversible (type : EventType) : Prop :=
  type = .newIrreversible ∨ type = .massiveSync

/-- There is no fork after event `i` up to event `j`. -/
def NoFork (history : List HistoryEntry) (i j : ℕ) : Prop :=
  ∀ k x, i < k → k ≤ j → history[k]? = some x → x.event.event ≠ .backFromFork

namespace EventsInv

theorem mem_queue_of_le (inv : EventsInv h history lo chain) {p i : ℕ} {a : HistoryEntry}
    (hp : lo ≤ p) (hi : p ≤ i) (ha : history[i]? = some a) : a.event ∈ h.eventsQueue :=
  inv.mem_queue ha (.inr (hp.trans hi))

theorem lt_nextBackFromFork_iff (inv : EventsInv h history lo chain) {p i : ℕ} (hp : lo ≤ p)
    (hi : i < history.length) :
    i < ((h.nextBackFromFork p).map Event.id).getD unreachableEventId ↔ NoFork history p i := by
  cases hnext : h.nextBackFromFork p with
  | none =>
    rw [Hafd.nextBackFromFork, firstEvent, List.argmin_eq_none, List.filter_eq_nil_iff] at hnext
    rw [Option.map_none, Option.getD_none]
    refine iff_of_true (hi.trans_le inv.seq_le) fun k x hk _ hx hev ↦ ?_
    refine hnext _ (inv.mem_queue_of_le hp hk.le hx) (decide_eq_true ⟨?_, hev⟩)
    rwa [inv.isHistory.ids k x hx]
  | some f =>
    obtain ⟨hmem, hcond⟩ := List.mem_filter.mp (List.argmin_mem hnext)
    obtain ⟨hlt, hev⟩ := of_decide_eq_true hcond
    obtain ⟨b, hb, rfl⟩ := inv.getElem?_of_mem_queue hmem
    rw [Option.map_some, Option.getD_some]
    constructor
    · intro hif k x hk hki hx hxev
      have hx' : x.event ∈ h.eventsQueue.filter
          (fun heq ↦ decide (p < heq.id ∧ heq.event = .backFromFork)) := by
        refine List.mem_filter.mpr ⟨inv.mem_queue_of_le hp hk.le hx, decide_eq_true ⟨?_, hxev⟩⟩
        rwa [inv.isHistory.ids k x hx]
      have hle := List.le_of_mem_argmin hx' hnext
      rw [inv.isHistory.ids k x hx] at hle
      omega
    · intro hno
      by_contra hge
      exact hno _ b hlt (by omega) hb hev

end EventsInv

variable {p q : ℕ} {stored : List (Reversible BlockData)} {chain' : List BlockData}

theorem forkBetween_eq_false_iff (inv : EventsInv h history lo chain) (hp : lo ≤ p) :
    h.forkBetween p (q + 1) = false ↔ NoFork history p q := by
  rw [Hafd.forkBetween, Bool.eq_false_iff, ne_eq, List.any_eq_true, not_exists]
  simp only [decide_eq_true_eq, not_and]
  constructor
  · intro hno k x hk hkq hx
    refine hno x.event (inv.mem_queue_of_le hp hk.le hx) ?_ ?_ <;>
      rw [inv.isHistory.ids k x hx] <;> omega
  · intro hno e he hlt hle
    obtain ⟨b, hb, rfl⟩ := inv.getElem?_of_mem_queue he
    exact hno _ b hlt (by omega) hb

theorem irreversibleBetween_eq_false_iff (inv : EventsInv h history lo chain)
    (hp : lo ≤ p) : h.irreversibleBetween p (q + 1) = false ↔
      ∀ k x, p < k → k ≤ q → history[k]? = some x → ¬ x.event.event.IsIrreversible := by
  rw [Hafd.irreversibleBetween, Bool.eq_false_iff, ne_eq, List.any_eq_true, not_exists]
  simp only [decide_eq_true_eq, not_and]
  constructor
  · intro hno k x hk hkq hx
    refine hno x.event (inv.mem_queue_of_le hp hk.le hx) ?_ ?_ <;>
      rw [inv.isHistory.ids k x hx] <;> omega
  · intro hno e he hlt hle
    obtain ⟨b, hb, rfl⟩ := inv.getElem?_of_mem_queue he
    exact hno _ b hle (by omega) hb

theorem lastIdBefore_succ (inv : EventsInv h history lo chain) (hq : lo ≤ q)
    (hlt : q < history.length) : h.lastIdBefore (q + 1) = q := by
  have hget : history[q]? = some history[q] := List.getElem?_eq_getElem hlt
  have hid := inv.isHistory.ids q _ hget
  have hmax : ((h.eventsQueue.filter (fun heq ↦ decide (heq.id < q + 1))).map Event.id).max? =
      some q := by
    rw [List.max?_eq_some_iff]
    constructor
    · refine List.mem_map.mpr ⟨_, List.mem_filter.mpr ⟨inv.mem_queue hget (.inr hq), ?_⟩, hid⟩
      rw [decide_eq_true_eq, hid]
      exact q.lt_succ_self
    · intro i hi
      obtain ⟨e, he, rfl⟩ := List.mem_map.mp hi
      exact Nat.le_of_lt_succ (of_decide_eq_true (List.mem_filter.mp he).2)
  rw [Hafd.lastIdBefore, hmax, Option.getD_some]

/-- The context learns that the blocks up to `n` are irreversible. On irreversible blocks it is told
so by hived's state, else by the newest event that is not behind a fork. -/
structure Learns (h : Hafd) (history : List HistoryEntry) (c : Context ρ) (n : ℕ) : Prop where
  le : c.irreversibleBlock ≤ n
  le_head : n ≤ h.irreversibleHead
  on : onIrreversible h c → n = h.irreversibleHead
  source : ¬ onIrreversible h c → n = c.irreversibleBlock ∨ ∃ i a, c.eventsId < i ∧
    history[i]? = some a ∧ NoFork history c.eventsId i ∧ a.irr = n
  newest : ¬ onIrreversible h c → ∀ i a, c.eventsId < i → history[i]? = some a →
    a.event.event.IsIrreversible → NoFork history c.eventsId i → a.irr ≤ n

theorem mem_nextIrreversibleEvent (inv : EventsInv h history lo chain) {irr : ℕ} (hp : lo ≤ p)
    {e : Event} : e ∈ h.eventsQueue.filter (fun heq ↦ decide (p < heq.id ∧
      (heq.event = .massiveSync ∨ heq.event = .newIrreversible) ∧
      heq.id < ((h.nextBackFromFork p).map Event.id).getD unreachableEventId ∧
      irr < heq.blockNum)) ↔
    ∃ i a, history[i]? = some a ∧ a.event = e ∧ p < i ∧ a.event.event.IsIrreversible ∧
      NoFork history p i ∧ irr < a.irr := by
  rw [List.mem_filter, decide_eq_true_eq]
  constructor
  · rintro ⟨he, hlt, htype, hbff, hirr⟩
    have hlen := inv.id_lt_length he
    obtain ⟨a, ha, rfl⟩ := inv.getElem?_of_mem_queue he
    refine ⟨_, a, ha, rfl, hlt, htype.symm, (inv.lt_nextBackFromFork_iff hp hlen).mp hbff, ?_⟩
    rwa [inv.isHistory.irr_of_irreversible ha htype.symm]
  · rintro ⟨i, a, ha, rfl, hlt, htype, hno, hirr⟩
    have hlen := (List.getElem?_eq_some_iff.mp ha).1
    rw [inv.isHistory.irr_of_irreversible ha htype] at hirr
    rw [inv.isHistory.ids i a ha]
    exact ⟨inv.mem_queue_of_le hp hlt.le ha, hlt, htype.symm,
      (inv.lt_nextBackFromFork_iff hp hlen).mpr hno, hirr⟩

theorem updateIrreversible_learns (inv : EventsInv h history lo chain)
    (hirr : c.irreversibleBlock ≤ h.irreversibleHead) (hp : lo ≤ c.eventsId) :
    ∃ n, Learns h history c n ∧ (c.updateIrreversible h).irreversibleBlock = n ∧
      ((c.updateIrreversible h).tables = c.tables.map (removeObsoleteOperations n) ∨
        (c.updateIrreversible h).tables = c.tables) := by
  have hset : ∀ n, c.newIrreversible h = some n → (c.updateIrreversible h).irreversibleBlock = n ∧
      ((c.updateIrreversible h).tables = c.tables.map (removeObsoleteOperations n) ∨
        (c.updateIrreversible h).tables = c.tables) := by
    intro n hn
    rw [Context.updateIrreversible, hn]
    exact ⟨rfl, .inl rfl⟩
  by_cases hon : onIrreversible h c
  · refine ⟨h.irreversibleHead, ⟨hirr, le_rfl, fun _ ↦ rfl, fun hn ↦ absurd hon hn,
      fun hn ↦ absurd hon hn⟩, hset _ ?_⟩
    rw [Context.newIrreversible, if_pos hon]
  · cases hnext : h.nextIrreversibleEvent c.eventsId c.irreversibleBlock with
    | none =>
      refine ⟨c.irreversibleBlock, ⟨le_rfl, hirr, fun hn ↦ absurd hn hon, fun _ ↦ .inl rfl,
        fun _ i a hi ha htype hno ↦ ?_⟩, ?_⟩
      · rw [Hafd.nextIrreversibleEvent, lastEvent, List.argmax_eq_none] at hnext
        by_contra hlt
        have hmem := (mem_nextIrreversibleEvent inv hp).mpr
          ⟨i, a, ha, rfl, hi, htype, hno, not_le.mp hlt⟩
        rw [hnext] at hmem
        exact absurd hmem (by simp)
      · rw [Context.updateIrreversible, Context.newIrreversible, if_neg hon, hnext]
        exact ⟨rfl, .inr rfl⟩
    | some e =>
      obtain ⟨i, a, ha, rfl, hi, htype, hno, hlt⟩ :=
        (mem_nextIrreversibleEvent inv hp).mp (List.argmax_mem hnext)
      have hnum := inv.isHistory.irr_of_irreversible ha htype
      refine ⟨a.irr, ⟨hlt.le, inv.irr_le ha, fun hn ↦ absurd hn hon,
        fun _ ↦ .inr ⟨i, a, hi, ha, hno, rfl⟩, fun _ j b hj hb hbtype hbno ↦ ?_⟩, hset _ ?_⟩
      · by_contra hab
        have hmem := (mem_nextIrreversibleEvent inv hp).mpr
          ⟨j, b, hb, rfl, hj, hbtype, hbno, hlt.trans (not_le.mp hab)⟩
        have hle := List.le_of_mem_argmax hmem hnext
        rw [inv.isHistory.ids i a ha, inv.isHistory.ids j b hb] at hle
        exact hab (inv.isHistory.precedes hle hb ha).irr
      · rw [Context.newIrreversible, if_neg hon, hnext, hnum, Option.map_some]

/-- What `hive.squash_events` can do to a context. -/
inductive Squashed (h : Hafd) (history : List HistoryEntry) (c : Context ρ) : Context ρ → Prop
  | fresh (hp : c.eventsId = 0) : Squashed h history c c
  | updated (hp : c.eventsId ≠ 0)
      (hsync : ∀ i a, c.eventsId < i → history[i]? = some a → a.event.event ≠ .massiveSync) :
      Squashed h history c (c.updateIrreversible h)
  | forked {q : ℕ} {a : HistoryEntry} (hp : c.eventsId ≠ 0)
      (hsync : ∀ i a, c.eventsId < i → history[i]? = some a → a.event.event ≠ .massiveSync)
      (hq : c.eventsId ≤ q) (ha : history[q + 1]? = some a)
      (hev : a.event.event = .backFromFork) (hheight : a.height ≤ c.currentBlockNum)
      (hirr : ∀ i b, c.eventsId < i → i ≤ q → history[i]? = some b →
        ¬ b.event.event.IsIrreversible) :
      Squashed h history c { c.updateIrreversible h with eventsId := q }
  | synced {q : ℕ} {a : HistoryEntry} (hp : c.eventsId ≠ 0) (hq : c.eventsId ≤ q)
      (ha : history[q + 1]? = some a) (hev : a.event.event = .massiveSync)
      (hno : NoFork history c.eventsId q) :
      Squashed h history c { c.updateIrreversible h with eventsId := q }
  | rewound {q : ℕ} {a : HistoryEntry} (hp : c.eventsId ≠ 0) (hq : c.eventsId ≤ q)
      (ha : history[q + 1]? = some a) (hev : a.event.event = .massiveSync) :
      Squashed h history c { (c.updateIrreversible h).backFromFork
        (c.updateIrreversible h).irreversibleBlock with eventsId := q }

theorem Squashed.irreversibleBlock_le (inv : EventsInv h history lo chain)
    (hc : Grounded h history lo c) (hs : Squashed h history c s) :
    c.irreversibleBlock ≤ s.irreversibleBlock ∧ s.irreversibleBlock ≤ h.irreversibleHead := by
  have hupdate : c.eventsId ≠ 0 → c.irreversibleBlock ≤ (c.updateIrreversible h).irreversibleBlock ∧
      (c.updateIrreversible h).irreversibleBlock ≤ h.irreversibleHead := by
    intro hp
    obtain ⟨n, hlearns, hn, -⟩ :=
      updateIrreversible_learns inv hc.irr_le (hc.refersTo.kept.resolve_left hp)
    exact hn ▸ ⟨hlearns.le, hlearns.le_head⟩
  cases hs with
  | fresh hp => exact ⟨le_rfl, hc.irr_le⟩
  | updated hp => exact hupdate hp
  | forked hp => exact hupdate hp
  | synced hp => exact hupdate hp
  | rewound hp =>
    dsimp only
    rw [Context.backFromFork_irreversibleBlock]
    exact hupdate hp

theorem updateIrreversible_currentBlockNum (h : Hafd) (c : Context ρ) :
    (c.updateIrreversible h).currentBlockNum = c.currentBlockNum := by
  rw [Context.updateIrreversible]
  cases c.newIrreversible h <;> rfl

theorem Squashed.currentBlockNum_le (hs : Squashed h history c s) :
    s.currentBlockNum ≤ c.currentBlockNum := by
  cases hs with
  | fresh => exact le_rfl
  | updated => exact (updateIrreversible_currentBlockNum h c).le
  | forked => exact (updateIrreversible_currentBlockNum h c).le
  | synced => exact (updateIrreversible_currentBlockNum h c).le
  | rewound =>
    dsimp only
    rw [Context.backFromFork_currentBlockNum, updateIrreversible_currentBlockNum]
    exact Nat.min_le_left _ _

theorem StorageInv.fork_unique
    (storage : StorageInv h chain' stored) {f g : Fork} (hf : f ∈ h.forks) (hg : g ∈ h.forks)
    (hid : f.id = g.id) : f = g := by
  have hnodup : (h.forks.map Fork.id).Nodup := by
    rw [storage.forkIds]
    exact List.nodup_range'
  exact List.inj_on_of_nodup_map hnodup hf hg hid

theorem EventsInv.fork_of_event
    (inv : EventsInv h history lo chain) (storage : StorageInv h chain' stored) {i : ℕ}
    {a : HistoryEntry} (ha : history[i]? = some a) (hev : a.event.event = .backFromFork) {f : Fork}
    (hf : f ∈ h.forks) (hid : f.id = a.event.blockNum) : f = ⟨a.forkId, a.height⟩ := by
  refine storage.fork_unique hf (inv.forkOfEvent a (List.mem_of_getElem? ha) hev) ?_
  rw [hid]
  cases i with
  | zero =>
    rw [inv.isHistory.getElem?_zero, Option.some.injEq] at ha
    subst ha
    cases hev
  | succ i =>
    obtain ⟨b, -, hstep⟩ := inv.isHistory.exists_pred ha
    exact (hstep.backFromFork hev).2.2.2.1

theorem squash_squashed (inv : EventsInv h history lo chain) (storage : StorageInv h chain' stored)
    (hc : RefersTo history lo c.eventsId) : Squashed h history c (c.squash h) := by
  rw [Context.squash]
  split
  · exact .fresh ‹_›
  · rename_i hp
    have hlo : lo ≤ c.eventsId := hc.kept.resolve_left hp
    cases hms : h.nextMassiveSyncEvent c.eventsId with
    | some e =>
      obtain ⟨hmem, hcond⟩ := List.mem_filter.mp (List.argmax_mem hms)
      obtain ⟨hev, hlt⟩ := of_decide_eq_true hcond
      obtain ⟨a, ha, rfl⟩ := inv.getElem?_of_mem_queue hmem
      obtain ⟨q, hq⟩ : ∃ q, a.event.id = q + 1 := ⟨a.event.id - 1, by omega⟩
      rw [hq] at ha hlt
      have hlen := (List.getElem?_eq_some_iff.mp ha).1
      rw [Option.elim_some, Context.squashMassiveSync, updateIrreversible_eventsId, hq,
        lastIdBefore_succ inv (by omega) (by omega)]
      cases hfork : h.forkBetween c.eventsId (q + 1) with
      | false =>
        rw [if_neg Bool.false_ne_true]
        exact .synced hp (by omega) ha hev ((forkBetween_eq_false_iff inv hlo).mp hfork)
      | true =>
        rw [if_pos rfl, contextBackFromFork_full storage.full]
        exact .rewound hp (by omega) ha hev
    | none =>
      have hsync : ∀ i a, c.eventsId < i → history[i]? = some a →
          a.event.event ≠ .massiveSync := by
        rw [Hafd.nextMassiveSyncEvent, lastEvent, List.argmax_eq_none,
          List.filter_eq_nil_iff] at hms
        intro i a hi ha hev
        refine hms _ (inv.mem_queue_of_le hlo hi.le ha) (decide_eq_true ⟨hev, ?_⟩)
        rwa [inv.isHistory.ids i a ha]
      rw [Option.elim_none, Context.squashFork]
      cases hfork : (c.updateIrreversible h).forkToSquash h with
      | none => exact .updated hp hsync
      | some e =>
        rw [Context.forkToSquash, Option.filter_eq_some_iff, updateIrreversible_eventsId,
          updateIrreversible_currentBlockNum] at hfork
        obtain ⟨hnext, hbetween⟩ := hfork
        obtain ⟨hmem, hev, hlt, f, hf, hid, hle⟩ := mem_nextForkEvent hnext
        obtain ⟨a, ha, rfl⟩ := inv.getElem?_of_mem_queue hmem
        have hfork := inv.fork_of_event storage ha hev hf hid
        obtain ⟨q, hq⟩ : ∃ q, a.event.id = q + 1 := ⟨a.event.id - 1, by omega⟩
        rw [hq] at ha hlt hbetween
        rw [Bool.not_eq_true', irreversibleBetween_eq_false_iff inv hlo] at hbetween
        rw [Option.elim_some, hq]
        exact .forked hp hsync (by omega) ha hev (by rw [hfork] at hle; exact hle) hbetween

end HiveForkManager
