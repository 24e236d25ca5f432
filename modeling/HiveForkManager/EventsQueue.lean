import HiveForkManager.History

namespace HiveForkManager

open HistoryEntry

variable {ρ : Type} {h h' : Hafd} {history : List HistoryEntry} {lo : ℕ} {chain : List BlockData}

/-- The queue holds event 0 and the events from `lo` on; the last event left hived on `chain`. -/
structure EventsInv (h : Hafd) (history : List HistoryEntry) (lo : ℕ) (chain : List BlockData) :
    Prop where
  isHistory : IsHistory history
  seq : h.eventsIdSeq = history.length
  seq_le : history.length ≤ unreachableEventId
  lo_le : lo ≤ history.length
  queue : ∀ e, e ∈ h.eventsQueue ↔ (∃ a ∈ history, a.event = e) ∧ (e.id = 0 ∨ lo ≤ e.id)
  last : ∃ a, history.getLast? = some a ∧ a.chain = chain ∧ a.forkId = h.maxFork ∧
    a.consistentBlock = h.consistentBlock
  forkOfEvent : ∀ a ∈ history, a.event.event = .backFromFork →
    (⟨a.forkId, a.height⟩ : Fork) ∈ h.forks
  eventOfFork : ∀ g ∈ h.forks, g.id ≠ 1 → ∃ a ∈ history, a.event.event = .backFromFork ∧
    a.forkId = g.id
  irreversibleEvent : ∀ n, h.consistentBlock = some n → ∃ a ∈ history, lo ≤ a.event.id ∧
    (a.event.event = .newIrreversible ∨ a.event.event = .massiveSync) ∧ a.event.blockNum = n
  nothingRemoved : h.consistentBlock = none → lo = 0
  aboveKept : ∀ i a, history[i]? = some a → a.event.event = .newBlock →
    h.irreversibleHead < a.height → lo ≤ i

/-- The first event that `hive.remove_unecessary_events` keeps, apart from event 0. -/
def cleanupBound (n : ℕ) (db : Db ρ) (length : ℕ) : ℕ :=
  min (min (((db.eventsQueue.filter (fun e ↦ decide (e.event ≠ .backFromFork ∧
    e.blockNum = n + 1))).map Event.id).min?.getD length)
    ((db.contexts.map Context.eventsId).min?.getD length)) length

theorem cleanupBound_le_length (n : ℕ) (db : Db ρ) (length : ℕ) :
    cleanupBound n db length ≤ length := Nat.min_le_right _ _

theorem cleanupBound_le_eventsId {n length : ℕ} {db : Db ρ} {c : Context ρ}
    (hc : c ∈ db.contexts) : cleanupBound n db length ≤ c.eventsId := by
  have hmem := List.mem_map_of_mem (f := Context.eventsId) hc
  cases hmin : (db.contexts.map Context.eventsId).min? with
  | none =>
    rw [List.min?_eq_none_iff] at hmin
    rw [hmin] at hmem
    exact absurd hmem (by simp)
  | some m =>
    have hle := (List.min?_eq_some_iff.mp hmin).2 _ hmem
    rw [cleanupBound, hmin, Option.getD_some]
    omega

namespace EventsInv

variable {e : Event} {i : ℕ} {a : HistoryEntry}

theorem getElem?_of_mem_queue (inv : EventsInv h history lo chain)
    (he : e ∈ h.eventsQueue) : ∃ a, history[e.id]? = some a ∧ a.event = e := by
  obtain ⟨⟨a, ha, rfl⟩, -⟩ := (inv.queue e).mp he
  exact ⟨a, inv.isHistory.exists_of_mem ha, rfl⟩

theorem mem_queue (inv : EventsInv h history lo chain)
    (ha : history[i]? = some a) (hi : i = 0 ∨ lo ≤ i) : a.event ∈ h.eventsQueue := by
  rw [inv.queue]
  refine ⟨⟨a, List.mem_of_getElem? ha, rfl⟩, ?_⟩
  rwa [inv.isHistory.ids i a ha]

theorem id_lt_length (inv : EventsInv h history lo chain) (he : e ∈ h.eventsQueue) :
    e.id < history.length := by
  obtain ⟨a, ha, -⟩ := inv.getElem?_of_mem_queue he
  exact (List.getElem?_eq_some_iff.mp ha).1

theorem min_id (inv : EventsInv h history lo chain) :
    (h.eventsQueue.map Event.id).min? = some 0 := by
  rw [List.min?_eq_some_iff]
  exact ⟨List.mem_map.mpr ⟨origin.event, inv.mem_queue inv.isHistory.getElem?_zero (.inl rfl), rfl⟩,
    fun _ _ ↦ Nat.zero_le _⟩

theorem exists_last (inv : EventsInv h history lo chain) :
    ∃ a, history[history.length - 1]? = some a ∧ a.chain = chain ∧ a.forkId = h.maxFork ∧
      a.consistentBlock = h.consistentBlock := by
  obtain ⟨a, ha, hrest⟩ := inv.last
  rw [List.getLast?_eq_getElem?] at ha
  exact ⟨a, ha, hrest⟩

theorem irr_le (inv : EventsInv h history lo chain)
    (ha : history[i]? = some a) : a.irr ≤ h.irreversibleHead := by
  obtain ⟨b, hb, -, -, hcons⟩ := inv.exists_last
  have hi := (List.getElem?_eq_some_iff.mp ha).1
  have hle := (inv.isHistory.precedes (by omega) ha hb).irr
  rwa [irr, irr, hcons] at hle

theorem blockNum_le (inv : EventsInv h history lo chain) (he : e ∈ h.eventsQueue)
    (htype : e.event = .newIrreversible ∨ e.event = .massiveSync) :
    e.blockNum ≤ h.irreversibleHead := by
  obtain ⟨a, ha, rfl⟩ := inv.getElem?_of_mem_queue he
  rw [← inv.isHistory.irr_of_irreversible ha htype]
  exact inv.irr_le ha

theorem cleanupBound_le (inv : EventsInv h history lo chain) {db : Db ρ} {n : ℕ}
    (hqueue : db.eventsQueue = h.eventsQueue) (hn : h.irreversibleHead ≤ n)
    (ha : history[i]? = some a) (hlt : n < a.height) : cleanupBound n db history.length ≤ i := by
  have hirr : ∀ x ∈ history, x.irr ≤ n := by
    intro x hx
    exact (inv.irr_le (inv.isHistory.exists_of_mem hx)).trans hn
  obtain ⟨j, b, hj, hb, hev, hheight⟩ := inv.isHistory.exists_newBlock hirr ha hlt
  have hkept := inv.aboveKept j b hb hev (by omega)
  have hid := inv.isHistory.ids j b hb
  have hmem : j ∈ (db.eventsQueue.filter (fun e ↦ decide (e.event ≠ .backFromFork ∧
      e.blockNum = n + 1))).map Event.id := by
    refine List.mem_map.mpr ⟨b.event, List.mem_filter.mpr ⟨?_, decide_eq_true ⟨?_, ?_⟩⟩, hid⟩
    · rw [hqueue]
      exact inv.mem_queue hb (.inr hkept)
    · rw [hev]
      simp
    · rw [inv.isHistory.blockNum_of_newBlock hb hev, hheight]
  cases hmin : ((db.eventsQueue.filter (fun e ↦ decide (e.event ≠ .backFromFork ∧
      e.blockNum = n + 1))).map Event.id).min? with
  | none =>
    rw [List.min?_eq_none_iff] at hmin
    rw [hmin] at hmem
    exact absurd hmem (by simp)
  | some m =>
    have hle := (List.min?_eq_some_iff.mp hmin).2 _ hmem
    rw [cleanupBound, hmin, Option.getD_some]
    omega

theorem emit (inv : EventsInv h history lo chain) {b : HistoryEntry} {lo' : ℕ}
    (ha : history.getLast? = some a) (hb : a.Follows b)
    (hid : b.event.id = h.eventsIdSeq) (hne : h.eventsIdSeq ≠ unreachableEventId)
    (hlo : lo ≤ lo') (hlo' : lo' ≤ history.length)
    (hqueue : ∀ e, e ∈ h'.eventsQueue ↔
      (e ∈ h.eventsQueue ∧ (e.id = 0 ∨ lo' ≤ e.id)) ∨ e = b.event)
    (hseq : h'.eventsIdSeq = h.eventsIdSeq + 1) (hfork : b.forkId = h'.maxFork)
    (hcons : b.consistentBlock = h'.consistentBlock)
    (hforks : ∀ g, g ∈ h'.forks ↔ g ∈ h.forks ∨
      (b.event.event = .backFromFork ∧ g = ⟨b.forkId, b.height⟩))
    (hirr : (h'.consistentBlock = h.consistentBlock ∧ lo' = lo) ∨
      ((b.event.event = .newIrreversible ∨ b.event.event = .massiveSync) ∧
        h'.consistentBlock = some b.event.blockNum))
    (habove : ∀ i a, history[i]? = some a → a.event.event = .newBlock →
      h'.irreversibleHead < a.height → lo' ≤ i) :
    EventsInv h' (history ++ [b]) lo' b.chain where
  isHistory := inv.isHistory.append ha hb (hid.trans inv.seq)
  seq := by rw [hseq, inv.seq, List.length_append, List.length_singleton]
  seq_le := by
    have := inv.seq_le
    rw [inv.seq] at hne
    rw [List.length_append, List.length_singleton]
    omega
  lo_le := by
    rw [List.length_append, List.length_singleton]
    omega
  queue e := by
    rw [hqueue, inv.queue]
    constructor
    · rintro (⟨⟨⟨x, hx, hxe⟩, -⟩, hle⟩ | rfl)
      · exact ⟨⟨x, List.mem_append_left _ hx, hxe⟩, hle⟩
      · refine ⟨⟨b, List.mem_append_right _ List.mem_cons_self, rfl⟩, .inr ?_⟩
        rw [hid, inv.seq]
        exact hlo'
    · rintro ⟨⟨x, hx, hxe⟩, hle⟩
      rcases List.mem_append.mp hx with hx | hx
      · exact .inl ⟨⟨⟨x, hx, hxe⟩, hle.imp_right hlo.trans⟩, hle⟩
      · exact .inr (List.mem_singleton.mp hx ▸ hxe.symm)
  last := ⟨b, by simp, rfl, hfork, hcons⟩
  forkOfEvent x hx hev := by
    rw [hforks]
    rcases List.mem_append.mp hx with hx | hx
    · exact .inl (inv.forkOfEvent x hx hev)
    · rw [List.mem_singleton.mp hx] at hev ⊢
      exact .inr ⟨hev, rfl⟩
  eventOfFork g hg hne := by
    rcases (hforks g).mp hg with hg | ⟨hev, rfl⟩
    · obtain ⟨x, hx, hrest⟩ := inv.eventOfFork g hg hne
      exact ⟨x, List.mem_append_left _ hx, hrest⟩
    · exact ⟨b, List.mem_append_right _ List.mem_cons_self, hev, rfl⟩
  irreversibleEvent n hn := by
    rcases hirr with ⟨he, rfl⟩ | ⟨hev, he⟩
    · obtain ⟨x, hx, hrest⟩ := inv.irreversibleEvent n (he ▸ hn)
      exact ⟨x, List.mem_append_left _ hx, hrest⟩
    · refine ⟨b, List.mem_append_right _ List.mem_cons_self, ?_, hev, ?_⟩
      · rw [hid, inv.seq]
        exact hlo'
      · exact Option.some.inj (he.symm.trans hn)
  nothingRemoved hn := by
    rcases hirr with ⟨he, rfl⟩ | ⟨-, he⟩
    · exact inv.nothingRemoved (he ▸ hn)
    · exact absurd (he.symm.trans hn) (by simp)
  aboveKept i x hx hev hlt := by
    rcases Nat.lt_or_ge i history.length with hi | hi
    · rw [List.getElem?_append_left hi] at hx
      exact habove i x hx hev hlt
    · exact hlo'.trans hi

end EventsInv

/-- The event id of a context names an event that is still in the queue, or the sink. -/
structure RefersTo (history : List HistoryEntry) (lo eventsId : ℕ) : Prop where
  kept : eventsId = 0 ∨ lo ≤ eventsId
  known : eventsId < history.length ∨ eventsId = unreachableEventId

namespace RefersTo

theorem append {eventsId : ℕ} (h : RefersTo history lo eventsId) (more : List HistoryEntry) :
    RefersTo (history ++ more) lo eventsId :=
  ⟨h.kept, h.known.imp_left fun hlt ↦ by
    rw [List.length_append]
    exact hlt.trans_le (Nat.le_add_right _ _)⟩

theorem of_mem_queue (inv : EventsInv h history lo chain) {e : Event} (he : e ∈ h.eventsQueue) :
    RefersTo history lo e.id :=
  ⟨((inv.queue e).mp he).2, .inl (inv.id_lt_length he)⟩

theorem zero (inv : EventsInv h history lo chain) : RefersTo history lo 0 :=
  ⟨.inl rfl, .inl inv.isHistory.length_pos⟩

theorem sink (inv : EventsInv h history lo chain) : RefersTo history lo unreachableEventId :=
  ⟨.inr (inv.lo_le.trans inv.seq_le), .inr rfl⟩

end RefersTo

theorem removeUnecessaryEvents_queue {n length : ℕ} {db : Db ρ} {e : Event}
    (hlt : ∀ e ∈ db.eventsQueue, e.id < length) :
    e ∈ (removeUnecessaryEvents n db).eventsQueue ↔
      e ∈ db.eventsQueue ∧ (e.id = 0 ∨ cleanupBound n db length ≤ e.id) := by
  have hbelow : ∀ (o : Option ℕ), e.id < length → ((∀ u ∈ o, e.id < u) ↔ e.id < o.getD length) := by
    intro o hl
    cases o with
    | none => simpa using hl
    | some u => simp
  simp only [removeUnecessaryEvents, List.mem_filter]
  refine and_congr_right fun he ↦ ?_
  have hl := hlt e he
  rw [Bool.not_eq_true', Bool.and_eq_false_iff, Bool.and_eq_false_iff, decide_eq_false_iff_not,
    decide_eq_false_iff_not, decide_eq_false_iff_not, hbelow _ hl, hbelow _ hl, cleanupBound]
  omega

end HiveForkManager
