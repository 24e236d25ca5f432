import HiveForkManager.EventsQueue
import HiveForkManager.StorageCopy

namespace HiveForkManager

open ForkStore HistoryEntry

variable {ρ : Type}

def World.announced (w : World ρ) : List BlockData :=
  if w.Published then w.chain else w.chain.take w.db.irreversibleHead

structure Grounded (h : Hafd) (history : List HistoryEntry) (lo : ℕ) (c : Context ρ) : Prop where
  refersTo : RefersTo history lo c.eventsId
  irr_le : c.irreversibleBlock ≤ h.irreversibleHead

structure WorldInv (w : World ρ) (stored : List (Reversible BlockData)) (lo : ℕ) : Prop where
  storage : StorageInv w.db.toHafd w.chain stored
  events : EventsInv w.db.toHafd w.history lo w.announced
  contexts : ∀ c ∈ w.db.contexts, Grounded w.db.toHafd w.history lo c
  names : (w.db.contexts.map Context.name).Nodup
  notPruned : w.db.hiveState.pruning = 0

theorem WorldInv.initial (ρ : Type) (state : SyncState) :
    WorldInv (World.initial ρ state) [] 0 where
  storage :=
    ⟨rfl, rfl, rfl, Consistent.nil _, by simp [World.initial], by simp, List.nodup_nil,
      List.Pairwise.nil, by simp, rfl, Nat.one_pos, le_rfl, fun h ↦ absurd h (lt_irrefl _)⟩
  events := by
    refine ⟨IsHistory.initial, rfl, ?_, Nat.zero_le _, ?_, ⟨origin, rfl, rfl, rfl, rfl⟩,
      ?_, ?_, ?_, fun _ ↦ rfl, fun i _ _ _ _ ↦ i.zero_le⟩
    · simp [World.initial, unreachableEventId]
    · simp [World.initial, Db.initial, Hafd.initial, eq_comm]
    · simp [World.initial]
    · simp [World.initial, Db.initial, Hafd.initial]
    · simp [World.initial, Hafd.consistentBlock]
  contexts := by simp [World.initial, Db.initial]
  names := by simp [World.initial, Db.initial]
  notPruned := rfl

section Calls

variable {db db' : Db ρ} {h h' : Hafd} {n : ℕ} {lock : Bool} {type : EventType}

def Hafd.withEvent (type : EventType) (n : ℕ) (h : Hafd) : Hafd :=
  { h with
    eventsQueue := h.eventsQueue ++ [⟨h.eventsIdSeq, type, n⟩]
    eventsIdSeq := h.eventsIdSeq + 1 }

/-- The tables after `n` became the consistent block. -/
def Hafd.withConsistentBlock (n : ℕ) (h : Hafd) : Hafd :=
  { h with hiveState := { h.hiveState with consistentBlock := some n } }

def Hafd.withBlock (d : BlockData) (h : Hafd) : Hafd :=
  { h with reversible := h.reversible.insert d h.maxFork }

def Hafd.withFork (k : ℕ) (h : Hafd) : Hafd :=
  { h with forks := h.forks ++ [⟨h.maxFork + 1, k⟩] }

theorem insertEvent_eq_ok : h.insertEvent type n = .ok h' ↔
    h.eventsIdSeq ≠ unreachableEventId ∧ h' = h.withEvent type n := by
  rw [Hafd.insertEvent]
  split <;> rename_i hid
  · simp [hid]
  · simp only [Except.ok.injEq, ne_eq, hid, not_false_eq_true, true_and, eq_comm]
    rfl

theorem announce_eq_ok : h.announce type n = .ok h' ↔
    h.eventsIdSeq ≠ unreachableEventId ∧ (∃ b ∈ h.irreversible.blocks, b.num = n) ∧
      h' = (h.withConsistentBlock n).withEvent type n := by
  have hset : (h.withEvent type n).setConsistentBlock n = .ok h' ↔
      (∃ b ∈ h.irreversible.blocks, b.num = n) ∧
        h' = (h.withConsistentBlock n).withEvent type n := by
    simp only [Hafd.setConsistentBlock, Hafd.withEvent, List.any_eq_true, decide_eq_true_eq]
    split <;> rename_i hb
    · rw [and_iff_right hb, Except.ok.injEq, eq_comm]
      rfl
    · simp [hb]
  rw [← hset, Hafd.announce]
  cases hins : h.insertEvent type n with
  | error e =>
    have hseq : ¬ h.eventsIdSeq ≠ unreachableEventId := fun hne ↦
      absurd (hins.symm.trans (insertEvent_eq_ok.mpr ⟨hne, rfl⟩)) (by simp)
    simp only [hseq, false_and, iff_false]
    exact fun he ↦ by cases he
  | ok h₁ =>
    obtain ⟨hne, rfl⟩ := insertEvent_eq_ok.mp hins
    simp only [hne, ne_eq, not_false_eq_true, true_and]
    rfl

theorem pushBlock_eq_ok {d : BlockData} (hfull : db.hiveState.liteMode = false)
    (hok : pushBlock d lock db = .ok db') :
    db.eventsIdSeq ≠ unreachableEventId ∧
      db' = { db with toHafd := (db.toHafd.withBlock d).withEvent .newBlock d.block.num } := by
  rw [pushBlock, hfull, if_neg Bool.false_ne_true] at hok
  cases hins : db.toHafd.insertEvent .newBlock d.block.num with
  | error e => rw [hins] at hok; cases hok
  | ok h₁ =>
    obtain ⟨hne, rfl⟩ := insertEvent_eq_ok.mp hins
    rw [hins] at hok
    simp only [bind, Except.bind] at hok
    split at hok
    · cases hok
    · simp only [pure, Except.pure, Except.ok.injEq] at hok
      exact ⟨hne, hok.symm⟩

theorem backFromFork_eq_ok {k : ℕ} (hfull : h.hiveState.liteMode = false)
    (hok : backFromFork k h = .ok h') :
    h.eventsIdSeq ≠ unreachableEventId ∧
      h' = (h.withFork k).withEvent .backFromFork (h.withFork k).maxFork := by
  rw [backFromFork, hfull, if_neg Bool.false_ne_true] at hok
  exact insertEvent_eq_ok.mp hok

/-- The database after an irreversible block was announced. The cleanup does not read the
consistent block, so it may as well come after it. -/
def Db.withAnnouncement (type : EventType) (n : ℕ) (lock : Bool) (db : Db ρ) : Db ρ :=
  let cleaned := cleanup n lock { db with toHafd := db.toHafd.withConsistentBlock n }
  { cleaned with toHafd := cleaned.toHafd.withEvent type n }

theorem cleanup_withConsistentBlock :
    cleanup n lock { db with toHafd := db.toHafd.withConsistentBlock n } =
      { cleanup n lock db with toHafd := (cleanup n lock db).toHafd.withConsistentBlock n } := by
  cases lock <;> rfl

theorem cleanup_irreversible (n : ℕ) (lock : Bool) (db : Db ρ) :
    (cleanup n lock db).irreversible = db.irreversible := by
  cases lock <;> rfl

theorem cleanup_eventsIdSeq (n : ℕ) (lock : Bool) (db : Db ρ) :
    (cleanup n lock db).eventsIdSeq = db.eventsIdSeq := by
  cases lock <;> rfl

theorem cleanup_announce_eq_ok :
    (do
      let h ← (cleanup n lock db).toHafd.announce type n
      pure { cleanup n lock db with toHafd := h }) = (.ok db' : Except Error (Db ρ)) ↔
    db.eventsIdSeq ≠ unreachableEventId ∧ (∃ b ∈ db.irreversible.blocks, b.num = n) ∧
      db' = db.withAnnouncement type n lock := by
  have hform : db.withAnnouncement type n lock = { cleanup n lock db with
      toHafd := ((cleanup n lock db).toHafd.withConsistentBlock n).withEvent type n } := by
    rw [Db.withAnnouncement, cleanup_withConsistentBlock]
  rw [hform, ← cleanup_eventsIdSeq n lock db, ← cleanup_irreversible n lock db]
  cases hann : (cleanup n lock db).toHafd.announce type n with
  | error e =>
    constructor
    · intro he
      cases he
    · rintro ⟨hseq, hb, -⟩
      cases hann.symm.trans (announce_eq_ok.mpr ⟨hseq, hb, rfl⟩)
  | ok h₁ =>
    obtain ⟨hseq, hb, rfl⟩ := announce_eq_ok.mp hann
    rw [and_iff_right hseq, and_iff_right hb, eq_comm]
    exact Iff.of_eq (Except.ok.injEq _ _)

variable {chain : List BlockData} {stored : List (Reversible BlockData)}

theorem exists_block_iff {m : ℕ} (hnum : Numbered BlockData.num chain) (hn : n ≤ m)
    (hm : m ≤ chain.length) :
    (∃ b ∈ (IrreversibleTables.ofChain (chain.take m)).blocks, b.num = n) ↔ 0 < n := by
  simp only [IrreversibleTables.ofChain, List.mem_map]
  constructor
  · rintro ⟨_, ⟨d, hd, rfl⟩, rfl⟩
    obtain ⟨i, hi⟩ := List.mem_iff_getElem?.mp hd
    have hi' := (hnum.take m) i d hi
    rw [BlockData.num] at hi'
    omega
  · intro hpos
    have hget : chain[n - 1]? = some chain[n - 1] := List.getElem?_eq_getElem (by omega)
    have hd : (chain.take m)[n - 1]? = some chain[n - 1] := by
      rw [List.getElem?_take, if_pos (by omega), hget]
    refine ⟨_, ⟨_, List.mem_of_getElem? hd, rfl⟩, ?_⟩
    have hn' := hnum _ _ hget
    rw [BlockData.num] at hn'
    omega

theorem setIrreversible_eq_ok (inv : StorageInv db.toHafd chain stored)
    (hn : db.headOfBlocks ≤ n) (hlen : n ≤ chain.length) :
    setIrreversible n lock db = .ok db' ↔ db.eventsIdSeq ≠ unreachableEventId ∧ 0 < n ∧
      db' = Db.withAnnouncement .newIrreversible n lock
        { db with irreversible := .ofChain (chain.take n) } := by
  rw [setIrreversible, inv.full, if_neg Bool.false_ne_true, if_neg (Nat.not_lt.mpr hn),
    copyToIrreversible_eq inv hn hlen]
  refine cleanup_announce_eq_ok.trans ?_
  rw [exists_block_iff inv.consistent.numbered le_rfl hlen]

theorem endMassiveSync_eq_ok (inv : StorageInv db.toHafd chain stored)
    (hn : n ≤ db.headOfBlocks) :
    endMassiveSync n lock db = .ok db' ↔ db.eventsIdSeq ≠ unreachableEventId ∧ 0 < n ∧
      db' = db.withAnnouncement .massiveSync n lock := by
  rw [endMassiveSync]
  refine cleanup_announce_eq_ok.trans ?_
  rw [inv.irreversible, exists_block_iff inv.consistent.numbered hn inv.head_le_length]

end Calls

end HiveForkManager
