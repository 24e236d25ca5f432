import HiveForkManager.CallFrame
import HiveForkManager.ViewAgreement

namespace HiveForkManager

variable {ρ α : Type} {h : Hafd} {c : Context ρ}

def dropTimestamp (row : (Operation × ℕ) × String) : Operation × String := (row.1.1, row.2)

/-- The time is that of the block of the operation's number, as the blocks view shows it. -/
def ShowsTimestamp (blocks : List Block) (operation : Operation) (timestamp : ℕ) : Prop :=
  (∃ b ∈ blocks, b.num = operationIdToBlockNum operation.id) ∧
    ∀ b ∈ blocks, b.num = operationIdToBlockNum operation.id → b.createdAt = timestamp

/-- An extended view shows the rows of the plain one, each with the time of its block. -/
structure AddsTimestamp (extended : List ((Operation × ℕ) × String))
    (plain : List (Operation × String)) (blocks : List Block) : Prop where
  rows : (extended.map dropTimestamp).Perm plain
  timestamps : ∀ row ∈ extended, ShowsTimestamp blocks row.1.1 row.1.2

/-- Every shown reversible operation of a known type has one reversible block of its number, and no
two shown blocks of an operation's number differ in their time. -/
structure Timed (types : List OperationType) (forks : List (ℕ × ℕ)) (t : ReversibleTables)
    (plain : List (Operation × String)) (blocks : List Block) : Prop where
  one : ∀ o ∈ t.operations, (operationIdToBlockNum o.row.id, o.forkId) ∈ forks →
    (∃ ot ∈ types, ot.id = o.row.opTypeId) →
    (t.blocks.filter fun r ↦ decide (r.row.num = operationIdToBlockNum o.row.id)).length = 1
  same : ∀ row ∈ plain, ∀ b ∈ blocks, ∀ b' ∈ blocks, b.num = operationIdToBlockNum row.1.id →
    b'.num = operationIdToBlockNum row.1.id → b.createdAt = b'.createdAt

section Joins

theorem map_dropTimestamp_joinTypes (types : List OperationType) (rows : List (Operation × ℕ)) :
    (joinTypes types rows fun x ↦ x.1.opTypeId).map dropTimestamp =
      joinTypes types (rows.map Prod.fst) Operation.opTypeId := by
  rw [joinTypes, joinTypes, List.map_flatMap, List.flatMap_map]
  refine List.flatMap_congr fun x _ ↦ ?_
  rw [List.map_flatMap]
  refine List.flatMap_congr fun ot _ ↦ ?_
  split <;> rfl

theorem map_fst_blocks_loop {block : α → Block} {blocks : List α}
    (hnums : (blocks.map fun b ↦ (block b).num).Nodup) {n : ℕ}
    (hn : n ∈ blocks.map fun b ↦ (block b).num) (o : Operation) :
    (blocks.flatMap fun b ↦ if (block b).num = n then [(o, (block b).createdAt)] else []).map
      Prod.fst = [o] := by
  rw [List.map_flatMap]
  refine (List.flatMap_congr fun b _ ↦ ?_).trans
    ((Join.flatMap_ite_key hnums n [o]).trans (if_pos hn))
  split <;> rfl

theorem map_fst_operationTimes {operations : List Operation} {blocks : List Block}
    (hnums : (blocks.map Block.num).Nodup)
    (hblocks : ∀ o ∈ operations, operationIdToBlockNum o.id ∈ blocks.map Block.num) :
    (operationTimes operations blocks).map Prod.fst = operations := by
  rw [operationTimes, List.map_flatMap]
  refine (List.flatMap_congr fun o ho ↦ map_fst_blocks_loop hnums (hblocks o ho) o).trans ?_
  exact List.flatMap_singleton' operations

theorem map_fst_joinTimestamps {forks : List (ℕ × ℕ)} {operations : List (Reversible Operation)}
    {blocks : List (Reversible Block)} (hforks : forks.Nodup) :
    (joinTimestamps forks operations blocks).map Prod.fst = operations.flatMap fun o ↦
      if (operationIdToBlockNum o.row.id, o.forkId) ∈ forks then
        List.replicate (blocks.filter fun r ↦
          decide (r.row.num = operationIdToBlockNum o.row.id)).length o.row
      else [] := by
  rw [joinTimestamps, List.map_flatMap]
  refine List.flatMap_congr fun o _ ↦ ?_
  have hnodup : (forks.map id).Nodup := by rwa [List.map_id]
  have hkey := Join.flatMap_ite_key hnodup (operationIdToBlockNum o.row.id, o.forkId)
    (List.replicate (blocks.filter fun r ↦
      decide (r.row.num = operationIdToBlockNum o.row.id)).length o.row)
  simp only [List.map_id, id] at hkey
  refine Eq.trans ?_ (hkey.trans (by congr))
  rw [List.map_flatMap]
  refine List.flatMap_congr fun nf _ ↦ ?_
  by_cases hmatch : nf.1 = operationIdToBlockNum o.row.id ∧ nf.2 = o.forkId
  · rw [if_pos hmatch, if_pos (Prod.ext hmatch.1 hmatch.2), hmatch.1,
      Join.flatMap_ite_singleton, List.map_map]
    exact List.map_const'
  · rw [if_neg hmatch, if_neg fun heq ↦ hmatch (Prod.mk.inj heq)]
    rfl

theorem mem_operationTimes {operations : List Operation} {blocks : List Block} {x : Operation × ℕ}
    (hx : x ∈ operationTimes operations blocks) : x.1 ∈ operations ∧
      ∃ b ∈ blocks, b.num = operationIdToBlockNum x.1.id ∧ b.createdAt = x.2 := by
  obtain ⟨o, ho, hx⟩ := List.mem_flatMap.mp hx
  obtain ⟨b, hb, hx⟩ := List.mem_flatMap.mp hx
  split at hx
  case isTrue hnum =>
    obtain rfl := List.mem_singleton.mp hx
    exact ⟨ho, b, hb, hnum, rfl⟩
  case isFalse => cases hx

theorem mem_joinTimestamps {forks : List (ℕ × ℕ)} {operations : List (Reversible Operation)}
    {blocks : List (Reversible Block)} {x : Operation × ℕ}
    (hx : x ∈ joinTimestamps forks operations blocks) :
    ∃ o ∈ operations, o.row = x.1 ∧ (operationIdToBlockNum x.1.id, o.forkId) ∈ forks ∧
      ∃ b ∈ blocks, b.row.num = operationIdToBlockNum x.1.id ∧ b.row.createdAt = x.2 := by
  obtain ⟨o, ho, hx⟩ := List.mem_flatMap.mp hx
  obtain ⟨nf, hnf, hx⟩ := List.mem_flatMap.mp hx
  split at hx
  case isTrue hmatch =>
    obtain ⟨b, hb, hx⟩ := List.mem_flatMap.mp hx
    split at hx
    case isTrue hnum =>
      obtain rfl := List.mem_singleton.mp hx
      refine ⟨o, ho, rfl, ?_, b, hb, hnum.trans hmatch.1, rfl⟩
      rwa [← hmatch.1, ← hmatch.2]
    case isFalse => cases hx
  case isFalse => cases hx

theorem mem_joinTypes {types : List OperationType} {rows : List α} {opTypeId : α → ℤ}
    {row : α × String} (hrow : row ∈ joinTypes types rows opTypeId) :
    row.1 ∈ rows ∧ ∃ ot ∈ types, ot.id = opTypeId row.1 := by
  obtain ⟨x, hx, hrow⟩ := List.mem_flatMap.mp hrow
  obtain ⟨ot, hot, hrow⟩ := List.mem_flatMap.mp hrow
  split at hrow
  case isTrue hid =>
    obtain rfl := List.mem_singleton.mp hrow
    exact ⟨hx, ot, hot, hid⟩
  case isFalse => cases hrow

theorem joinTypes_replicate (types : List OperationType) (n : ℕ) (o : Operation) :
    (joinTypes types (List.replicate n o) Operation.opTypeId).length =
      n * (joinTypes types [o] Operation.opTypeId).length := by
  simp [joinTypes, List.length_flatMap]

theorem joinTypes_eq_nil {types : List OperationType} {o : Operation}
    (hnone : ¬ ∃ ot ∈ types, ot.id = o.opTypeId) (n : ℕ) :
    joinTypes types (List.replicate n o) Operation.opTypeId = [] := by
  refine List.eq_nil_iff_forall_not_mem.mpr fun row hrow ↦ ?_
  obtain ⟨hmem, hot⟩ := mem_joinTypes hrow
  rw [List.eq_of_mem_replicate hmem] at hot
  exact hnone hot

theorem joinTypes_pos {types : List OperationType} {o : Operation}
    (hot : ∃ ot ∈ types, ot.id = o.opTypeId) :
    0 < (joinTypes types [o] Operation.opTypeId).length := by
  obtain ⟨ot, hot, hid⟩ := hot
  refine List.length_pos_of_mem (a := (o, ot.name)) (List.mem_flatMap.mpr ⟨o, by simp, ?_⟩)
  exact List.mem_flatMap.mpr ⟨ot, hot, by simp [hid]⟩

theorem joinTypes_append (types : List OperationType) (rows rows' : List Operation) :
    joinTypes types (rows ++ rows') Operation.opTypeId =
      joinTypes types rows Operation.opTypeId ++ joinTypes types rows' Operation.opTypeId :=
  List.flatMap_append

theorem joinTypes_flatMap (types : List OperationType) (operations : List (Reversible Operation))
    (f : Reversible Operation → List Operation) :
    joinTypes types (operations.flatMap f) Operation.opTypeId =
      operations.flatMap fun o ↦ joinTypes types (f o) Operation.opTypeId :=
  List.flatMap_assoc

theorem eq_of_sum_eq {l : List α} {f g : α → ℕ} (hle : ∀ a ∈ l, f a ≤ g a)
    (hsum : (l.map f).sum = (l.map g).sum) : ∀ a ∈ l, f a = g a := by
  intro a ha
  by_contra hne
  exact (List.sum_lt_sum f g hle ⟨a, ha, lt_of_le_of_ne (hle a ha) hne⟩).ne hsum

end Joins

section Forks

variable {p : Reversible Block → Bool} {t : ReversibleTables} {types : List OperationType}

theorem nodup_newestNumAndForks
    (hpairs : (t.blocks.map fun r ↦ (r.row.num, r.forkId)).Nodup) :
    (newestNumAndForks (t.blocks.filter p)).Nodup :=
  hpairs.sublist ((List.filter_sublist.trans List.filter_sublist).map _)

theorem exists_of_mem_newest {nf : ℕ × ℕ} (hnf : nf ∈ newestNumAndForks (t.blocks.filter p)) :
    ∃ r ∈ t.blocks, (r.row.num, r.forkId) = nf := by
  obtain ⟨r, hr, heq⟩ := mem_newestNumAndForks.mp hnf
  exact ⟨r, List.mem_of_mem_filter (mem_newestForks.mp hr).1, heq⟩

local instance lawfulBEq_pair : LawfulBEq (ℕ × ℕ) := Prod.instLawfulBEq

def typedReversible (types : List OperationType) (forks : List (ℕ × ℕ)) (n : Operation → ℕ)
    (operations : List (Reversible Operation)) : List (Operation × String) :=
  operations.flatMap fun o ↦ joinTypes types
    (if (operationIdToBlockNum o.row.id, o.forkId) ∈ forks then List.replicate (n o.row) o.row
      else []) Operation.opTypeId

theorem typedReversible_perm_iff {forks : List (ℕ × ℕ)} {n : Operation → ℕ}
    {operations : List (Reversible Operation)}
    (hpos : ∀ o ∈ operations, (operationIdToBlockNum o.row.id, o.forkId) ∈ forks → 1 ≤ n o.row) :
    (typedReversible types forks n operations).Perm
        (typedReversible types forks (fun _ ↦ 1) operations) ↔
      ∀ o ∈ operations, (operationIdToBlockNum o.row.id, o.forkId) ∈ forks →
        (∃ ot ∈ types, ot.id = o.row.opTypeId) → n o.row = 1 := by
  constructor
  · intro hperm o ho hvisible hot
    have hlength := hperm.length_eq.symm
    simp only [typedReversible, List.length_flatMap] at hlength
    have heq := eq_of_sum_eq (fun o ho ↦ ?_) hlength o ho
    · simp only [if_pos hvisible, joinTypes_replicate] at heq
      exact (Nat.eq_of_mul_eq_mul_right (joinTypes_pos hot) heq).symm
    · split
      case isTrue hvisible =>
        simp only [joinTypes_replicate]
        exact Nat.mul_le_mul_right _ (hpos o ho hvisible)
      case isFalse => exact le_rfl
  · intro hone
    refine .of_eq (List.flatMap_congr fun o ho ↦ ?_)
    split
    case isTrue hvisible =>
      by_cases hot : ∃ ot ∈ types, ot.id = o.row.opTypeId
      · rw [hone o ho hvisible hot]
      · rw [joinTypes_eq_nil hot, joinTypes_eq_nil hot]
    case isFalse => rfl

theorem addsTimestamp_iff {irreversible : List Operation} {table shown : List Block}
    (htable : (table.map Block.num).Nodup)
    (hblocks : ∀ o ∈ irreversible, ∃ b ∈ shown, b.num = operationIdToBlockNum o.id)
    (hshown : shown.Sublist table)
    (hpairs : (t.blocks.map fun r ↦ (r.row.num, r.forkId)).Nodup) :
    let forks := newestNumAndForks (t.blocks.filter p)
    let plain := joinTypes types (irreversible ++ joinForks
      (fun x ↦ some (operationIdToBlockNum x.id)) forks t.operations) Operation.opTypeId
    let blocks := shown ++ joinForks (fun x ↦ some x.num) forks t.blocks
    AddsTimestamp
        (joinTypes types (operationTimes irreversible table ++
          joinTimestamps forks t.operations t.blocks) fun x ↦ x.1.opTypeId) plain blocks ↔
      Timed types forks t plain blocks := by
  intro forks plain blocks
  have hcount : ∀ o ∈ t.operations, (operationIdToBlockNum o.row.id, o.forkId) ∈ forks →
      1 ≤ (t.blocks.filter fun r ↦
        decide (r.row.num = operationIdToBlockNum o.row.id)).length := by
    intro o _ hvisible
    obtain ⟨r, hr, heq⟩ := exists_of_mem_newest hvisible
    exact List.length_pos_of_mem (List.mem_filter.mpr ⟨hr, decide_eq_true (Prod.mk.inj heq).1⟩)
  have hrows : ((joinTypes types (operationTimes irreversible table ++
      joinTimestamps forks t.operations t.blocks) fun x ↦ x.1.opTypeId).map dropTimestamp).Perm
        plain ↔ ∀ o ∈ t.operations, (operationIdToBlockNum o.row.id, o.forkId) ∈ forks →
      (∃ ot ∈ types, ot.id = o.row.opTypeId) →
      (t.blocks.filter fun r ↦
        decide (r.row.num = operationIdToBlockNum o.row.id)).length = 1 := by
    have hplain : plain = joinTypes types irreversible Operation.opTypeId ++
        typedReversible types forks (fun _ ↦ 1) t.operations := by
      simp only [plain]
      rw [joinForks_eq_flatMap (fun x : Operation ↦ operationIdToBlockNum x.id),
        joinTypes_append, joinTypes_flatMap]
      rfl
    rw [map_dropTimestamp_joinTypes, List.map_append, map_fst_operationTimes htable,
      map_fst_joinTimestamps (nodup_newestNumAndForks hpairs), hplain, joinTypes_append,
      joinTypes_flatMap, List.perm_append_left_iff]
    · exact typedReversible_perm_iff (n := fun o ↦ (t.blocks.filter fun r ↦
        decide (r.row.num = operationIdToBlockNum o.id)).length) hcount
    · intro o ho
      obtain ⟨b, hb, hnum⟩ := hblocks o ho
      exact hnum ▸ List.mem_map_of_mem (hshown.subset hb)
  constructor
  · intro hadds
    refine ⟨hrows.mp hadds.rows, fun row hrow b hb b' hb' hnum hnum' ↦ ?_⟩
    obtain ⟨x, hx, rfl⟩ := List.mem_map.mp (hadds.rows.mem_iff.mpr hrow)
    have hshows := (hadds.timestamps x hx).2
    exact (hshows b hb hnum).trans (hshows b' hb' hnum').symm
  · intro htimed
    have hperm := hrows.mpr htimed.one
    refine ⟨hperm, fun row hrow ↦ ?_⟩
    suffices hexists : ∃ b ∈ blocks, b.num = operationIdToBlockNum row.1.1.id ∧
        b.createdAt = row.1.2 by
      obtain ⟨b, hb, hnum, htime⟩ := hexists
      have hplain := hperm.mem_iff.mp (List.mem_map_of_mem (f := dropTimestamp) hrow)
      exact ⟨⟨b, hb, hnum⟩, fun b' hb' hnum' ↦
        (htimed.same _ hplain b' hb' b hb hnum' hnum).trans htime⟩
    obtain ⟨hrow, hot⟩ := mem_joinTypes hrow
    rcases List.mem_append.mp hrow with hx | hx
    · obtain ⟨ho, b, hb, hnum, htime⟩ := mem_operationTimes hx
      obtain ⟨b', hb', hnum'⟩ := hblocks _ ho
      obtain rfl := List.inj_on_of_nodup_map htable hb (hshown.subset hb') (hnum.trans hnum'.symm)
      exact ⟨b, List.mem_append_left _ hb', hnum, htime⟩
    · obtain ⟨o, ho, heq, hvisible, b, hb, hnum, htime⟩ := mem_joinTimestamps hx
      rw [← heq] at hvisible hot hnum ⊢
      obtain ⟨r, hr, hpair⟩ := exists_of_mem_newest hvisible
      obtain ⟨a, ha⟩ := List.length_eq_one_iff.mp (htimed.one o ho hvisible hot)
      have hsingle : ∀ r ∈ t.blocks, r.row.num = operationIdToBlockNum o.row.id → r = a :=
        fun r hr hnum ↦ List.mem_singleton.mp
          (ha ▸ List.mem_filter.mpr ⟨hr, decide_eq_true hnum⟩)
      obtain ⟨hrnum, hfork⟩ := Prod.mk.inj hpair
      obtain rfl := (hsingle b hb hnum).trans (hsingle r hr hrnum).symm
      refine ⟨b.row, List.mem_append_right _ (mem_joinForks.mpr
        ⟨b, hb, rfl, _, hvisible, ?_, hfork⟩), hnum, htime⟩
      exact congrArg some hnum

end Forks

section Reachable

variable {chain : List BlockData} {stored : List (Reversible BlockData)} {w : World ℕ}

theorem StorageInv.nodup_nums (inv : StorageInv h chain stored) :
    (h.irreversible.blocks.map Block.num).Nodup := by
  rw [inv.irreversible, IrreversibleTables.ofChain, List.map_map]
  have hmap := (inv.consistent.numbered.take h.headOfBlocks).map_num
  exact (congrArg List.Nodup hmap).mpr List.nodup_range'

theorem StorageInv.exists_block (inv : StorageInv h chain stored) {o : Operation}
    (ho : o ∈ h.irreversible.operations) :
    ∃ b ∈ h.irreversible.blocks, b.num = operationIdToBlockNum o.id := by
  rw [inv.irreversible, IrreversibleTables.ofChain] at ho
  obtain ⟨d, hd, hod⟩ := List.mem_flatMap.mp ho
  refine ⟨d.block, ?_, ((inv.wellFormed d (List.mem_of_mem_take hd)).operations o hod).symm⟩
  rw [inv.irreversible]
  exact List.mem_map_of_mem hd

theorem StorageInv.nodup_pairs (inv : StorageInv h chain stored) :
    (h.reversible.blocks.map fun r ↦ (r.row.num, r.forkId)).Nodup := by
  have hmap : (h.reversible.blocks.map fun r ↦ (r.row.num, r.forkId)) =
      stored.map fun r ↦ (r.row.num, r.forkId) := by
    rw [inv.reversible]
    simp only [ReversibleTables.ofStored, storedRows, List.map_flatMap, List.map_cons,
      List.map_nil]
    exact List.flatMap_pure_eq_map _ _
  exact hmap ▸ inv.nodup

/-- In every reachable state the extended operations views of the head block and of every context
add the times of the blocks and nothing else exactly when the shown operations are timed. -/
theorem extended_views_add_timestamp (types : List OperationType)
    (hw : Reachable (fun w call ↦ call.Lawful w) w) :
    (AddsTimestamp (w.db.operationsViewExtended types) (w.db.typedOperationsView types)
        w.db.blocksView ↔
      Timed types w.db.headForks w.db.reversible (w.db.typedOperationsView types)
        w.db.blocksView) ∧
    ∀ c : Context ℕ, AddsTimestamp (c.operationsViewExtended types w.db.toHafd)
        (c.typedOperationsView types w.db.toHafd) (c.blocksView w.db.toHafd) ↔
      Timed types (c.visibleForks w.db.toHafd) w.db.reversible
        (c.typedOperationsView types w.db.toHafd) (c.blocksView w.db.toHafd) := by
  obtain ⟨stored, lo, inv⟩ := hw.worldInv fun _ _ h ↦ h
  refine ⟨?_, fun c ↦ ?_⟩
  · exact addsTimestamp_iff inv.storage.nodup_nums (fun o ho ↦ inv.storage.exists_block ho)
      (List.Sublist.refl _) inv.storage.nodup_pairs
  · refine addsTimestamp_iff inv.storage.nodup_nums (fun o ho ↦ ?_) List.filter_sublist
      inv.storage.nodup_pairs
    obtain ⟨hmem, hle⟩ := List.mem_filter.mp ho
    obtain ⟨b, hb, hnum⟩ := inv.storage.exists_block hmem
    refine ⟨b, List.mem_filter.mpr ⟨hb, decide_eq_true ?_⟩, hnum⟩
    rw [Option.getD_some, hnum]
    exact of_decide_eq_true hle

def timedBlock (createdAt : ℕ) : BlockData :=
  { emptyBlock 1 createdAt.toUInt8 0 with
    block := { (emptyBlock 1 createdAt.toUInt8 0).block with createdAt }
    operations := [{ (default : Operation) with id := 2 ^ 32 }] }

def afterBlock (calls : List HivedCall) : World ℕ :=
  (World.initial ℕ .live).run (.createContext (.ready 0) "a" true true none 0 ::
    calls.map .hived ++ List.replicate 3 (.nextBlock (.ready 0) ["a"] none))

def afterEmptyFork : World ℕ :=
  afterBlock [.pushBlock (emptyBlock 1 5 0), .backFromFork 0, .pushBlock (emptyBlock 1 8 0),
    .pushBlock { emptyBlock 2 9 8 with
      block := { (emptyBlock 2 9 8).block with createdAt := 9 }
      operations := [{ (default : Operation) with id := 2 * 2 ^ 32 }] }]

theorem extended_views_empty_forks :
    afterEmptyFork.db.reversible.blocks.map (fun r ↦ (r.row.num, r.forkId)) =
        [(1, 1), (1, 2), (2, 2)] ∧
      AddsTimestamp (afterEmptyFork.db.operationsViewExtended [⟨0, "op"⟩])
        (afterEmptyFork.db.typedOperationsView [⟨0, "op"⟩]) afterEmptyFork.db.blocksView ∧
      ∀ c ∈ afterEmptyFork.db.contexts,
        AddsTimestamp (c.operationsViewExtended [⟨0, "op"⟩] afterEmptyFork.db.toHafd)
          (c.typedOperationsView [⟨0, "op"⟩] afterEmptyFork.db.toHafd)
          (c.blocksView afterEmptyFork.db.toHafd) := by
  have hreachable : Reachable (fun w call ↦ call.Lawful w) afterEmptyFork :=
    (Reachable.initial .live).run (by decide +kernel)
  obtain ⟨hhead, hcontexts⟩ := extended_views_add_timestamp [⟨0, "op"⟩] hreachable
  refine ⟨by decide +kernel, hhead.mpr ⟨by decide +kernel, by decide +kernel⟩, fun c hc ↦ ?_⟩
  refine (hcontexts c).mpr ⟨?_, ?_⟩ <;> revert c <;> decide +kernel

def afterFork : World ℕ :=
  afterBlock [.pushBlock (timedBlock 5), .backFromFork 0, .pushBlock (timedBlock 8)]

/-- After the fork the extended views show the operation of the new block twice, once with the time
of the abandoned block. -/
theorem extended_views_two_forks :
    afterFork.db.contexts.map (fun c ↦ (c.isAttached, c.isForking, c.currentBlockNum)) =
      [(true, true, 1)] ∧
    afterFork.db.contexts.map (fun c ↦ (c.blocksView afterFork.db.toHafd).map Block.createdAt) =
      [[8]] ∧
    afterFork.db.contexts.map (fun c ↦
      (c.typedOperationsView [⟨0, "op"⟩] afterFork.db.toHafd).map fun x ↦ x.1.id) = [[2 ^ 32]] ∧
    afterFork.db.contexts.map (fun c ↦ (c.operationsViewExtended [⟨0, "op"⟩]
      afterFork.db.toHafd).map fun x ↦ (x.1.1.id, x.1.2)) = [[(2 ^ 32, 5), (2 ^ 32, 8)]] ∧
    afterFork.db.blocksView.map Block.createdAt = [8] ∧
    (afterFork.db.typedOperationsView [⟨0, "op"⟩]).map (fun x ↦ x.1.id) = [2 ^ 32] ∧
    (afterFork.db.operationsViewExtended [⟨0, "op"⟩]).map (fun x ↦ (x.1.1.id, x.1.2)) =
      [(2 ^ 32, 5), (2 ^ 32, 8)] := by
  decide +kernel

end Reachable

end HiveForkManager
