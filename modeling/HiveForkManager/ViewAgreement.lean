import HiveForkManager.Views
import HiveForkManager.Lib.Join

namespace HiveForkManager

variable {ρ α : Type}

/-- A row of `hafd.operation_types`. -/
structure OperationType where
  id : ℤ
  name : String
  deriving DecidableEq, Repr

/-- `JOIN hafd.operation_types`, which the views of operations end with. -/
def joinTypes (types : List OperationType) (rows : List α) (opTypeId : α → ℤ) :
    List (α × String) :=
  rows.flatMap fun x ↦ types.flatMap fun ot ↦ if ot.id = opTypeId x then [(x, ot.name)] else []

def joinSignatures (forks : List (ℕ × ℕ)) (transactions : List (Reversible Transaction))
    (signatures : List (Reversible TransactionMultisig)) : List TransactionMultisig :=
  signatures.flatMap fun s ↦ transactions.flatMap fun t ↦ forks.flatMap fun nf ↦
    if (nf.2 = t.forkId ∧ nf.1 = t.row.blockNum) ∧ t.row.trxHash = s.row.trxHash ∧
      nf.2 = s.forkId then [s.row] else []

/-- Reversible operations of the visible blocks, with the times of the blocks of their numbers. -/
def joinTimestamps (forks : List (ℕ × ℕ)) (operations : List (Reversible Operation))
    (blocks : List (Reversible Block)) : List (Operation × ℕ) :=
  operations.flatMap fun o ↦ forks.flatMap fun nf ↦
    if nf.1 = operationIdToBlockNum o.row.id ∧ nf.2 = o.forkId then
      blocks.flatMap fun b ↦ if b.row.num = nf.1 then [(o.row, b.row.createdAt)] else []
    else []

def joinByOperation (forks : List (ℕ × ℕ)) (operations : List (Reversible Operation))
    (rows : List (Reversible α)) (operationId : α → ℕ) : List α :=
  forks.flatMap fun nf ↦ operations.flatMap fun o ↦ rows.flatMap fun r ↦
    if (nf.2 = o.forkId ∧ nf.1 = operationIdToBlockNum o.row.id) ∧ nf.2 = r.forkId ∧
      operationId r.row = o.row.id then [r.row] else []

def operationTimes (operations : List Operation) (blocks : List Block) : List (Operation × ℕ) :=
  operations.flatMap fun o ↦ blocks.flatMap fun b ↦
    if b.num = operationIdToBlockNum o.id then [(o, b.createdAt)] else []

namespace Hafd

def accountsView (h : Hafd) : List (ℤ × String) :=
  (h.irreversible.accounts ++ joinForks Account.blockNum h.headForks h.reversible.accounts).map
    fun a ↦ (a.id, a.name)

def accountOperationsView (h : Hafd) : List AccountOperation :=
  h.irreversible.accountOperations ++ joinByOperation h.headForks h.reversible.operations
    h.reversible.accountOperations AccountOperation.operationId

def signaturesView (h : Hafd) : List TransactionMultisig :=
  h.irreversible.transactionsMultisig ++
    joinSignatures h.headForks h.reversible.transactions h.reversible.transactionsMultisig

def appliedHardforksView (h : Hafd) : List AppliedHardfork :=
  h.irreversible.appliedHardforks ++ joinByOperation h.headForks h.reversible.operations
    h.reversible.appliedHardforks AppliedHardfork.hardforkVopId

/-- `hive.operations_view`, with the names of the types. -/
def typedOperationsView (types : List OperationType) (h : Hafd) : List (Operation × String) :=
  joinTypes types h.operationsView Operation.opTypeId

def operationsViewExtended (types : List OperationType) (h : Hafd) :
    List ((Operation × ℕ) × String) :=
  joinTypes types (operationTimes h.irreversible.operations h.irreversible.blocks ++
    joinTimestamps h.headForks h.reversible.operations h.reversible.blocks) fun x ↦ x.1.opTypeId

/-- The highest block of `hafd.blocks` and `hafd.blocks_reversible`. -/
def highestBlock (h : Hafd) : ℕ :=
  (h.irreversible.blocks.map Block.num ++ h.reversible.blocks.map fun r ↦ r.row.num).foldr max 0

end Hafd

namespace Context

def signaturesView (h : Hafd) (c : Context ρ) : List TransactionMultisig :=
  (h.irreversible.transactionsMultisig.flatMap fun s ↦ h.irreversible.transactions.flatMap fun t ↦
      if t.trxHash = s.trxHash ∧ t.blockNum ≤ c.minBlock then [s] else []) ++
    joinSignatures (c.visibleForks h) h.reversible.transactions h.reversible.transactionsMultisig

def appliedHardforksView (h : Hafd) (c : Context ρ) : List AppliedHardfork :=
  c.view (fun x ↦ some x.blockNum) h.irreversible.appliedHardforks h.reversible.appliedHardforks h

def typedOperationsView (types : List OperationType) (h : Hafd) (c : Context ρ) :
    List (Operation × String) :=
  joinTypes types (c.operationsView h) Operation.opTypeId

def operationsViewExtended (types : List OperationType) (h : Hafd) (c : Context ρ) :
    List ((Operation × ℕ) × String) :=
  joinTypes types
    (operationTimes (h.irreversible.operations.filter fun o ↦
        decide (operationIdToBlockNum o.id ≤ c.minBlock)) h.irreversible.blocks ++
      joinTimestamps (c.visibleForks h) h.reversible.operations h.reversible.blocks)
    fun x ↦ x.1.opTypeId

end Context

structure Keys (h : Hafd) : Prop where
  blocks : (h.irreversible.blocks.map Block.num).Nodup
  producers : ∀ b ∈ h.irreversible.blocks, ∃ a ∈ h.irreversible.accounts,
    a.id = b.producerAccountId
  transactions : (h.irreversible.transactions.map Transaction.trxHash).Nodup
  transactionBlocks : ∀ t ∈ h.irreversible.transactions, ∃ b ∈ h.irreversible.blocks,
    b.num = t.blockNum
  signatures : h.irreversible.transactionsMultisig.Nodup
  signatureTransactions : ∀ s ∈ h.irreversible.transactionsMultisig,
    ∃ t ∈ h.irreversible.transactions, t.trxHash = s.trxHash
  operations : (h.irreversible.operations.map Operation.id).Nodup
  hardforks : (h.irreversible.appliedHardforks.map AppliedHardfork.hardforkNum).Nodup
  hardforkOperations : ∀ x ∈ h.irreversible.appliedHardforks, ∃ o ∈ h.irreversible.operations,
    o.id = x.hardforkVopId
  hardforkBlocks : ∀ x ∈ h.irreversible.appliedHardforks, ∃ b ∈ h.irreversible.blocks,
    b.num = x.blockNum
  accounts : (h.irreversible.accounts.map Account.id).Nodup
  accountNames : (h.irreversible.accounts.map Account.name).Nodup
  accountBlocks : ∀ a ∈ h.irreversible.accounts, ∀ n, a.blockNum = some n →
    ∃ b ∈ h.irreversible.blocks, b.num = n
  accountOperations : (h.irreversible.accountOperations.map
    fun x ↦ (x.accountId, x.accountOpSeqNo)).Nodup
  accountOperationKeys : ∀ x ∈ h.irreversible.accountOperations,
    (∃ o ∈ h.irreversible.operations, o.id = x.operationId) ∧
      (∃ a ∈ h.irreversible.accounts, a.id = x.accountId) ∧
      ∃ a ∈ h.irreversible.accounts, a.id = x.transactingAccountId
  forks : (h.forks.map Fork.id).Nodup
  reversibleBlocks : (h.reversible.blocks.map fun r ↦ (r.row.num, r.forkId)).Nodup
  reversibleForks : ∀ r ∈ h.reversible.blocks, ∃ f ∈ h.forks, f.id = r.forkId
  reversibleTransactions : (h.reversible.transactions.map fun r ↦ (r.row.trxHash, r.forkId)).Nodup
  reversibleTransactionBlocks : ∀ r ∈ h.reversible.transactions, ∃ b ∈ h.reversible.blocks,
    b.row.num = r.row.blockNum ∧ b.forkId = r.forkId
  reversibleSignatures : h.reversible.transactionsMultisig.Nodup
  reversibleSignatureTransactions : ∀ r ∈ h.reversible.transactionsMultisig,
    ∃ t ∈ h.reversible.transactions, t.row.trxHash = r.row.trxHash ∧ t.forkId = r.forkId
  reversibleOperations : (h.reversible.operations.map fun r ↦ (r.row.id, r.forkId)).Nodup
  reversibleAccounts : (h.reversible.accounts.map fun r ↦ (r.row.id, r.forkId)).Nodup
  reversibleAccountNames : (h.reversible.accounts.map fun r ↦ (r.row.name, r.forkId)).Nodup
  reversibleAccountBlocks : ∀ r ∈ h.reversible.accounts, ∀ n, r.row.blockNum = some n →
    ∃ b ∈ h.reversible.blocks, b.row.num = n ∧ b.forkId = r.forkId
  reversibleAccountOperations : (h.reversible.accountOperations.map fun r ↦
    (r.row.accountId, r.row.accountOpSeqNo, r.row.transactingAccountId, r.forkId)).Nodup
  reversibleAccountOperationKeys : ∀ r ∈ h.reversible.accountOperations,
    ∃ o ∈ h.reversible.operations, o.row.id = r.row.operationId ∧ o.forkId = r.forkId
  reversibleHardforks : (h.reversible.appliedHardforks.map fun r ↦
    (r.row.hardforkNum, r.forkId)).Nodup
  reversibleHardforkBlocks : ∀ r ∈ h.reversible.appliedHardforks, ∃ b ∈ h.reversible.blocks,
    b.row.num = r.row.blockNum ∧ b.forkId = r.forkId

structure AtHead (h : Hafd) (c : Context ρ) : Prop where
  attached : c.isAttached = true
  forking : c.isForking = true
  newestFork : ∃ f ∈ h.forks, f.id = c.forkId
  forkId : ∀ f ∈ h.forks, f.id ≤ c.forkId
  irreversible : c.irreversibleBlock = h.irreversibleHead
  current : c.currentBlockNum = h.highestBlock

/-- What the keys leave open: operations belong to stored blocks, a hardfork is applied by an
operation of its block, and accounts without a block appear with the first irreversible block. -/
structure Linked (h : Hafd) : Prop where
  operations : ∀ o ∈ h.irreversible.operations, ∃ b ∈ h.irreversible.blocks,
    b.num = operationIdToBlockNum o.id
  hardforks : ∀ r ∈ h.reversible.appliedHardforks,
    operationIdToBlockNum r.row.hardforkVopId = r.row.blockNum ∧
      ∃ o ∈ h.reversible.operations, o.row.id = r.row.hardforkVopId ∧ o.forkId = r.forkId
  accounts : ∀ a ∈ h.irreversible.accounts, a.blockNum = none →
    1 ≤ h.irreversibleHead ∧ 1 ≤ h.highestBlock

variable {h : Hafd} {c : Context ρ}

theorem le_highestBlock {b : Block} (hb : b ∈ h.irreversible.blocks) : b.num ≤ h.highestBlock :=
  List.le_max_of_le (List.mem_append_left _ (List.mem_map_of_mem hb)) le_rfl

theorem reversible_le_highestBlock {r : Reversible Block} (hr : r ∈ h.reversible.blocks) :
    r.row.num ≤ h.highestBlock :=
  List.le_max_of_le (List.mem_append_right _ (List.mem_map.mpr ⟨r, hr, rfl⟩)) le_rfl

theorem visibleForks_eq (keys : Keys h) (head : AtHead h c) : c.visibleForks h = h.headForks := by
  rw [Context.visibleForks, Hafd.headForks]
  congr 1
  refine List.filter_congr fun r hr ↦ ?_
  obtain ⟨f, hf, hfork⟩ := keys.reversibleForks r hr
  have hle := head.forkId f hf
  have hnum := reversible_le_highestBlock hr
  rw [← head.current] at hnum
  simp only [Context.inRange, Context.reversibleRange, head.forking, head.irreversible, ← hfork,
    Bool.and_true, decide_eq_true_eq]
  refine decide_eq_decide.mpr ⟨fun h ↦ h.2.1, fun h ↦ ⟨h.trans_le hnum, h, hle, hnum⟩⟩

theorem le_minBlock (head : AtHead h c)
    (hblocks : ∀ b ∈ h.irreversible.blocks, b.num ≤ h.irreversibleHead) {b : Block}
    (hb : b ∈ h.irreversible.blocks) : b.num ≤ c.minBlock := by
  rw [Context.minBlock, head.irreversible, head.current]
  exact le_min (hblocks b hb) (le_highestBlock hb)

theorem view_eq_head (keys : Keys h) (head : AtHead h c) {blockNum : α → Option ℕ}
    {irreversible : List α} {reversible : List (Reversible α)}
    (hall : ∀ x ∈ irreversible, (blockNum x).getD 1 ≤ c.minBlock) :
    c.view blockNum irreversible reversible h =
      irreversible ++ joinForks blockNum h.headForks reversible := by
  rw [Context.view, visibleForks_eq keys head]
  congr 1
  exact List.filter_eq_self.mpr fun x hx ↦ decide_eq_true (hall x hx)

theorem nodup_headForks (keys : Keys h) : h.headForks.Nodup := by
  refine List.Nodup.sublist ?_ keys.reversibleBlocks
  exact (List.filter_sublist.trans List.filter_sublist).map _

theorem joinForks_eq_flatMap (blockNum : α → ℕ) (forks : List (ℕ × ℕ))
    (rows : List (Reversible α)) : joinForks (fun x ↦ some (blockNum x)) forks rows =
      rows.flatMap fun r ↦ if (blockNum r.row, r.forkId) ∈ forks then [r.row] else [] := by
  rw [Join.flatMap_ite_singleton, joinForks]
  congr 1
  refine List.filter_congr fun r _ ↦ ?_
  rw [Bool.eq_iff_iff, List.any_eq_true, decide_eq_true_eq]
  constructor
  · rintro ⟨nf, hnf, hmatch⟩
    obtain ⟨hnum, hfork⟩ := of_decide_eq_true hmatch
    rwa [Option.some.inj hnum, hfork]
  · exact fun hnf ↦ ⟨_, hnf, decide_eq_true ⟨rfl, rfl⟩⟩

theorem operation_loops_eq (keys : Keys h) {r : Reversible α} {operationId : α → ℕ}
    (hr : ∃ o ∈ h.reversible.operations, o.row.id = operationId r.row ∧ o.forkId = r.forkId) :
    (h.headForks.flatMap fun nf ↦ h.reversible.operations.flatMap fun o ↦
      if (nf.2 = o.forkId ∧ nf.1 = operationIdToBlockNum o.row.id) ∧ nf.2 = r.forkId ∧
        operationId r.row = o.row.id then [r.row] else []) =
      if (operationIdToBlockNum (operationId r.row), r.forkId) ∈ h.headForks then [r.row]
        else [] := by
  have hinner : ∀ nf : ℕ × ℕ, (h.reversible.operations.flatMap fun o ↦
      if (nf.2 = o.forkId ∧ nf.1 = operationIdToBlockNum o.row.id) ∧ nf.2 = r.forkId ∧
        operationId r.row = o.row.id then [r.row] else []) =
      if nf = (operationIdToBlockNum (operationId r.row), r.forkId) then [r.row] else [] := by
    intro nf
    by_cases hnf : nf = (operationIdToBlockNum (operationId r.row), r.forkId)
    · have hkey := Join.flatMap_ite_key keys.reversibleOperations (operationId r.row, r.forkId)
        [r.row]
      obtain ⟨o, ho, hid, hfork⟩ := hr
      rw [if_pos (List.mem_map.mpr ⟨o, ho, by rw [hid, hfork]⟩)] at hkey
      rw [if_pos hnf, hnf]
      refine (List.flatMap_congr fun o _ ↦ if_congr ?_ rfl rfl).trans hkey
      rw [Prod.mk.injEq]
      constructor
      · exact fun hmatch ↦ ⟨hmatch.2.2.symm, hmatch.1.1.symm⟩
      · exact fun ⟨hid, hfork⟩ ↦ ⟨⟨hfork.symm, by rw [hid]⟩, rfl, hid.symm⟩
    · rw [if_neg hnf]
      refine List.flatMap_eq_nil_iff.mpr fun o _ ↦ if_neg fun hmatch ↦ hnf ?_
      exact Prod.ext (hmatch.1.2.trans (by rw [hmatch.2.2])) hmatch.2.1
  simp only [hinner]
  have hnodup : (h.headForks.map id).Nodup := by
    rw [List.map_id]
    exact nodup_headForks keys
  have hforks := Join.flatMap_ite_key hnodup
    (operationIdToBlockNum (operationId r.row), r.forkId) [r.row]
  simp only [List.map_id, id] at hforks
  convert hforks

theorem joinByOperation_perm (keys : Keys h) {rows : List (Reversible α)} {operationId : α → ℕ}
    (hrows : ∀ r ∈ rows, ∃ o ∈ h.reversible.operations, o.row.id = operationId r.row ∧
      o.forkId = r.forkId) :
    (joinByOperation h.headForks h.reversible.operations rows operationId).Perm
      (joinForks (fun x ↦ some (operationIdToBlockNum (operationId x))) h.headForks rows) := by
  rw [joinForks_eq_flatMap (fun x ↦ operationIdToBlockNum (operationId x)), joinByOperation]
  refine (List.Perm.flatMap_left _ fun nf _ ↦ Join.perm_flatMap_comm _ _ _).trans ?_
  refine (Join.perm_flatMap_comm _ _ _).trans (List.Perm.flatMap_left _ fun r hr ↦ ?_)
  rw [operation_loops_eq keys (hrows r hr)]

theorem signatures_eq (keys : Keys h)
    (hall : ∀ t ∈ h.irreversible.transactions, t.blockNum ≤ c.minBlock) :
    (h.irreversible.transactionsMultisig.flatMap fun s ↦ h.irreversible.transactions.flatMap fun t ↦
      if t.trxHash = s.trxHash ∧ t.blockNum ≤ c.minBlock then [s] else []) =
      h.irreversible.transactionsMultisig := by
  have hone : ∀ s ∈ h.irreversible.transactionsMultisig,
      (h.irreversible.transactions.flatMap fun t ↦
        if t.trxHash = s.trxHash ∧ t.blockNum ≤ c.minBlock then [s] else []) = [s] := by
    intro s hs
    obtain ⟨t, ht, hhash⟩ := keys.signatureTransactions s hs
    have hkey := Join.flatMap_ite_key keys.transactions s.trxHash [s]
    rw [if_pos (List.mem_map.mpr ⟨t, ht, hhash⟩)] at hkey
    refine (List.flatMap_congr fun t ht ↦ if_congr ?_ rfl rfl).trans hkey
    exact and_iff_left (hall t ht)
  calc (h.irreversible.transactionsMultisig.flatMap fun s ↦
        h.irreversible.transactions.flatMap fun t ↦
          if t.trxHash = s.trxHash ∧ t.blockNum ≤ c.minBlock then [s] else [])
      = h.irreversible.transactionsMultisig.flatMap fun s ↦ [s] := List.flatMap_congr hone
    _ = h.irreversible.transactionsMultisig := List.flatMap_singleton' _

/-- A context at the head block sees what the head-block views show. -/
theorem context_views_perm_head_views (types : List OperationType) (h : Hafd) (c : Context ρ)
    (keys : Keys h) (hblocks : ∀ b ∈ h.irreversible.blocks, b.num ≤ h.irreversibleHead)
    (linked : Linked h) (head : AtHead h c) :
    (c.blocksView h).Perm h.blocksView ∧ (c.transactionsView h).Perm h.transactionsView ∧
      (c.typedOperationsView types h).Perm (h.typedOperationsView types) ∧
      (c.operationsViewExtended types h).Perm (h.operationsViewExtended types) ∧
      (c.signaturesView h).Perm h.signaturesView ∧ (c.accountsView h).Perm h.accountsView ∧
      (c.accountOperationsView h).Perm h.accountOperationsView ∧
      (c.appliedHardforksView h).Perm h.appliedHardforksView := by
  have hmin : ∀ {n}, (∃ b ∈ h.irreversible.blocks, b.num = n) → n ≤ c.minBlock :=
    fun ⟨b, hb, hnum⟩ ↦ hnum ▸ le_minBlock head hblocks hb
  have hoperation : ∀ o ∈ h.irreversible.operations, operationIdToBlockNum o.id ≤ c.minBlock :=
    fun o ho ↦ hmin (linked.operations o ho)
  have hoperations : c.operationsView h = h.operationsView := view_eq_head keys head hoperation
  refine ⟨.of_eq (view_eq_head keys head fun b hb ↦ hmin ⟨b, hb, rfl⟩),
    .of_eq (view_eq_head keys head fun t ht ↦ hmin (keys.transactionBlocks t ht)),
    .of_eq (by rw [Context.typedOperationsView, Hafd.typedOperationsView, hoperations]),
    .of_eq ?_, .of_eq ?_, .of_eq ?_, ?_, ?_⟩
  · rw [Context.operationsViewExtended, Hafd.operationsViewExtended, visibleForks_eq keys head,
      List.filter_eq_self.mpr fun o ho ↦ decide_eq_true (hoperation o ho)]
  · rw [Context.signaturesView, Hafd.signaturesView, visibleForks_eq keys head,
      signatures_eq keys fun t ht ↦ hmin (keys.transactionBlocks t ht)]
  · rw [Context.accountsView, Hafd.accountsView, view_eq_head keys head]
    intro a ha
    cases hnum : a.blockNum with
    | none =>
      obtain ⟨hirreversible, hhighest⟩ := linked.accounts a ha hnum
      rw [Option.getD_none, Context.minBlock, head.irreversible, head.current]
      exact le_min hirreversible hhighest
    | some n => exact hmin (keys.accountBlocks a ha n hnum)
  · rw [Context.accountOperationsView, Hafd.accountOperationsView, view_eq_head keys head]
    · refine List.Perm.append_left _ (List.Perm.symm ?_)
      exact joinByOperation_perm keys keys.reversibleAccountOperationKeys
    · intro x hx
      obtain ⟨o, ho, hid⟩ := (keys.accountOperationKeys x hx).1
      rw [Option.getD_some, ← hid]
      exact hoperation o ho
  · have hview : c.appliedHardforksView h = h.irreversible.appliedHardforks ++
        joinForks (fun x ↦ some x.blockNum) h.headForks h.reversible.appliedHardforks :=
      view_eq_head keys head fun x hx ↦ hmin (keys.hardforkBlocks x hx)
    rw [hview, Hafd.appliedHardforksView]
    refine List.Perm.append_left _ (List.Perm.symm ?_)
    refine (joinByOperation_perm keys fun r hr ↦ (linked.hardforks r hr).2).trans (.of_eq ?_)
    rw [joinForks_eq_flatMap AppliedHardfork.blockNum,
      joinForks_eq_flatMap fun x : AppliedHardfork ↦ operationIdToBlockNum x.hardforkVopId]
    exact List.flatMap_congr fun r hr ↦ by rw [(linked.hardforks r hr).1]

def contextAt (irreversibleBlock currentBlockNum : ℕ) : Context ℕ where
  name := "app"
  currentBlockNum
  irreversibleBlock
  eventsId := 0
  forkId := 2
  isForking := true
  isAttached := true
  lastActiveAt := 0
  stages := none
  loop := {}
  tables := []

def twoForks : Hafd where
  eventsQueue := []
  eventsIdSeq := 1
  forks := [⟨1, 1⟩, ⟨2, 1⟩]
  hiveState := { consistentBlock := some 1 }
  irreversible := { blocks := [{ (default : Block) with num := 1 }], accounts := [⟨0, "", none⟩] }
  reversible :=
    { blocks := [⟨{ (default : Block) with num := 2 }, 1⟩, ⟨{ (default : Block) with num := 2 }, 2⟩]
      operations := [⟨{ (default : Operation) with id := 2 * 2 ^ 32 }, 2⟩]
      appliedHardforks := [⟨⟨1, 2, 2 * 2 ^ 32⟩, 2⟩] }

theorem context_views_perm_head_views_twoForks :
    ((contextAt 1 2).blocksView twoForks).Perm twoForks.blocksView ∧
      ((contextAt 1 2).appliedHardforksView twoForks).Perm twoForks.appliedHardforksView := by
  have hviews := context_views_perm_head_views [] twoForks (contextAt 1 2)
    (by constructor <;> decide +kernel) (by decide +kernel) (by constructor <;> decide +kernel)
    (by constructor <;> decide +kernel)
  exact ⟨hviews.1, hviews.2.2.2.2.2.2.2⟩

/-- Before the first irreversible block: an account without a block, and a reversible block that
applies a hardfork of which the operation is not stored. -/
def unlinkedRows : Hafd where
  eventsQueue := []
  eventsIdSeq := 1
  forks := [⟨1, 1⟩, ⟨2, 1⟩]
  hiveState := {}
  irreversible := { accounts := [⟨0, "", none⟩] }
  reversible :=
    { blocks := [⟨{ (default : Block) with num := 1 }, 2⟩]
      appliedHardforks := [⟨⟨1, 1, 2 ^ 32⟩, 2⟩] }

/-- The keys do not rule this out, and both views differ. -/
theorem unlinked_rows_seen_by_one_family : Keys unlinkedRows ∧
    (∀ b ∈ unlinkedRows.irreversible.blocks, b.num ≤ unlinkedRows.irreversibleHead) ∧
    AtHead unlinkedRows (contextAt 0 1) ∧
    ¬ ((contextAt 0 1).accountsView unlinkedRows).Perm unlinkedRows.accountsView ∧
    ¬ ((contextAt 0 1).appliedHardforksView unlinkedRows).Perm
      unlinkedRows.appliedHardforksView := by
  refine ⟨by constructor <;> decide +kernel, by decide +kernel, by constructor <;> decide +kernel,
    by decide +kernel, by decide +kernel⟩

end HiveForkManager
