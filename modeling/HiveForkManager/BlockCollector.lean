import HiveForkManager.Indexation

namespace HiveForkManager

variable {α β : Type} [DecidableEq α]

inductive OperationKind (α : Type) where
  | accountCreate (creator : α)
  /-- A proof of work, with the worker if it has an account already. -/
  | pow (worker : Option α)
  | accountCreated (newAccount creator : α)
  | other
  deriving DecidableEq, Repr

/-- An operation as it is notified; `accountId` is `find_account` of the chain at that moment. -/
structure OperationNote (α β : Type) where
  trxInBlock : ℤ
  typeId : ℕ
  body : β
  hardforkId : ℤ
  kind : OperationKind α
  impacted : List α
  ownerImpacted : List α
  accountId : α → Option ℕ

/-- What `to_operation_id` packs into one number. -/
structure OperationId where
  blockNum : ℕ
  numberInBlock : ℕ
  deriving DecidableEq, Repr

inductive CollectedRow (α β : Type) where
  | block (id : β)
  | transaction (trxInBlock : ℕ) (hash : β)
  | multisig (hash signature : β)
  | operation (operationId : OperationId) (trxInBlock : ℤ) (typeId : ℕ) (body : β)
  | account (accountId : ℕ) (name : α)
  | accountOperation (operationId : OperationId) (accountId ownerId seqNo typeId : ℕ)
  | appliedHardfork (hardfork : ℤ) (operationId : OperationId)
  deriving DecidableEq, Repr

structure TransactionNote (β : Type) where
  hash : β
  signatures : List β

structure CollectorConfig (α β : Type) where
  filterEnabled : Bool
  isTrackedAccount : α → Bool
  isTrackedOperation : OperationNote α β → Bool
  dumpAccountOperations : Bool

/-- What the plugin keeps from one notification to the next, besides the caches. -/
structure CollectorMemory where
  opInBlockNumber : ℕ
  trxInBlockFilterAccepted : List ℤ
  /-- `_creation_operation_id` with `_creation_operation_type_id`. -/
  creationOperation : Option (OperationId × ℕ)
  operationAcceptedPrevious : Bool
  operationAcceptedCurrent : Bool
  deriving DecidableEq, Repr

structure BlockCollector (α β : Type) where
  cache : CachedData (CollectedRow α β)
  stash : CacheKind → ℕ
  memory : CollectorMemory
  /-- `account_ops_seq_object` of the chain database, which hived undoes with a failed block. -/
  operationCount : α → Option ℕ
  dumped : CachedData (CollectedRow α β)

namespace BlockCollector

def append (kind : CacheKind) (blockNum : ℕ) (row : CollectedRow α β) (s : BlockCollector α β) :
    BlockCollector α β :=
  { s with cache := fun k ↦ if k = kind then s.cache k ++ [⟨blockNum, row⟩] else s.cache k }

/-- `is_account_tracked`, with the accounts of the operation that the filter tracks. -/
def isAccountTracked (cfg : CollectorConfig α β) (op : OperationNote α β) (account : α) : Bool :=
  !cfg.filterEnabled || (op.impacted.contains account && cfg.isTrackedAccount account)

def isOperationTracked (cfg : CollectorConfig α β) (m : CollectorMemory) (isCurrent : Bool) : Bool :=
  !cfg.filterEnabled ||
    if isCurrent then m.operationAcceptedCurrent else m.operationAcceptedPrevious

def isOpAccepted (cfg : CollectorConfig α β) (op : OperationNote α β) (m : CollectorMemory) : Bool :=
  !cfg.filterEnabled || (op.impacted.any cfg.isTrackedAccount && m.operationAcceptedCurrent)

def collectTrackedOperation (cfg : CollectorConfig α β) (op : OperationNote α β)
    (m : CollectorMemory) : CollectorMemory :=
  if cfg.filterEnabled then
    { m with
      operationAcceptedPrevious := m.operationAcceptedCurrent
      operationAcceptedCurrent := cfg.isTrackedOperation op }
  else m

def onNewOperation (cfg : CollectorConfig α β) (blockNum : ℕ) (op : OperationNote α β)
    (account owner : α) (operationId : OperationId) (typeId : ℕ) (isCurrent : Bool) (s : BlockCollector α β) :
    BlockCollector α β :=
  match op.accountId account, s.operationCount account with
  | some accountId, some seqNo =>
    let allow := isAccountTracked cfg op account && isOperationTracked cfg s.memory isCurrent
    let s' := if cfg.dumpAccountOperations && allow then
      s.append .accountOperations blockNum (.accountOperation operationId accountId
        ((op.accountId owner).getD 0) seqNo typeId) else s
    { s' with operationCount := fun a ↦ if a = account then some (seqNo + 1) else s.operationCount a }
  | _, _ => s

/-- The owners of the impacted accounts: in order, then the last one again, or the account itself
when there is none. -/
def withOwners : List α → List α → Option α → List (α × α)
  | [], _, _ => []
  | a :: as, o :: os, _ => (a, o) :: withOwners as os (some o)
  | a :: as, [], last => (a, last.getD a) :: withOwners as [] last

def processAccountCreationOp (cfg : CollectorConfig α β) (blockNum : ℕ) (op : OperationNote α β)
    (operationId : OperationId) (impacted : Option α) (s : BlockCollector α β) : BlockCollector α β :=
  let s := { s with memory := { s.memory with creationOperation := some (operationId, op.typeId) } }
  match impacted with
  | some account => onNewOperation cfg blockNum op account account operationId op.typeId true s
  | none => s

def forgetCreation (s : BlockCollector α β) : BlockCollector α β :=
  { s with memory := { s.memory with creationOperation := none } }

def onNewAccount (blockNum : ℕ) (op : OperationNote α β) (account : α) (s : BlockCollector α β) :
    BlockCollector α β :=
  { s.append .accounts blockNum (.account ((op.accountId account).getD 0) account) with
    operationCount := fun a ↦ if a = account then some 0 else s.operationCount a }

def onCreationOperation (cfg : CollectorConfig α β) (blockNum : ℕ) (op : OperationNote α β)
    (newAccount creator : α) (s : BlockCollector α β) : BlockCollector α β :=
  match s.memory.creationOperation with
  | some (id, typeId) =>
    forgetCreation (onNewOperation cfg blockNum op newAccount creator id typeId false s)
  | none => s

/-- The visitor of `accounts_collector`; an account that was created is in the chain database. -/
def visit (cfg : CollectorConfig α β) (blockNum : ℕ) (op : OperationNote α β)
    (operationId : OperationId) (s : BlockCollector α β) : BlockCollector α β :=
  match op.kind with
  | .accountCreate creator =>
    processAccountCreationOp cfg blockNum op operationId (some creator) s
  | .pow worker =>
    let s := processAccountCreationOp cfg blockNum op operationId worker s
    if worker.isSome then forgetCreation s else s
  | .accountCreated newAccount creator =>
    let s := onNewOperation cfg blockNum op newAccount creator operationId op.typeId true
      (onCreationOperation cfg blockNum op newAccount creator (onNewAccount blockNum op newAccount s))
    if creator ≠ newAccount then
      onNewOperation cfg blockNum op creator creator operationId op.typeId true s else s
  | .other =>
    (withOwners op.impacted op.ownerImpacted none).foldl (fun s p ↦
      onNewOperation cfg blockNum op p.1 p.2 operationId op.typeId true s) s

/-- `on_pre_apply_operation` in a state that collects blocks. -/
def onPreApplyOperation (cfg : CollectorConfig α β) (blockNum : ℕ) (s : BlockCollector α β)
    (op : OperationNote α β) : BlockCollector α β :=
  let operationId := ⟨blockNum, s.memory.opInBlockNumber⟩
  let s := visit cfg blockNum op operationId
    { s with memory := collectTrackedOperation cfg op s.memory }
  let s := if isOpAccepted cfg op s.memory then
      let accepted := if cfg.filterEnabled ∧ op.trxInBlock ≠ -1 then
        op.trxInBlock :: s.memory.trxInBlockFilterAccepted else s.memory.trxInBlockFilterAccepted
      let s := { s with memory := { s.memory with trxInBlockFilterAccepted := accepted } }
      let s := if 0 < op.hardforkId then
        s.append .appliedHardforks blockNum (.appliedHardfork op.hardforkId operationId) else s
      s.append .operations blockNum (.operation operationId op.trxInBlock op.typeId op.body)
    else s
  { s with memory := { s.memory with opInBlockNumber := s.memory.opInBlockNumber + 1 } }

def isTrxAccepted (cfg : CollectorConfig α β) (m : CollectorMemory) (trxInBlock : ℕ) : Bool :=
  !cfg.filterEnabled || m.trxInBlockFilterAccepted.contains (trxInBlock : ℤ)

/-- `handle_transactions`, from the transaction with the given number on. -/
def handleTransactions (cfg : CollectorConfig α β) (blockNum : ℕ) :
    ℕ → List (TransactionNote β) → BlockCollector α β → BlockCollector α β
  | _, [], s => s
  | number, trx :: rest, s =>
    let s := if isTrxAccepted cfg s.memory number then
      trx.signatures.tail.foldl (fun s signature ↦
        s.append .transactionsMultisig blockNum (.multisig trx.hash signature))
        (s.append .transactions blockNum (.transaction number trx.hash)) else s
    handleTransactions cfg blockNum (number + 1) rest s

def snapshotCurrentSizes (s : BlockCollector α β) : BlockCollector α β :=
  { s with stash := fun kind ↦ (s.cache kind).length }

/-- `revert_to_snapshot`; erasing from behind the end of a vector is undefined. -/
def revertToSnapshot (s : BlockCollector α β) : Option (BlockCollector α β) :=
  if [.blocks, .transactions, .transactionsMultisig, .operations, .accounts, .accountOperations,
      .appliedHardforks].all fun kind ↦ decide (s.stash kind ≤ (s.cache kind).length) then
    some (snapshotCurrentSizes { s with cache := fun kind ↦ (s.cache kind).take (s.stash kind) })
  else none

/-- A flush moves the rows of the blocks up to `n` to the dumper, or nothing. -/
def flush (upto : Option ℕ) (s : BlockCollector α β) : BlockCollector α β :=
  let moved := moveIrreversibleBlocks upto s.cache
  { s with cache := moved.2, dumped := fun kind ↦ s.dumped kind ++ moved.1 kind }

end BlockCollector

end HiveForkManager
