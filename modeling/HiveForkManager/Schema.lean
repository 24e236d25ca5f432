import Mathlib

namespace HiveForkManager

abbrev Bytea := List UInt8

/-- `hive.unreachable_event_id()`. The row of this id is a sink which every query leaves out, so it
is not kept in the queue. -/
def unreachableEventId : ℕ := 9223372036854775807

def maxBlockNum : ℕ := 2147483647

def maxForkId : ℕ := 9223372036854775807

inductive Error where
  | assertFailure (message : String)
  | raiseException (message : String)
  | foreignKeyViolation (constraint : String)
  | uniqueViolation (constraint : String)
  | notNullViolation (column : String)
  deriving DecidableEq, Repr

inductive EventType where
  | backFromFork
  | newBlock
  | newIrreversible
  | massiveSync
  deriving DecidableEq, Repr

/-- A row of `hafd.events_queue`. For `backFromFork` the field `blockNum` holds a fork id. -/
structure Event where
  id : ℕ
  event : EventType
  blockNum : ℕ
  deriving DecidableEq, Repr

structure Fork where
  id : ℕ
  blockNum : ℕ
  deriving DecidableEq, Repr

structure Block where
  num : ℕ
  hash : Bytea
  prev : Bytea
  createdAt : ℕ
  producerAccountId : ℤ
  transactionMerkleRoot : Bytea
  extensions : Option String
  witnessSignature : Bytea
  signingKey : String
  hbdInterestRate : ℤ
  totalVestingFundHive : ℤ
  totalVestingShares : ℤ
  totalRewardFundHive : ℤ
  virtualSupply : ℤ
  currentSupply : ℤ
  currentHbdSupply : ℤ
  dhfIntervalLedger : ℤ
  deriving DecidableEq, Repr, Inhabited

structure Transaction where
  blockNum : ℕ
  trxInBlock : ℤ
  trxHash : Bytea
  refBlockNum : ℤ
  refBlockPrefix : ℤ
  expiration : ℕ
  signature : Option Bytea
  rcCost : Option ℤ
  deriving DecidableEq, Repr, Inhabited

structure TransactionMultisig where
  trxHash : Bytea
  signature : Bytea
  deriving DecidableEq, Repr, Inhabited

structure Operation where
  id : ℕ
  trxInBlock : ℤ
  opTypeId : ℤ
  opPos : ℤ
  bodyValue : Option String
  customJsonTypeId : Option ℤ
  deriving DecidableEq, Repr, Inhabited

structure Account where
  id : ℤ
  name : String
  blockNum : Option ℕ
  deriving DecidableEq, Repr, Inhabited

structure AccountOperation where
  accountId : ℤ
  transactingAccountId : ℤ
  accountOpSeqNo : ℤ
  operationId : ℕ
  opTypeId : ℤ
  deriving DecidableEq, Repr, Inhabited

structure AppliedHardfork where
  hardforkNum : ℤ
  blockNum : ℕ
  hardforkVopId : ℕ
  deriving DecidableEq, Repr, Inhabited

def operationIdToBlockNum (id : ℕ) : ℕ := id / 2 ^ 32

/-- The arguments of `hive.push_block`: a block with all the rows that belong to it. -/
structure BlockData where
  block : Block
  transactions : List Transaction
  signatures : List TransactionMultisig
  operations : List Operation
  accounts : List Account
  accountOperations : List AccountOperation
  appliedHardforks : List AppliedHardfork
  deriving DecidableEq, Repr, Inhabited

/-- A row of one of the `*_reversible` tables. -/
structure Reversible (α : Type) where
  row : α
  forkId : ℕ
  deriving DecidableEq, Repr

structure IrreversibleTables where
  blocks : List Block := []
  transactions : List Transaction := []
  transactionsMultisig : List TransactionMultisig := []
  operations : List Operation := []
  accounts : List Account := []
  accountOperations : List AccountOperation := []
  appliedHardforks : List AppliedHardfork := []
  deriving DecidableEq, Repr

structure ReversibleTables where
  blocks : List (Reversible Block) := []
  transactions : List (Reversible Transaction) := []
  transactionsMultisig : List (Reversible TransactionMultisig) := []
  operations : List (Reversible Operation) := []
  accounts : List (Reversible Account) := []
  accountOperations : List (Reversible AccountOperation) := []
  appliedHardforks : List (Reversible AppliedHardfork) := []
  deriving DecidableEq, Repr

end HiveForkManager
