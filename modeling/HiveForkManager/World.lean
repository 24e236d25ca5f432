import HiveForkManager.AppApi

namespace HiveForkManager

variable {ρ : Type}

structure BlockData.WellFormed (d : BlockData) : Prop where
  transactions : ∀ t ∈ d.transactions, t.blockNum = d.block.num
  trxHashes : (d.transactions.map Transaction.trxHash).Nodup
  signatures : ∀ s ∈ d.signatures, s.trxHash ∈ d.transactions.map Transaction.trxHash
  operations : ∀ o ∈ d.operations, operationIdToBlockNum o.id = d.block.num
  accounts : ∀ a ∈ d.accounts, a.blockNum = some d.block.num
  accountOperations : ∀ a ∈ d.accountOperations, a.operationId ∈ d.operations.map Operation.id
  appliedHardforks : ∀ x ∈ d.appliedHardforks, x.blockNum = d.block.num

local instance : LawfulBEq Bytea := List.instLawfulBEq

instance (d : BlockData) : Decidable d.WellFormed :=
  decidable_of_iff ((∀ t ∈ d.transactions, t.blockNum = d.block.num) ∧
    (d.transactions.map Transaction.trxHash).Nodup ∧
    (∀ s ∈ d.signatures, s.trxHash ∈ d.transactions.map Transaction.trxHash) ∧
    (∀ o ∈ d.operations, operationIdToBlockNum o.id = d.block.num) ∧
    (∀ a ∈ d.accounts, a.blockNum = some d.block.num) ∧
    (∀ a ∈ d.accountOperations, a.operationId ∈ d.operations.map Operation.id) ∧
    (∀ x ∈ d.appliedHardforks, x.blockNum = d.block.num))
    ⟨fun ⟨a, b, c, d, e, f, g⟩ ↦ ⟨a, b, c, d, e, f, g⟩,
      fun ⟨a, b, c, d, e, f, g⟩ ↦ ⟨a, b, c, d, e, f, g⟩⟩

/-- A block can be put on top of a chain: it has the next number, and its transactions are new. -/
structure BlockData.Extends (d : BlockData) (chain : List BlockData) : Prop where
  num : d.block.num = chain.length + 1
  wellFormed : d.WellFormed
  newTransactions : ∀ d' ∈ chain, ∀ t ∈ d.transactions, ∀ t' ∈ d'.transactions,
    t.trxHash ≠ t'.trxHash

instance (d : BlockData) (chain : List BlockData) : Decidable (d.Extends chain) :=
  decidable_of_iff (d.block.num = chain.length + 1 ∧ d.WellFormed ∧
    ∀ d' ∈ chain, ∀ t ∈ d.transactions, ∀ t' ∈ d'.transactions, t.trxHash ≠ t'.trxHash)
    ⟨fun ⟨a, b, c⟩ ↦ ⟨a, b, c⟩, fun ⟨a, b, c⟩ ↦ ⟨a, b, c⟩⟩

/-- The calls of hived. `dump` stands for the massive sync, in which the serializer writes blocks
directly to the irreversible tables. -/
inductive HivedCall where
  | pushBlock (d : BlockData)
  | backFromFork (blockNumBeforeFork : ℕ)
  | setIrreversible (blockNum : ℕ) (lock : Bool)
  | dump (d : BlockData)
  | endMassiveSync (blockNum : ℕ) (lock : Bool)
  deriving DecidableEq, Repr

/-- An event hived emitted, with its chain, fork and irreversible block after the event. -/
structure HistoryEntry where
  event : Event
  chain : List BlockData
  forkId : ℕ
  consistentBlock : Option ℕ
  deriving DecidableEq, Repr

structure World (ρ : Type) where
  db : Db ρ
  chain : List BlockData
  history : List HistoryEntry
  deriving DecidableEq, Repr

namespace World

def initial (ρ : Type) (state : SyncState) : World ρ where
  db := { Db.initial ρ with hiveState := { state } }
  chain := []
  history := [⟨⟨0, .newIrreversible, 0⟩, [], 1, none⟩]

def Published (w : World ρ) : Prop := w.db.headOfBlocks = w.db.irreversibleHead

instance (w : World ρ) : Decidable w.Published := by unfold Published; infer_instance

/-- The calls hived makes: it pushes the next block of its chain; it switches forks and announces
irreversible blocks between the irreversible head and the head; it starts a massive sync only
without reversible blocks and announces no block that is not written. -/
def Allowed (w : World ρ) : HivedCall → Prop
  | .pushBlock d => w.Published ∧ d.Extends w.chain
  | .backFromFork k => w.Published ∧ w.db.irreversibleHead ≤ k ∧ k ≤ w.chain.length
  | .setIrreversible n _ => w.Published ∧ w.db.irreversibleHead ≤ n ∧ n ≤ w.chain.length
  | .dump d => w.chain.length = w.db.headOfBlocks ∧ d.Extends w.chain
  | .endMassiveSync n _ => w.chain.length = w.db.headOfBlocks ∧ w.db.irreversibleHead ≤ n ∧
      n ≤ w.db.headOfBlocks

instance (w : World ρ) (call : HivedCall) : Decidable (w.Allowed call) := by
  cases call <;> unfold Allowed <;> infer_instance

end World

namespace HivedCall

def run (db : Db ρ) : HivedCall → Except Error (Db ρ)
  | pushBlock d => HiveForkManager.pushBlock d true db
  | backFromFork k => do
    let h ← HiveForkManager.backFromFork k db.toHafd
    pure { db with toHafd := h }
  | setIrreversible n lock => HiveForkManager.setIrreversible n lock db
  | dump d => .ok { db with irreversible := db.irreversible.insert d }
  | endMassiveSync n lock => HiveForkManager.endMassiveSync n lock db

def chainAfter (chain : List BlockData) : HivedCall → List BlockData
  | pushBlock d => chain ++ [d]
  | backFromFork k => chain.take k
  | setIrreversible _ _ => chain
  | dump d => chain ++ [d]
  | endMassiveSync _ _ => chain

def entry (eventsId : ℕ) (h : Hafd) (chain : List BlockData) : HivedCall → List HistoryEntry
  | pushBlock d => [⟨⟨eventsId, .newBlock, d.block.num⟩, chain ++ [d], h.maxFork, h.consistentBlock⟩]
  | backFromFork k =>
    [⟨⟨eventsId, .backFromFork, h.maxFork⟩, chain.take k, h.maxFork, h.consistentBlock⟩]
  | setIrreversible n _ => [⟨⟨eventsId, .newIrreversible, n⟩, chain, h.maxFork, h.consistentBlock⟩]
  | dump _ => []
  | endMassiveSync n _ =>
    [⟨⟨eventsId, .massiveSync, n⟩, chain.take n, h.maxFork, h.consistentBlock⟩]

end HivedCall

namespace World

def hived (call : HivedCall) (w : World ρ) : World ρ :=
  match call.run w.db with
  | .error _ => w
  | .ok db =>
    { db
      chain := call.chainAfter w.chain
      history := w.history ++ call.entry w.db.eventsIdSeq db.toHafd w.chain }

def app (call : Db ρ → Except Error (Db ρ)) (w : World ρ) : World ρ :=
  match call w.db with
  | .error _ => w
  | .ok db => { w with db }

end World

/-- The application inserts one row for each of the given blocks into every table of a context. -/
def Context.insertBlocks (nums : List ℕ) (c : Context ℕ) : Except Error (Context ℕ) := do
  let tables ← c.tables.mapM (fun t ↦ t.insertColumns c.currentBlockNum nums)
  pure { c with tables }

def insertBlocks (contexts : List ContextName) (nums : List ℕ) (db : Db ℕ) : Except Error (Db ℕ) :=
  db.forEachContext contexts (Context.insertBlocks nums)

/-- An application that asks for the next block and handles the first block of the range. -/
def processNextBlock (env : CallEnv) (contexts : List ContextName) (blockLimit : Option ℕ)
    (db : Db ℕ) : Except Error (Db ℕ) := do
  let (db, range) ← appNextBlock env contexts false blockLimit db
  match range with
  | none => pure db
  | some r => insertBlocks contexts [r.firstBlock.toNat] db

end HiveForkManager
