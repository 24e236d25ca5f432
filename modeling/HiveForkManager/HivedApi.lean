import HiveForkManager.Database

namespace HiveForkManager

variable {ρ : Type}

/-- Inserts an event under the next id of the sequence. The last id is taken by the sink row. -/
def Hafd.insertEvent (event : EventType) (blockNum : ℕ) (h : Hafd) : Except Error Hafd :=
  if h.eventsIdSeq = unreachableEventId then
    .error (.uniqueViolation "events_queue_pkey")
  else
    .ok { h with
      eventsQueue := h.eventsQueue ++ [⟨h.eventsIdSeq, event, blockNum⟩]
      eventsIdSeq := h.eventsIdSeq + 1 }

def Hafd.maxFork (h : Hafd) : ℕ := (h.forks.map Fork.id).max?.getD 0

/-- `SELECT COALESCE( MAX( num ), 0 ) FROM hafd.blocks`. -/
def Hafd.headOfBlocks (h : Hafd) : ℕ := (h.irreversible.blocks.map Block.num).max?.getD 0

/-- `UPDATE hafd.hive_state SET consistent_block`, which must name a stored block. -/
def Hafd.setConsistentBlock (blockNum : ℕ) (h : Hafd) : Except Error Hafd :=
  if h.irreversible.blocks.any (fun b ↦ b.num = blockNum) then
    .ok { h with hiveState := { h.hiveState with consistentBlock := some blockNum } }
  else
    .error (.foreignKeyViolation "fk_1_hive_irreversible_data")

/-- Emits the event of a new irreversible block and makes the block the consistent one. -/
def Hafd.announce (event : EventType) (blockNum : ℕ) (h : Hafd) : Except Error Hafd := do
  let h ← h.insertEvent event blockNum
  h.setConsistentBlock blockNum

section Copy

variable {α : Type}

/-- Of the rows of every block number, the one of the highest fork:
`DISTINCT ON ( num ) … ORDER BY num ASC, fork_id DESC`. -/
def newestForks (rows : List (Reversible Block)) : List (Reversible Block) :=
  rows.filter (fun r ↦ rows.all (fun r' ↦ decide (r'.row.num = r.row.num → r'.forkId ≤ r.forkId)))

def blocksInRange (head newIrreversible : ℕ) (rows : List (Reversible Block)) :
    List (Reversible Block) :=
  rows.filter (fun r ↦ decide (r.row.num ≤ newIrreversible ∧ head < r.row.num))

/-- The block numbers above `head` and up to `newIrreversible`, with the newest fork of each. -/
def numAndForks (head newIrreversible : ℕ) (t : ReversibleTables) : List (ℕ × ℕ) :=
  (newestForks (blocksInRange head newIrreversible t.blocks)).map (fun r ↦ (r.row.num, r.forkId))

def joinForks (blockNum : α → Option ℕ) (forks : List (ℕ × ℕ)) (rows : List (Reversible α)) :
    List α :=
  (rows.filter (fun r ↦ forks.any (fun nf ↦ blockNum r.row = some nf.1 ∧ r.forkId = nf.2))).map
    Reversible.row

def copyBlocksToIrreversible (head newIrreversible : ℕ) (t : ReversibleTables) : List Block :=
  (newestForks (blocksInRange head newIrreversible t.blocks)).map Reversible.row

def copyTransactionsToIrreversible (head newIrreversible : ℕ) (t : ReversibleTables) :
    List Transaction :=
  joinForks (fun x ↦ some x.blockNum) (numAndForks head newIrreversible t) t.transactions

def copyOperationsToIrreversible (head newIrreversible : ℕ) (t : ReversibleTables) :
    List Operation :=
  joinForks (fun x ↦ some (operationIdToBlockNum x.id)) (numAndForks head newIrreversible t)
    t.operations

def copyAppliedHardforksToIrreversible (head newIrreversible : ℕ) (t : ReversibleTables) :
    List AppliedHardfork :=
  joinForks (fun x ↦ some x.blockNum) (numAndForks head newIrreversible t) t.appliedHardforks

def copySignaturesToIrreversible (head newIrreversible : ℕ) (t : ReversibleTables) :
    List TransactionMultisig :=
  t.transactionsMultisig.flatMap (fun s ↦
    ((t.transactions.filter
      (fun x ↦ decide (x.row.trxHash = s.row.trxHash ∧ x.forkId = s.forkId))).filter
      (fun x ↦ (numAndForks head newIrreversible t).any
        (fun nf ↦ decide (x.row.blockNum = nf.1 ∧ x.forkId = nf.2)))).map (fun _ ↦ s.row))

def copyAccountsToIrreversible (head newIrreversible : ℕ) (t : ReversibleTables) : List Account :=
  joinForks Account.blockNum (numAndForks head newIrreversible t) t.accounts

def copyAccountOperationsToIrreversible (head newIrreversible : ℕ) (t : ReversibleTables) :
    List AccountOperation :=
  joinForks (fun x ↦ some (operationIdToBlockNum x.operationId))
    (numAndForks head newIrreversible t) t.accountOperations

/-- The seven `copy_*_to_irreversible` functions as `hive.set_irreversible` calls them. -/
def copyToIrreversible (head newIrreversible : ℕ) (h : Hafd) : Hafd :=
  let t := h.reversible
  let i := h.irreversible
  { h with irreversible :=
    { blocks := i.blocks ++ copyBlocksToIrreversible head newIrreversible t
      transactions := i.transactions ++ copyTransactionsToIrreversible head newIrreversible t
      transactionsMultisig :=
        i.transactionsMultisig ++ copySignaturesToIrreversible head newIrreversible t
      operations := i.operations ++ copyOperationsToIrreversible head newIrreversible t
      accounts := i.accounts ++ copyAccountsToIrreversible head newIrreversible t
      accountOperations :=
        i.accountOperations ++ copyAccountOperationsToIrreversible head newIrreversible t
      appliedHardforks :=
        i.appliedHardforks ++ copyAppliedHardforksToIrreversible head newIrreversible t } }

end Copy

section Cleanup

/-- The contexts `hive.remove_obsolete_reversible_data` looks at. -/
def Db.attachedForking (db : Db ρ) : List (Context ρ) :=
  db.contexts.filter (fun c ↦ c.isAttached && c.isForking)

def Db.obsoleteForkBound (db : Db ρ) : ℕ :=
  min ((db.attachedForking.map Context.forkId).min?.getD maxForkId) db.maxFork

def Db.obsoleteBlockBound (newIrreversible : ℕ) (db : Db ρ) : ℕ :=
  min ((db.attachedForking.map Context.irreversibleBlock).min?.getD maxBlockNum) newIrreversible

def superseded (forks : List Fork) (num forkId : ℕ) : Bool :=
  match ((forks.filter (fun f ↦ decide (forkId < f.id))).map Fork.blockNum).min? with
  | some m => decide (m < num)
  | none => false

def Db.isObsolete (newIrreversible : ℕ) (db : Db ρ) (num forkId : ℕ) : Bool :=
  decide (num ≤ db.obsoleteBlockBound newIrreversible) ||
    (decide (forkId < db.obsoleteForkBound) && superseded db.forks num forkId)

/-- `hive.remove_obsolete_reversible_data`. Account operations and signatures go with the
operations and the transactions they belong to. -/
def removeObsoleteReversibleData (newIrreversible : ℕ) (db : Db ρ) : Db ρ :=
  let t := db.reversible
  let obsolete := db.isObsolete newIrreversible
  { db with reversible := if db.hiveState.liteMode then t else
    { accountOperations := t.accountOperations.filter (fun a ↦ !t.operations.any (fun o ↦
        decide (a.row.operationId = o.row.id ∧ a.forkId = o.forkId) &&
          obsolete (operationIdToBlockNum o.row.id) o.forkId))
      appliedHardforks := t.appliedHardforks.filter (fun x ↦ !obsolete x.row.blockNum x.forkId)
      operations := t.operations.filter
        (fun o ↦ !obsolete (operationIdToBlockNum o.row.id) o.forkId)
      transactionsMultisig := t.transactionsMultisig.filter (fun s ↦ !t.transactions.any (fun x ↦
        decide (x.forkId = s.forkId ∧ x.row.trxHash = s.row.trxHash) &&
          obsolete x.row.blockNum x.forkId))
      transactions := t.transactions.filter (fun x ↦ !obsolete x.row.blockNum x.forkId)
      accounts := t.accounts.filter (fun a ↦ match a.row.blockNum with
        | some num => !obsolete num a.forkId
        | none => true)
      blocks := t.blocks.filter (fun b ↦ !obsolete b.row.num b.forkId) } }

def removeUnecessaryEvents (newIrreversible : ℕ) (db : Db ρ) : Db ρ :=
  let upperBound := ((db.eventsQueue.filter (fun e ↦
    decide (e.event ≠ .backFromFork ∧ e.blockNum = newIrreversible + 1))).map Event.id).min?
  let minEvent := (db.contexts.map Context.eventsId).min?
  { db with eventsQueue := db.eventsQueue.filter (fun e ↦
      !(decide (∀ u ∈ upperBound, e.id < u) && decide (∀ m ∈ minEvent, e.id < m) &&
        decide (e.id ≠ 0))) }

def cleanup (newIrreversible : ℕ) (lock : Bool) (db : Db ρ) : Db ρ :=
  if lock then
    removeObsoleteReversibleData newIrreversible (removeUnecessaryEvents newIrreversible db)
  else db

end Cleanup

section Api

def backFromForkLite (blockNumBeforeFork : ℕ) (h : Hafd) : Hafd :=
  let i := h.irreversible
  { h with irreversible :=
    { accountOperations := i.accountOperations.filter
        (fun a ↦ decide (operationIdToBlockNum a.operationId ≤ blockNumBeforeFork))
      appliedHardforks := i.appliedHardforks.filter
        (fun x ↦ decide (x.blockNum ≤ blockNumBeforeFork))
      operations := i.operations.filter
        (fun o ↦ decide (operationIdToBlockNum o.id ≤ blockNumBeforeFork))
      transactionsMultisig := i.transactionsMultisig.filter (fun s ↦ !i.transactions.any
        (fun x ↦ decide (s.trxHash = x.trxHash ∧ blockNumBeforeFork < x.blockNum)))
      transactions := i.transactions.filter (fun x ↦ decide (x.blockNum ≤ blockNumBeforeFork))
      accounts := i.accounts.map (fun a ↦
        if a.blockNum.any (fun n ↦ decide (blockNumBeforeFork < n)) then { a with blockNum := none }
        else a)
      blocks := i.blocks.filter (fun b ↦ decide (b.num ≤ blockNumBeforeFork)) } }

def backFromFork (blockNumBeforeFork : ℕ) (h : Hafd) : Except Error Hafd :=
  if h.hiveState.liteMode then .ok (backFromForkLite blockNumBeforeFork h) else
  let forked : Hafd := { h with forks := h.forks ++ [⟨h.maxFork + 1, blockNumBeforeFork⟩] }
  forked.insertEvent .backFromFork forked.maxFork

def ReversibleTables.insert (t : ReversibleTables) (d : BlockData) (forkId : ℕ) :
    ReversibleTables where
  blocks := t.blocks ++ [⟨d.block, forkId⟩]
  transactions := t.transactions ++ d.transactions.map (⟨·, forkId⟩)
  transactionsMultisig := t.transactionsMultisig ++ d.signatures.map (⟨·, forkId⟩)
  operations := t.operations ++ d.operations.map (⟨·, forkId⟩)
  accounts := t.accounts ++ d.accounts.map (⟨·, forkId⟩)
  accountOperations := t.accountOperations ++ d.accountOperations.map (⟨·, forkId⟩)
  appliedHardforks := t.appliedHardforks ++ d.appliedHardforks.map (⟨·, forkId⟩)

def IrreversibleTables.insert (t : IrreversibleTables) (d : BlockData) : IrreversibleTables where
  blocks := t.blocks ++ [d.block]
  transactions := t.transactions ++ d.transactions
  transactionsMultisig := t.transactionsMultisig ++ d.signatures
  operations := t.operations ++ d.operations
  accounts := t.accounts ++ d.accounts
  accountOperations := t.accountOperations ++ d.accountOperations
  appliedHardforks := t.appliedHardforks ++ d.appliedHardforks

/-- `INSERT INTO hafd.accounts … ON CONFLICT ( id ) DO UPDATE`. -/
def upsertAccount (accounts : List Account) (a : Account) : List Account :=
  if accounts.any (fun x ↦ x.id = a.id) then accounts.map (fun x ↦ if x.id = a.id then a else x)
  else accounts ++ [a]

def pushBlockLite (d : BlockData) (lock : Bool) (db : Db ρ) : Except Error (Db ρ) :=
  if db.irreversible.blocks.any (fun b ↦ b.num = d.block.num) then .ok db else do
  let inserted := { db.irreversible.insert d with
    accounts := d.accounts.foldl upsertAccount db.irreversible.accounts }
  let h ← { db.toHafd with irreversible := inserted }.announce .newIrreversible d.block.num
  let db := { db with toHafd := h }
  pure (if lock then removeUnecessaryEvents d.block.num db else db)

def pushBlock (d : BlockData) (lock : Bool) (db : Db ρ) : Except Error (Db ρ) :=
  if db.hiveState.liteMode then pushBlockLite d lock db else do
  let forkId := db.maxFork
  let h ← db.toHafd.insertEvent .newBlock d.block.num
  if db.reversible.blocks.any (fun r ↦ r.row.num = d.block.num ∧ r.forkId = forkId) then
    .error (.uniqueViolation "pk_hive_blocks_reversible")
  else
    pure { db with toHafd := { h with reversible := h.reversible.insert d forkId } }

def setIrreversible (blockNum : ℕ) (lock : Bool) (db : Db ρ) : Except Error (Db ρ) :=
  if db.hiveState.liteMode then do
    let h ← db.toHafd.announce .newIrreversible blockNum
    let db := { db with toHafd := h }
    pure (if lock then removeUnecessaryEvents blockNum db else db)
  else if blockNum < db.headOfBlocks then .ok db
  else do
    let copied := { db with toHafd := copyToIrreversible db.headOfBlocks blockNum db.toHafd }
    let cleaned := cleanup blockNum lock copied
    let h ← cleaned.toHafd.announce .newIrreversible blockNum
    pure { cleaned with toHafd := h }

def endMassiveSync (blockNum : ℕ) (lock : Bool) (db : Db ρ) : Except Error (Db ρ) := do
  let cleaned := cleanup blockNum lock db
  let h ← cleaned.toHafd.announce .massiveSync blockNum
  pure { cleaned with toHafd := h }

end Api

end HiveForkManager
