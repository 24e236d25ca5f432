import Mathlib

namespace HiveForkManager

/-- The seven vectors of `cached_data_t`. -/
inductive CacheKind where
  | blocks | transactions | transactionsMultisig | operations | accounts | accountOperations
  | appliedHardforks
  deriving DecidableEq, Repr

structure CachedRow (β : Type) where
  blockNumber : ℕ
  row : β
  deriving DecidableEq, Repr

abbrev CachedData (β : Type) := CacheKind → List (CachedRow β)

structure AppliedBlock (β : Type) where
  num : ℕ
  rows : CacheKind → List β
  one_block : (rows .blocks).length = 1

def rowsOf {β : Type} (blocks : List (AppliedBlock β)) : CachedData β := fun kind ↦
  blocks.flatMap fun b ↦ (b.rows kind).map (⟨b.num, ·⟩)

section CachedData

variable {β : Type}

/-- `move_items_upto_block` on every cache: the moved rows and those that stay. The vectors are
sorted, so `std::upper_bound` ends the first part. -/
def moveItemsUptoBlock (blockNumber : ℕ) (data : CachedData β) : CachedData β × CachedData β :=
  (fun kind ↦ (data kind).takeWhile fun r ↦ decide (r.blockNumber ≤ blockNumber),
    fun kind ↦ (data kind).dropWhile fun r ↦ decide (r.blockNumber ≤ blockNumber))

/-- `erase_items_greater_than_block` on every cache. -/
def eraseItemsGreaterThanBlock (blockNumber : ℕ) (data : CachedData β) : CachedData β := fun kind ↦
  (data kind).takeWhile fun r ↦ decide (r.blockNumber < blockNumber + 1)

/-- `move_irreveresible_blocks`; no irreversible block is known after the start of a P2P sync. -/
def moveIrreversibleBlocks (irreversibleBlock : Option ℕ) (data : CachedData β) :
    CachedData β × CachedData β :=
  match irreversibleBlock with
  | none => (fun _ ↦ [], data)
  | some n => moveItemsUptoBlock n data

end CachedData

inductive IndexationState where
  | start | wait | reindexWait | reindex | p2p | live
  deriving DecidableEq, Repr

def IndexationState.collectBlocks : IndexationState → Bool
  | .reindex | .p2p | .live => true
  | _ => false

/-- What a dumper was given in one call; `live` tells the dumper of the live sync, which pushes a
single block. -/
structure DumpedBatch (β : Type) where
  data : CachedData β
  lastBlockNum : ℕ
  live : Bool

structure IndexationConfig where
  liteMode : Bool
  psqlFirstBlock : ℕ
  deriving DecidableEq, Repr

structure Indexation (β : Type) where
  state : IndexationState
  cache : CachedData β
  irreversibleBlockNum : Option ℕ
  /-- Of the flush trigger of the P2P sync. -/
  lastFlushedBlockNum : ℕ
  priorMassiveSyncInterrupted : Bool
  psqlHeadAtStartup : ℕ
  dumped : List (DumpedBatch β)
  /-- The head block of hived and its last irreversible one. -/
  head : ℕ
  lib : ℕ
  /-- The collected blocks of the chain hived is on. -/
  chain : List (AppliedBlock β)
  /-- The serializer was closed, or the replay ended at the block it was asked to stop at. -/
  stopped : Bool

namespace Indexation

variable {β : Type}

def initial (head lib psqlHead : ℕ) (interrupted : Bool) : Indexation β :=
  ⟨.start, fun _ ↦ [], none, 0, interrupted, psqlHead, [], head, lib, [], false⟩

/-- `force_trigger_flush_with_all_data`. The states that do not collect have a fake dumper, the
others one that takes the rows out of the vectors; the result has what is left of them. -/
def forceTriggerFlush (data : CachedData β) (lastBlockNum : ℕ) (s : Indexation β) :
    Except String (CachedData β × Indexation β) :=
  if (data .blocks).isEmpty then .ok (data, s)
  else match s.state with
    | .start | .wait | .reindexWait => .ok (data, s)
    | .reindex | .p2p =>
      .ok (fun _ ↦ [], { s with dumped := s.dumped ++ [⟨data, lastBlockNum, false⟩] })
    | .live =>
      if (data .blocks).length = 1 then
        .ok (fun _ ↦ [], { s with dumped := s.dumped ++ [⟨data, lastBlockNum, true⟩] })
      else .error "LIVE sync can only process one block"

def flushCache (lastBlockNum : ℕ) (s : Indexation β) : Except String (Indexation β) := do
  let (rest, s) ← forceTriggerFlush s.cache lastBlockNum s
  pure { s with cache := rest }

/-- A flush of rows moved out of the caches; what the dumper leaves of them is dropped. -/
def flushMoved (moved : CachedData β × CachedData β) (lastBlockNum : ℕ) (s : Indexation β) :
    Except String (Indexation β) := do
  let (_, s) ← forceTriggerFlush moved.1 lastBlockNum { s with cache := moved.2 }
  pure s

/-- The loop of `flush_all_data_to_reversible` and of `lite_live_flush_trigger`: the cached blocks
are moved out one by one as long as the first one is accepted. Each turn takes at least a block, so
their number bounds the turns. -/
def flushOneByOne (accept : ℕ → Bool) : ℕ → Indexation β → Except String (Indexation β)
  | 0, s => .ok s
  | turns + 1, s =>
    match s.cache .blocks with
    | [] => .ok s
    | r :: _ =>
      if accept r.blockNumber then do
        let s ← flushMoved (moveItemsUptoBlock r.blockNumber s.cache) r.blockNumber s
        flushOneByOne accept turns s
      else .ok s

def flushSingleBlocks (accept : ℕ → Bool) (s : Indexation β) : Except String (Indexation β) :=
  flushOneByOne accept (s.cache .blocks).length s

/-- `trigger_data_flush`, with the trigger of the state. -/
def triggerDataFlush (cfg : IndexationConfig) (lastBlockNum : ℕ) (s : Indexation β) :
    Except String (Indexation β) :=
  match s.state with
  | .start | .wait | .reindexWait => .ok s
  | .reindex => if lastBlockNum % 1000 = 0 then flushCache lastBlockNum s else .ok s
  | .p2p =>
    match s.irreversibleBlockNum with
    | none => .ok s
    | some n =>
      if (n : ℤ) - s.lastFlushedBlockNum < 1000 then .ok s
      else do
        let s ← flushMoved (moveIrreversibleBlocks (some n) s.cache) n s
        pure { s with lastFlushedBlockNum := n }
  | .live =>
    if cfg.liteMode then
      match s.irreversibleBlockNum with
      | none => .ok s
      | some n => flushSingleBlocks (fun m ↦ decide (m ≤ n)) s
    else flushCache lastBlockNum s

/-- `move_irreversible_blocks`; without an irreversible block the number is `NO_IRREVERSIBLE_BLOCK`
and nothing is moved. -/
def flushIrreversibleBlocks (s : Indexation β) : Except String (Indexation β) :=
  flushMoved (moveIrreversibleBlocks s.irreversibleBlockNum s.cache)
    (s.irreversibleBlockNum.getD 2147483647) s

def flushBeforeLive (s : Indexation β) : Except String (Indexation β) :=
  if s.state = .start then .ok s else flushIrreversibleBlocks s

/-- The end of `update_state( LIVE )`: the lite mode discards what is not irreversible instead of
flushing it as reversible. -/
def startLive (cfg : IndexationConfig) (s : Indexation β) : Except String (Indexation β) :=
  if cfg.liteMode then .ok { s with state := .live, cache := fun _ ↦ [] }
  else flushSingleBlocks (fun _ ↦ true) { s with state := .live }

def updateState (cfg : IndexationConfig) (target : IndexationState) (lastBlockNum : ℕ)
    (s : Indexation β) : Except String (Indexation β) :=
  if s.state = .live then .error "Move from LIVE state is illegal"
  else if target = .p2p ∧ s.state ≠ .reindex ∧ s.priorMassiveSyncInterrupted = true ∧
      lastBlockNum ≠ s.psqlHeadAtStartup + 1 then
    .error ("Refusing to resume interrupted massive sync: dumped head " ++
      toString s.psqlHeadAtStartup ++ ", incoming block " ++ toString lastBlockNum)
  else match target with
    | .start => .ok s
    | .wait | .reindexWait => .ok { s with state := target }
    | .p2p => do
      let s ← flushCache lastBlockNum s
      pure { s with state := .p2p, irreversibleBlockNum := none, lastFlushedBlockNum := 0 }
    | .reindex =>
      if s.state = .start ∨ s.state = .reindexWait then do
        let s ← flushCache lastBlockNum s
        pure { s with state := .reindex }
      else .error "Reindex always starts after START or REINDEX_WAIT"
    | .live => flushBeforeLive s >>= startLive cfg

/-- `on_first_block` passes caches of its own, which are empty. -/
def updateWithEmptyCache (cfg : IndexationConfig) (target : IndexationState) (lastBlockNum : ℕ)
    (s : Indexation β) : Except String (Indexation β) := do
  let s' ← updateState cfg target lastBlockNum { s with cache := fun _ ↦ [] }
  pure { s' with cache := s.cache }

def onFirstBlock (cfg : IndexationConfig) (canMoveToLivesync : Bool) (lastBlockNum : ℕ)
    (s : Indexation β) : Except String (Indexation β) :=
  match s.state with
  | .start | .wait =>
    updateWithEmptyCache cfg (if canMoveToLivesync then .live else .p2p) lastBlockNum s
  | .reindexWait => updateWithEmptyCache cfg .reindex lastBlockNum s
  | .reindex | .p2p | .live => .ok s

def leaveStart (cfg : IndexationConfig) (lastBlockNum : ℕ) (s : Indexation β) :
    Except String (Indexation β) :=
  if s.state = .start then updateState cfg .wait lastBlockNum s else .ok s

/-- `on_block`, called before a block is applied. -/
def onBlock (cfg : IndexationConfig) (canMoveToLivesync : Bool) (lastBlockNum : ℕ)
    (s : Indexation β) : Except String (Indexation β) := do
  let s ← leaveStart cfg lastBlockNum s
  if cfg.psqlFirstBlock ≤ lastBlockNum then onFirstBlock cfg canMoveToLivesync lastBlockNum s
  else pure s

def onPreReindex (cfg : IndexationConfig) (canMoveToLivesync : Bool) (s : Indexation β) :
    Except String (Indexation β) :=
  updateState cfg (if canMoveToLivesync then .wait else .reindexWait) s.head s

/-- `on_post_reindex`; a replay that reached the block it was to stop at ends the synchronization. -/
def onPostReindex (cfg : IndexationConfig) (stopReplayAt : ℕ) (s : Indexation β) :
    Except String (Indexation β) :=
  let finish (target : IndexationState) : Except String (Indexation β) :=
    if stopReplayAt ≠ 0 ∧ stopReplayAt = s.head then do
      let s ← flushCache s.head s
      pure { s with stopped := true }
    else updateState cfg target s.head s
  match s.state with
  | .start | .p2p | .live | .wait => .ok s
  | .reindex => finish .p2p
  | .reindexWait => finish .wait

def onEndOfSyncing (cfg : IndexationConfig) (s : Indexation β) : Except String (Indexation β) :=
  if s.state = .live then .ok s else updateState cfg .live s.head s

def collect (b : AppliedBlock β) (s : Indexation β) : Indexation β :=
  { s with cache := fun kind ↦ s.cache kind ++ rowsOf [b] kind, chain := s.chain ++ [b] }

def onPostApplyBlock (cfg : IndexationConfig) (b : AppliedBlock β) (s : Indexation β) :
    Except String (Indexation β) :=
  if s.state.collectBlocks then triggerDataFlush cfg b.num (collect b s) else .ok s

/-- `on_switch_fork` with the `back_from_fork` of the live dumper, which is connected in the full
mode only and takes the blocks above `k` out of the reversible tables. -/
def onSwitchFork (cfg : IndexationConfig) (k : ℕ) (s : Indexation β) : Indexation β :=
  { s with
    cache := if s.state = .p2p ∨ s.state = .live ∧ cfg.liteMode = true then
      eraseItemsGreaterThanBlock k s.cache else s.cache
    dumped := if s.state = .live ∧ cfg.liteMode = false then
      s.dumped.filter fun d ↦ !d.live || decide (d.lastBlockNum ≤ k) else s.dumped }

/-- `flush_all_cached_data`, when the plugin is shut down. -/
def flushAllCachedData (s : Indexation β) : Except String (Indexation β) :=
  if s.state = .live then flushIrreversibleBlocks s else flushCache s.head s

end Indexation

end HiveForkManager
