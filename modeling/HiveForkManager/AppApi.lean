import HiveForkManager.AppApiImpl

namespace HiveForkManager

variable {ρ : Type}

/-- What a call reads besides the modelled tables: the clock, whether the instance is ready, also for
contexts that opted in to early block processing, and the registry of applications
(`hive.app_is_paused`, `hive.app_dependencies_block_limit`). -/
structure CallEnv where
  now : ℕ
  isInstanceReady : Bool
  isReadyForEarlyContexts : Bool
  isPaused : Bool
  dependenciesBlockLimit : Option ℕ
  deriving DecidableEq, Repr

def Db.group (db : Db ρ) (contexts : List ContextName) : List (Context ρ) :=
  db.contexts.filter (fun c ↦ decide (c.name ∈ contexts))

structure SyncKey where
  currentBlockNum : ℕ
  isAttached : Bool
  eventsId : ℕ
  isForking : Bool
  sizeOfBlocksBatch : Option ℕ
  currentBatchEnd : Option ℕ
  endBlockRange : Option ℕ
  deriving DecidableEq, Repr

def Context.syncKey (c : Context ρ) : SyncKey where
  currentBlockNum := c.currentBlockNum
  isAttached := c.isAttached
  eventsId := c.eventsId
  isForking := c.isForking
  sizeOfBlocksBatch := c.loop.sizeOfBlocksBatch
  currentBatchEnd := c.loop.currentBatchEnd
  endBlockRange := c.loop.endBlockRange

def appCheckContextsSynchronized (contexts : List ContextName) (db : Db ρ) : Except Error Unit :=
  if ((db.group contexts).map Context.syncKey).dedup.length ≠ 1 then
    .error (.raiseException "Contexts are not synchronized")
  else .ok ()

def appAreForking (contexts : List ContextName) (db : Db ρ) : Except Error Bool := do
  appCheckContextsSynchronized contexts db
  let forking := (db.group contexts).filter Context.isForking
  if forking.isEmpty then pure false
  else if forking.length ≠ contexts.length then
    .error (.raiseException "Group consists forking and non forking contexts")
  else pure true

def appContextAreAttached (contexts : List ContextName) (db : Db ρ) : Except Error Bool := do
  appCheckContextsSynchronized contexts db
  match ((db.group contexts).map Context.isAttached).dedup with
  | [attached] => pure attached
  | _ => .error (.raiseException
      "No contexts or attached and detached contexts are present in the same group")

/-- `hive.app_next_block`, apart from the waiting. -/
def appNextBlock (env : CallEnv) (contexts : List ContextName) (wait : Bool)
    (blockLimit : Option ℕ) (db : Db ρ) : Except Error (Db ρ × Option BlocksRange) := do
  let limit := blockLimit <|> env.dependenciesBlockLimit
  appCheckContextsSynchronized contexts db
  let db := db.updateContexts contexts (fun c ↦ { c with lastActiveAt := env.now })
  if env.isPaused then pure (db, none) else do
  let forking ← appAreForking contexts db
  let attached ← appContextAreAttached contexts db
  if !db.hiveState.liteMode && forking &&
      (db.hiveState.state = .live || db.hiveState.pruning = 0) &&
      (env.isInstanceReady || attached) then
    appNextBlockForkingApp contexts limit db
  else
    appNextBlockNonForkingApp contexts wait limit db

def appContextAttach (env : CallEnv) (contexts : List ContextName) (db : Db ρ) :
    Except Error (Db ρ) := do
  appCheckContextsSynchronized contexts db
  match db.leadContext contexts with
  | none => .error (.raiseException "Contexts are not synchronized")
  | some lead =>
    if db.consistentBlock.any (fun head ↦ decide (head < lead.currentBlockNum)) then
      .error (.raiseException "Cannot attach context because the block num is grater than top of irreversible block")
    else
      let forkId := ((db.forks.filter (fun hf ↦
        decide (hf.blockNum ≤ max lead.currentBlockNum 1))).map Fork.id).max?
      let updated := db.updateContexts contexts (fun c ↦ { c with
        forkId := forkId.getD c.forkId
        irreversibleBlock := db.irreversibleHead
        eventsId := 0
        lastActiveAt := env.now })
      updated.forEachContext contexts (contextAttach lead.currentBlockNum)

def appContextDetach (contexts : List ContextName) (db : Db ρ) : Except Error (Db ρ) := do
  appCheckContextsSynchronized contexts db
  db.forEachContext contexts (contextDetach db.toHafd)

/-- The switch of the mode shared by `hive.app_context_set_non_forking` and
`hive.app_context_set_forking`: the contexts are detached and attached again where they are. -/
def appContextSetMode (env : CallEnv) (isForking : Bool) (contexts : List ContextName)
    (db : Db ρ) : Except Error (Db ρ) := do
  if (db.group contexts).all (fun c ↦ c.isForking = isForking) then pure db else do
  appCheckContextsSynchronized contexts db
  let db ← db.forEachContext contexts (contextDetach db.toHafd)
  let db := db.updateContexts contexts (fun c ↦ { c with isForking, lastActiveAt := env.now })
  db.forEachContext contexts (fun c ↦ contextAttach c.currentBlockNum c)

def appContextSetNonForking (env : CallEnv) (contexts : List ContextName) (db : Db ρ) :
    Except Error (Db ρ) :=
  appContextSetMode env false contexts db

def appContextSetForking (env : CallEnv) (contexts : List ContextName) (db : Db ρ) :
    Except Error (Db ρ) :=
  if db.hiveState.liteMode then
    .error (.raiseException
      "Cannot set forking mode in lite mode. Lite mode only supports non-forking contexts.")
  else appContextSetMode env true contexts db

def isContextName (name : ContextName) : Bool :=
  !name.toList.isEmpty && name.toList.all (fun ch ↦ ch.isAlphanum || ch = '_')

/-- The row `hive.context_create` inserts. The overload with stages creates the context detached. -/
def Db.newContext (env : CallEnv) (name : ContextName) (isForking isAttached : Bool)
    (stages : Option (List ApplicationStage)) (db : Db ρ) : Context ρ where
  name
  currentBlockNum := 0
  irreversibleBlock := db.irreversibleHead
  eventsId := (db.eventsQueue.map Event.id).min?.getD 0
  forkId := db.maxFork
  isForking := isForking && !db.hiveState.liteMode
  isAttached := isAttached && stages.isNone
  lastActiveAt := env.now
  stages
  loop := {}
  tables := []

/-- `hive.app_create_context`, with a number of empty tables registered in the new context. -/
def appCreateContext (env : CallEnv) (name : ContextName) (isForking isAttached : Bool)
    (stages : Option (List ApplicationStage)) (tables : ℕ) (db : Db ρ) : Except Error (Db ρ) :=
  if !isContextName name then
    .error (.raiseException ("Incorrect context name " ++ name ++
      ", only characters a-z A-Z 0-9 _ are allowed"))
  else if db.contexts.any (fun c ↦ c.name = name) then
    .error (.uniqueViolation "uq_hive_context_name")
  else
    let created := db.newContext env name isForking isAttached stages
    .ok { db with contexts := db.contexts ++ [registerTable^[tables] created] }

/-- One round of the loop of `hive.proc_perform_dead_app_contexts_auto_detach`: a failed detach is
only logged. -/
def autoDetachContext (name : ContextName) (db : Db ρ) : Db ρ :=
  match db.context? name with
  | none => db
  | some c =>
    match appContextDetach [name] db with
    | .error _ => db
    | .ok detached => detached.updateContexts [name]
        (fun hc ↦ if hc.stages.isNone then { hc with currentBlockNum := c.currentBlockNum } else hc)

/-- `hive.proc_perform_dead_app_contexts_auto_detach`. -/
def performDeadAppContextsAutoDetach (env : CallEnv) (appTimeout : ℕ) (db : Db ρ) : Db ρ :=
  if env.isInstanceReady then
    ((db.contexts.filter (fun c ↦
      c.isAttached && decide (c.lastActiveAt + appTimeout < env.now))).map Context.name).foldl
      (fun db name ↦ autoDetachContext name db) db
  else db

end HiveForkManager
