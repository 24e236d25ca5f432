import HiveForkManager.AppApi

namespace HiveForkManager

variable {ρ : Type}

section Stages

def liveStage : ApplicationStage := ⟨"live", 0, ⟨1, Nat.one_pos⟩, 3⟩

def waitForHafStage : ApplicationStage := ⟨"wait_for_haf", 2147483647, ⟨1, Nat.one_pos⟩, 3⟩

def defaultStages : List ApplicationStage :=
  [⟨"MASSIVE_PROCESSING", 100, ⟨1000, by decide⟩, 5⟩, liveStage]

def validateStages (stages : List ApplicationStage) : Except Error Unit :=
  if ¬ (stages.map ApplicationStage.name).Nodup then
    .error (.raiseException "Name of stage repeats in stages array")
  else if ¬ (stages.map ApplicationStage.minHeadBlockDistance).Nodup then
    .error (.raiseException "Distance to head block repeats in stages array")
  else if liveStage ∉ stages then
    .error (.raiseException "No live stage in stages array")
  else .ok ()

def getEstimatedHiveHeadBlock (env : CallEnv) (h : Hafd) : Option ℤ := do
  let consistent ← h.consistentBlock
  let hb ← h.irreversible.blocks.find? (fun b ↦ b.num = consistent)
  pure (((env.now : ℤ) - hb.createdAt).tdiv 3 + hb.num)

def distanceToHead (env : CallEnv) (contexts : List ContextName) (db : Db ρ) : Option ℤ :=
  (db.leadContext contexts).map (fun ctx ↦
    (if db.hiveState.state = .live then (db.irreversibleHead : ℤ)
      else (getEstimatedHiveHeadBlock env db.toHafd).getD 0) - ctx.currentBlockNum)

def isAbsLivesync (env : CallEnv) (contexts : List ContextName) (db : Db ρ) : Bool :=
  (distanceToHead env contexts db).any (fun d ↦ decide (d ≤ 0))

def stagesAtDistance (distance : ℤ) (stages : List ApplicationStage) : List ApplicationStage :=
  let reached := stages.filter (fun s ↦ decide ((s.minHeadBlockDistance : ℤ) - distance ≤ 0))
  reached.filter (fun s ↦ reached.all
    (fun s' ↦ decide (s'.minHeadBlockDistance ≤ s.minHeadBlockDistance)))

/-- `hive.get_current_stage`. The query for reversible blocks does not end the function. -/
def getCurrentStage (env : CallEnv) (contexts : List ContextName) (db : Db ρ) :
    Except Error (List (ApplicationStage × ContextName)) := do
  appCheckContextsSynchronized contexts db
  let live := if isAbsLivesync env contexts db then contexts.map (liveStage, ·) else []
  let byDistance := match distanceToHead env contexts db with
    | none => []
    | some distance => (db.group contexts).flatMap (fun ctx ↦
        (stagesAtDistance distance (ctx.stages.getD [])).map (·, ctx.name))
  pure (live ++ byDistance)

end Stages

section Loop

def setWaitingForHafStage (contexts : List ContextName) (db : Db ρ) : Db ρ :=
  db.updateContexts contexts
    (fun c ↦ { c with loop := { c.loop with currentStage := some waitForHafStage } })

/-- The smallest batch that a context of the group wants, of those that are not in the live
stage. -/
def sizeOfBatch (contexts : List ContextName) (db : Db ρ) : ℕ :=
  (((db.group contexts).filterMap (fun c ↦ c.loop.currentStage)).filter
    (fun s ↦ decide (s ≠ liveStage))).map (fun s ↦ s.blocksLimitInGroup.1) |>.min?.getD 1

def analyzeStages (env : CallEnv) (contexts : List ContextName) (blocksRange : BlocksRange)
    (headBlock : Option ℤ) (db : Db ρ) : Except Error (Db ρ) := do
  let numberOfBlocksToSync := (blocksRange.lastBlock - blocksRange.firstBlock).toNat
  let stages ← getCurrentStage env contexts db
  let staged := db.updateContexts contexts (fun c ↦ { c with loop := { c.loop with
    currentStage := ((stages.find? (fun s ↦ s.2 = c.name)).map Prod.fst).or c.loop.currentStage } })
  let size := sizeOfBatch contexts staged
  pure (staged.updateContexts contexts (fun c ↦ { c with loop := { c.loop with
    sizeOfBlocksBatch := some size
    endBlockRange := some (c.currentBlockNum + numberOfBlocksToSync)
    lastAnalyzeDistanceToHeadBlock :=
      some (headBlock.getD 0 - (c.loop.currentBatchEnd.getD 0 : ℕ)) } }))

/-- `hive.is_stages_analyze_required`. A comparison with `NULL` does not require it. -/
def isStagesAnalyzeRequired (state : ApplicationLoopState) (currentHeadBlock : Option ℤ) : Bool :=
  decide (state = {}) ||
  decide (state.currentStage = some waitForHafStage) ||
  (match state.endBlockRange, state.currentBatchEnd with
    | some rangeEnd, some batchEnd => decide (rangeEnd ≤ batchEnd)
    | _, _ => false) ||
  (match state.lastAnalyzeDistanceToHeadBlock, currentHeadBlock, state.currentBatchEnd with
    | some distance, some head, some batchEnd => decide (distance < head - batchEnd)
    | _, _, _ => false)

def isLivesync (contexts : List ContextName) (db : Db ρ) : Bool :=
  decide (((db.group contexts).filter
    (fun c ↦ decide (c.loop.currentStage = some liveStage))).length = contexts.length)

def updateAttachment (env : CallEnv) (contexts : List ContextName) (db : Db ρ) :
    Except Error (Db ρ) := do
  let attached ← appContextAreAttached contexts db
  if isLivesync contexts db && env.isInstanceReady then
    if attached then pure db else appContextAttach env contexts db
  else if attached then appContextDetach contexts db else pure db

def least (values : List (Option ℕ)) : Option ℕ := (values.filterMap id).min?

/-- The contexts are left detached: they are in a stage of massive processing and have irreversible
blocks to process. -/
def skipAttach (state : ApplicationLoopState) (currentBlockNum : ℕ) (forking : Bool) (h : Hafd) :
    Bool :=
  forking && state.currentStage.any (fun s ↦ decide (s ≠ liveStage ∧ s ≠ waitForHafStage)) &&
    decide (currentBlockNum < h.irreversibleHead)

/-- Before the stages are analysed the contexts are attached, if hived may already have reversible
blocks for them. -/
def attachForAnalysis (env : CallEnv) (contexts : List ContextName) (lead : Context ρ) (db : Db ρ) :
    Except Error (Db ρ) := do
  let forking ← appAreForking contexts db
  let attached ← appContextAreAttached contexts db
  if !attached && (db.hiveState.state = .live || db.hiveState.pruning = 0) &&
      env.isInstanceReady && !skipAttach lead.loop lead.currentBlockNum forking db.toHafd then
    appContextAttach env contexts db
  else pure db

def analyzedBatch (env : CallEnv) (overrideMaxBatch limit : Option ℕ) (range : BlocksRange)
    (state : ApplicationLoopState) : ℕ × ℕ :=
  let first := range.firstBlock.toNat
  let last := least [some range.lastBlock.toNat,
    (overrideMaxBatch.or state.sizeOfBlocksBatch).map (fun size ↦ first + size - 1),
    limit.or state.endBlockRange, state.endBlockRange, env.dependenciesBlockLimit]
  (first, last.getD 0)

/-- The first part of `hive.app_next_iteration`, in which the stages are analysed. -/
def nextAnalyzedRange (env : CallEnv) (contexts : List ContextName) (wait : Bool)
    (overrideMaxBatch limit : Option ℕ) (lead : Context ρ) (db : Db ρ) :
    Except Error (Db ρ × Option (ℕ × ℕ)) := do
  let attached ← attachForAnalysis env contexts lead db
  let (db, range) ← appNextBlock env contexts wait env.dependenciesBlockLimit attached
  match range with
  | none => pure (db, none)
  | some range => do
    let db ← analyzeStages env contexts range (getEstimatedHiveHeadBlock env db.toHafd) db
    let state := (db.leadContext contexts).elim {} Context.loop
    pure (db, some (analyzedBatch env overrideMaxBatch limit range state))

/-- The other part of `hive.app_next_iteration`, which goes on in the range found before. There is
an end of the last batch by then. -/
def nextBatchRange (env : CallEnv) (overrideMaxBatch limit : Option ℕ)
    (state : ApplicationLoopState) (h : Hafd) : Option (ℕ × ℕ) :=
  match state.currentBatchEnd with
  | none => none
  | some batchEnd =>
    let first := batchEnd + 1
    if h.consistentBlock.any (fun head ↦ decide (head < first)) then none
    else if env.dependenciesBlockLimit.any (fun l ↦ decide (l < first)) then none
    else
      let last := least [(overrideMaxBatch.or state.sizeOfBlocksBatch).map (fun size ↦ first + size - 1),
        limit.or state.endBlockRange, state.endBlockRange, h.consistentBlock,
        env.dependenciesBlockLimit]
      some (first, last.getD 0)

def appContextSetDefaultStages (contexts : List ContextName) (db : Db ρ) : Db ρ :=
  db.updateContexts contexts (fun c ↦ { c with stages := c.stages.or (some defaultStages) })

/-- The end of `hive.app_next_iteration`: the range is noted, the contexts are attached or detached
as their stages want it, and moved to the end of the range. -/
def finishIteration (env : CallEnv) (contexts : List ContextName) (lastBlock : ℕ)
    (endBlockRange : Option ℕ) (db : Db ρ) : Except Error (Db ρ) := do
  let noted := db.updateContexts contexts (fun c ↦
    { c with loop := { c.loop with currentBatchEnd := some lastBlock, endBlockRange } })
  let moved ← updateAttachment env contexts noted
  pure (moved.updateContexts contexts (fun c ↦ { c with currentBlockNum := lastBlock }))

/-- The next batch of blocks: of a new range when the stages have to be analysed, else of the old
one. -/
def nextRange (env : CallEnv) (contexts : List ContextName) (wait : Bool)
    (overrideMaxBatch limit : Option ℕ) (lead : Context ρ) (db : Db ρ) :
    Except Error (Db ρ × Option (ℕ × ℕ)) :=
  if isStagesAnalyzeRequired lead.loop (getEstimatedHiveHeadBlock env db.toHafd) then
    nextAnalyzedRange env contexts wait overrideMaxBatch limit lead db
  else .ok (db, nextBatchRange env overrideMaxBatch limit lead.loop db.toHafd)

def iterate (env : CallEnv) (contexts : List ContextName) (wait : Bool)
    (overrideMaxBatch limit : Option ℕ) (lead : Context ρ) (db : Db ρ) :
    Except Error (Db ρ × Option (ℕ × ℕ)) := do
  let (db, range) ← nextRange env contexts wait overrideMaxBatch limit lead db
  match range with
  | none => pure (db, none)
  | some range => do
    let endBlockRange := (db.leadContext contexts).bind (fun c ↦ c.loop.endBlockRange)
    let db ← finishIteration env contexts range.2 endBlockRange db
    pure (db, some range)

/-- `hive.app_next_iteration`, apart from the waiting and the log. -/
def appNextIteration (env : CallEnv) (contexts : List ContextName) (wait : Bool)
    (overrideMaxBatch limit : Option ℕ) (db : Db ρ) :
    Except Error (Db ρ × Option (ℕ × ℕ)) := do
  appCheckContextsSynchronized contexts db
  let db := db.updateContexts contexts (fun c ↦ { c with lastActiveAt := env.now })
  match db.leadContext contexts with
  | none => .error (.raiseException "Contexts are not synchronized")
  | some lead =>
    if limit.any (fun l ↦ decide (l ≤ lead.currentBlockNum)) then .ok (db, none)
    else if env.isPaused then .ok (db, none)
    else if !(env.isInstanceReady || env.isReadyForEarlyContexts) then
      .ok (setWaitingForHafStage contexts db, none)
    else if overrideMaxBatch = some 0 then
      .error (.assertFailure "Custom size of  blocks range is less than 1")
    else
      iterate env contexts wait overrideMaxBatch limit lead
        (appContextSetDefaultStages contexts db)

end Loop

end HiveForkManager
