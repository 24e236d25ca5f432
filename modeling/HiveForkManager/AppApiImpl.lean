import HiveForkManager.ContextRewind
import HiveForkManager.HivedApi

namespace HiveForkManager

variable {ρ : Type}

def Db.leadContext (db : Db ρ) (contexts : List ContextName) : Option (Context ρ) :=
  contexts.head?.bind db.context?

def firstEvent (events : List Event) : Option Event := events.argmin Event.id

def lastEvent (events : List Event) : Option Event := events.argmax Event.id

/-- `UPDATE hafd.contexts SET events_id`, which must name an event of the queue. -/
def Db.setEventsId (contexts : List ContextName) (eventsId : ℕ) (db : Db ρ) : Except Error (Db ρ) :=
  if db.eventsQueue.any (fun e ↦ e.id = eventsId) then
    .ok (db.updateContexts contexts (fun c ↦ { c with eventsId }))
  else
    .error (.foreignKeyViolation "fk_hive_app_context")

namespace Hafd

def nextForkEvent (h : Hafd) (eventsId currentBlockNum : ℕ) : Option Event :=
  let candidates := h.eventsQueue.flatMap (fun heq ↦
    (h.forks.filter (fun hf ↦ decide (hf.id = heq.blockNum ∧ heq.event = .backFromFork ∧
      eventsId < heq.id ∧ hf.blockNum ≤ currentBlockNum))).map (fun hf ↦ (heq, hf)))
  (candidates.argmin (fun x ↦ toLex (x.2.blockNum, OrderDual.toDual x.1.id))).map Prod.fst

/-- Is there a `NEW_IRREVERSIBLE` or `MASSIVE_SYNC` between two events? -/
def irreversibleBetween (h : Hafd) (eventsId nextForkEventId : ℕ) : Bool :=
  h.eventsQueue.any (fun heq ↦ decide (heq.id < nextForkEventId ∧ eventsId < heq.id ∧
    (heq.event = .newIrreversible ∨ heq.event = .massiveSync)))

def nextBackFromFork (h : Hafd) (eventsId : ℕ) : Option Event :=
  firstEvent (h.eventsQueue.filter (fun heq ↦
    decide (eventsId < heq.id ∧ heq.event = .backFromFork)))

def nextIrreversibleEvent (h : Hafd) (eventsId irreversibleBlock : ℕ) : Option Event :=
  let nextBff := ((h.nextBackFromFork eventsId).map Event.id).getD unreachableEventId
  lastEvent (h.eventsQueue.filter (fun heq ↦ decide (eventsId < heq.id ∧
    (heq.event = .massiveSync ∨ heq.event = .newIrreversible) ∧ heq.id < nextBff ∧
    irreversibleBlock < heq.blockNum)))

def nextMassiveSyncEvent (h : Hafd) (eventsId : ℕ) : Option Event :=
  lastEvent (h.eventsQueue.filter (fun heq ↦
    decide (heq.event = .massiveSync ∧ eventsId < heq.id)))

/-- Is there a `BACK_FROM_FORK` between two events? -/
def forkBetween (h : Hafd) (eventsId massiveSyncEventId : ℕ) : Bool :=
  h.eventsQueue.any (fun heq ↦ decide (eventsId < heq.id ∧ heq.id < massiveSyncEventId ∧
    heq.event = .backFromFork))

def lastIdBefore (h : Hafd) (massiveSyncEventId : ℕ) : ℕ :=
  ((h.eventsQueue.filter (fun heq ↦ decide (heq.id < massiveSyncEventId))).map Event.id).max?.getD 0

def maxForkIdInRange (h : Hafd) (newestIrreversible forkId : ℕ) : Option ℕ :=
  ((h.forks.filter (fun hf ↦ decide (hf.blockNum ≤ newestIrreversible ∧ forkId < hf.id))).map
    Fork.id).max?

def firstReversibleEvent (h : Hafd) (newestIrreversible eventsId maxEventId : ℕ) : Option Event :=
  firstEvent (h.eventsQueue.filter (fun heq ↦ decide (newestIrreversible < heq.blockNum ∧
    heq.event ≠ .backFromFork ∧ eventsId ≤ heq.id ∧ heq.id ≤ maxEventId)))

def firstIrreversibleEvent (h : Hafd) (newestIrreversible maxEventId : ℕ) : Option Event :=
  firstEvent (h.eventsQueue.filter (fun heq ↦ decide (heq.blockNum = newestIrreversible ∧
    (heq.event = .massiveSync ∨ heq.event = .newIrreversible) ∧ heq.id ≤ maxEventId)))

def firstEventAfter (h : Hafd) (eventsId maxEventId : ℕ) : Option Event :=
  firstEvent (h.eventsQueue.filter (fun heq ↦ decide (eventsId < heq.id ∧ heq.id ≤ maxEventId)))

end Hafd

def onIrreversible (h : Hafd) (c : Context ρ) : Prop :=
  c.currentBlockNum ≤ c.irreversibleBlock ∧ h.consistentBlock ≠ none

instance (h : Hafd) (c : Context ρ) : Decidable (onIrreversible h c) := by
  unfold onIrreversible; infer_instance

def squashForkEvents (contexts : List ContextName) (db : Db ρ) : Except Error (Db ρ) :=
  match db.leadContext contexts with
  | none => .ok db
  | some hc =>
    match db.nextForkEvent hc.eventsId hc.currentBlockNum with
    | none => .ok db
    | some heq =>
      if db.irreversibleBetween hc.eventsId heq.id then .ok db
      else db.setEventsId contexts (heq.id - 1)

def updateIrreversible (contexts : List ContextName) (db : Db ρ) : Except Error (Db ρ) :=
  match db.leadContext contexts with
  | none => .ok db
  | some hc =>
    if onIrreversible db.toHafd hc then
      db.forEachContext contexts (contextSetIrreversibleBlock db.irreversibleHead)
    else
      match db.nextIrreversibleEvent hc.eventsId hc.irreversibleBlock with
      | none => .ok db
      | some heq => db.forEachContext contexts (contextSetIrreversibleBlock heq.blockNum)

def squashEndMassiveSyncEvents (contexts : List ContextName) (db : Db ρ) :
    Except Error (Db ρ × Bool) :=
  match db.leadContext contexts with
  | none => .ok (db, false)
  | some hc =>
    match db.nextMassiveSyncEvent hc.eventsId with
    | none => .ok (db, false)
    | some heq =>
      let rewound := if db.forkBetween hc.eventsId heq.id then
          db.updateContexts contexts (contextBackFromFork db.toHafd hc.irreversibleBlock)
        else db
      .ok (rewound.updateContexts contexts
        (fun c ↦ { c with eventsId := db.lastIdBefore heq.id }), true)

def squashEvents (contexts : List ContextName) (db : Db ρ) : Except Error (Db ρ) :=
  match db.leadContext contexts with
  | none => .ok db
  | some hc =>
    if hc.eventsId = 0 then .ok db else do
    let db ← updateIrreversible contexts db
    let (db, squashed) ← squashEndMassiveSyncEvents contexts db
    if squashed then pure db else squashForkEvents contexts db

def pickNextEvent (h : Hafd) (hc : Context ρ) (maxEventId : ℕ) : Option Event :=
  if onIrreversible h hc then
    match h.firstReversibleEvent h.irreversibleHead hc.eventsId maxEventId with
    | some heq => some heq
    | none =>
      match h.firstIrreversibleEvent h.irreversibleHead maxEventId with
      | some heq => if heq.id = hc.eventsId then none else some heq
      | none => none
  else
    h.firstEventAfter hc.eventsId maxEventId

def takeOverFork (contexts : List ContextName) (hc : Context ρ) (db : Db ρ) : Db ρ :=
  if onIrreversible db.toHafd hc then
    let maxForkId := db.maxForkIdInRange db.irreversibleHead hc.forkId
    db.updateContexts contexts (fun c ↦ { c with forkId := maxForkId.getD c.forkId })
  else db

def findNextEvent (contexts : List ContextName) (db : Db ρ) :
    Except Error (Db ρ × Option Event) :=
  match db.leadContext contexts with
  | none => .ok (db, none)
  | some hc =>
    match lastEvent db.eventsQueue with
    | none => .error (.assertFailure "Lack of the event 0, it has to be in the queue")
    | some maxEvent =>
      let forked := takeOverFork contexts hc db
      match pickNextEvent db.toHafd hc maxEvent.id with
      | none => .ok (forked, none)
      | some heq => do
        let moved ← forked.setEventsId contexts heq.id
        pure (moved, some heq)

structure BlocksRange where
  firstBlock : ℤ
  lastBlock : ℤ
  deriving DecidableEq, Repr

/-- `hive.context_state`. -/
structure ContextState where
  currentBlockNum : ℕ
  isAttached : Bool
  irreversibleBlockNum : ℕ
  nextEvent : Option Event
  deriving DecidableEq, Repr

def squashAndGetState (contexts : List ContextName) (db : Db ρ) :
    Except Error (Db ρ × ContextState) := do
  let db ← squashEvents contexts db
  match db.leadContext contexts with
  | none => .error (.raiseException ("No context with name " ++ contexts.head?.getD ""))
  | some hac =>
    let (db, nextEvent) ← findNextEvent contexts db
    pure (db, ⟨hac.currentBlockNum, hac.isAttached, hac.irreversibleBlock, nextEvent⟩)

def BlocksRange.negative : BlocksRange := ⟨-1, -2⟩

/-- `LEAST( block, _block_limit )`; no limit is `NULL`. -/
def leastLimit (block : ℕ) (blockLimit : Option ℕ) : ℕ := blockLimit.elim block (min block)

def aboveLimit (blockLimit : Option ℕ) (num : ℕ) : Bool := blockLimit.any (fun l ↦ decide (l < num))

/-- The end of `hive.app_process_event`: the irreversible blocks the context has not processed. -/
def processIrreversibleRange (h : Hafd) (currentBlockNum irreversibleBlockNum : ℕ)
    (c : Context ρ) : Context ρ × Option BlocksRange :=
  let nums := (h.irreversible.blocks.map Block.num).filter (fun n ↦
    decide (currentBlockNum < n ∧ n ≤ irreversibleBlockNum))
  match nums.min?, nums.max? with
  | some first, some last => ({ c with currentBlockNum := first }, some ⟨first, last⟩)
  | _, _ => (c, some .negative)

def appProcessEvent (h : Hafd) (state : ContextState) (blockLimit : Option ℕ) (c : Context ρ) :
    Except Error (Context ρ × Option BlocksRange) :=
  let irreversibleBlocks (c : Context ρ) :=
    processIrreversibleRange h state.currentBlockNum (leastLimit c.irreversibleBlock blockLimit) c
  match state.nextEvent with
  | some ⟨_, .backFromFork, forkId⟩ =>
    match h.forks.find? (fun hf ↦ hf.id = forkId) with
    | none => .error (.notNullViolation "current_block_num")
    | some hf =>
      .ok ({ contextBackFromFork h hf.blockNum c with
        currentBlockNum := hf.blockNum, forkId := hf.id }, none)
  | some ⟨_, .newBlock, num⟩ =>
    if ¬ state.currentBlockNum < num then
      .error (.assertFailure "We could not process block without consume event")
    else if aboveLimit blockLimit num then
      .ok (c, some .negative)
    else if num = state.currentBlockNum + 1 then
      .ok ({ c with currentBlockNum := num }, some ⟨num, num⟩)
    else if state.irreversibleBlockNum < state.currentBlockNum then
      match h.consistentBlock with
      | none => .error (.assertFailure "current_block_num is reversible!")
      | some head =>
        if state.currentBlockNum ≤ head then
          irreversibleBlocks <$> contextSetIrreversibleBlock head c
        else
          .error (.assertFailure "current_block_num is reversible!")
    else
      .ok (irreversibleBlocks c)
  | _ => .ok (irreversibleBlocks c)

def appProcessEventNonForking (h : Hafd) (state : ContextState) (blockLimit : Option ℕ)
    (c : Context ρ) : Except Error (Context ρ × Option BlocksRange) :=
  .ok (processIrreversibleRange h state.currentBlockNum
    (leastLimit state.irreversibleBlockNum blockLimit) c)

/-- Processes the event in every context of the group; the result is the one of the first. -/
def processForContexts (contexts : List ContextName)
    (process : Context ρ → Except Error (Context ρ × Option BlocksRange)) (db : Db ρ) :
    Except Error (Db ρ × Option BlocksRange) := do
  let processed ← db.forEachContext contexts (fun c ↦ Prod.fst <$> process c)
  match db.leadContext contexts with
  | none => pure (processed, none)
  | some c => pure (processed, (← process c).2)

/-- A negative range is given to the application as `NULL`. -/
def BlocksRange.toResult (range : Option BlocksRange) : Option BlocksRange :=
  range.filter (fun r ↦ decide (r.firstBlock ≤ r.lastBlock))

/-- `hive.app_next_block_forking_app`, apart from the waiting. -/
def appNextBlockForkingApp (contexts : List ContextName) (blockLimit : Option ℕ) (db : Db ρ) :
    Except Error (Db ρ × Option BlocksRange) := do
  let (db, state) ← squashAndGetState contexts db
  let (db, result) ← processForContexts contexts (appProcessEvent db.toHafd state blockLimit) db
  pure (db, BlocksRange.toResult result)

/-- The polling loop of `hive.app_next_block_non_forking_app`. -/
def appNextBlockNonForkingLoop (contexts : List ContextName) (wait : Bool)
    (blockLimit : Option ℕ) : ℕ → Db ρ → Except Error (Db ρ × Option BlocksRange)
  | 0, db => .ok (db, none)
  | n + 1, db => do
    let (db, state) ← squashAndGetState contexts db
    let (db, result) ← processForContexts contexts
      (appProcessEventNonForking db.toHafd state blockLimit) db
    match BlocksRange.toResult result with
    | some range => pure (db, some range)
    | none =>
      if !wait || blockLimit.isSome || db.hiveState.pruning = 0 ||
          (db.hiveState.state ≠ .reindex && db.hiveState.state ≠ .p2p) then
        pure (db, none)
      else
        appNextBlockNonForkingLoop contexts wait blockLimit n db

/-- `hive.app_next_block_non_forking_app`, apart from the waiting. -/
def appNextBlockNonForkingApp (contexts : List ContextName) (wait : Bool) (blockLimit : Option ℕ)
    (db : Db ρ) : Except Error (Db ρ × Option BlocksRange) :=
  appNextBlockNonForkingLoop contexts wait blockLimit 150 db

end HiveForkManager
