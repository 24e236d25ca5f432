import Mathlib

namespace HiveForkManager.QuerySupervisor

inductive CmdType where
  | unknown
  | select
  | update
  | insert
  | delete
  | merge
  | utility
  | nothing
  deriving DecidableEq, Repr

inductive SqlCommand where
  | select
  | update
  | insert
  | delete
  | other
  deriving DecidableEq, Repr

def cmdTypeToFilter : CmdType → SqlCommand
  | .select => .select
  | .delete => .delete
  | .insert => .insert
  | .update => .update
  | _ => .other

structure QueryDesc where
  address : ℕ
  operation : CmdType
  deriving DecidableEq, Repr

structure Limits where
  tuples : ℕ
  updates : ℕ
  inserts : ℕ
  deletes : ℕ
  deriving DecidableEq, Repr

/-- The range of `Counter`, which is `uint32_t`. -/
def counterRange : ℕ := 2 ^ 32

/-- `isPendingRootQuery`, for the `m_rootQuery` of a handler. -/
def isPendingRootQuery (rootQuery : Option ℕ) (q : QueryDesc) : Bool := rootQuery = some q.address

structure TotalTuplesQueryHandler where
  rootQuery : Option ℕ
  numberOfAllTuples : ℕ
  statistics : SqlCommand → ℕ

namespace TotalTuplesQueryHandler

def onStartQuery (q : QueryDesc) (t : TotalTuplesQueryHandler) : TotalTuplesQueryHandler :=
  if t.rootQuery.isNone then { t with rootQuery := some q.address } else t

def onEndQuery (q : QueryDesc) (t : TotalTuplesQueryHandler) : TotalTuplesQueryHandler :=
  if isPendingRootQuery t.rootQuery q then { t with rootQuery := none } else t

def resetStatistics (t : TotalTuplesQueryHandler) : TotalTuplesQueryHandler :=
  { t with numberOfAllTuples := 0, statistics := fun _ ↦ 0 }

def onRunQuery (q : QueryDesc) (t : TotalTuplesQueryHandler) : TotalTuplesQueryHandler :=
  if isPendingRootQuery t.rootQuery q then t.resetStatistics else t

def updateStatistics (q : QueryDesc) (tuplecount : ℕ) (t : TotalTuplesQueryHandler) :
    TotalTuplesQueryHandler :=
  { t with
    numberOfAllTuples := (t.numberOfAllTuples + tuplecount) % counterRange
    statistics := fun cmd ↦
      if cmd = cmdTypeToFilter q.operation then (t.statistics cmd + tuplecount) % counterRange
      else t.statistics cmd }

def onError (t : TotalTuplesQueryHandler) : TotalTuplesQueryHandler :=
  { t.resetStatistics with rootQuery := none }

def breakQuery (limits : Limits) (t : TotalTuplesQueryHandler) : Bool :=
  decide (limits.tuples < t.numberOfAllTuples) ||
    decide (limits.updates < t.statistics .update) ||
    decide (limits.inserts < t.statistics .insert) ||
    decide (limits.deletes < t.statistics .delete)

end TotalTuplesQueryHandler

structure TimeoutQueryHandler where
  rootQuery : Option ℕ
  /-- The timeout is enabled. -/
  armed : Bool
  deriving DecidableEq, Repr

namespace TimeoutQueryHandler

def onStartQuery (q : QueryDesc) (t : TimeoutQueryHandler) : TimeoutQueryHandler :=
  if t.rootQuery.isNone then { rootQuery := some q.address, armed := true } else t

def onEndQuery (q : QueryDesc) (t : TimeoutQueryHandler) : TimeoutQueryHandler :=
  if isPendingRootQuery t.rootQuery q then { rootQuery := none, armed := false } else t

def onError (_ : TimeoutQueryHandler) : TimeoutQueryHandler := { rootQuery := none, armed := false }

end TimeoutQueryHandler

/-- A query between its start and its end, with the tuples its runs have processed. -/
structure Frame where
  query : QueryDesc
  processed : Option ℕ
  deriving DecidableEq, Repr

def Frame.run (count : ℕ) (f : Frame) : Frame :=
  { f with processed := some (f.processed.getD 0 + count) }

/-- A backend: the queries under way, the innermost first, the tuples of the finished queries of the
outermost one, and the handlers. -/
structure Backend where
  stack : List Frame
  finished : List (SqlCommand × ℕ)
  tuples : TotalTuplesQueryHandler
  timeout : TimeoutQueryHandler
  /-- `totaltime->tuplecount` of the descriptor at an address, if it has an instrumentation. -/
  totaltime : ℕ → Option ℕ
  queryCancelPending : Bool

/-- Calls of the executor hooks. A run comes with the tuples that the executor will have processed
when it returns; nothing reads them before. An error leaves as many hooks as it is not caught in. -/
inductive ExecutorCall where
  | start (q : QueryDesc)
  | run (q : QueryDesc) (count : ℕ)
  | finish (q : QueryDesc)
  | endQuery (q : QueryDesc)
  | fail (levels : ℕ)
  deriving DecidableEq, Repr

namespace Backend

def idle : Backend where
  stack := []
  finished := []
  tuples := ⟨none, 0, fun _ ↦ 0⟩
  timeout := ⟨none, false⟩
  totaltime _ := none
  queryCancelPending := false

def setTotaltime (address : ℕ) (tuplecount : Option ℕ) (b : Backend) : ℕ → Option ℕ :=
  fun a ↦ if a = address then tuplecount else b.totaltime a

def startQuery (q : QueryDesc) (b : Backend) : Backend :=
  { b with
    stack := ⟨q, none⟩ :: b.stack
    finished := if b.stack = [] then [] else b.finished
    tuples := b.tuples.onStartQuery q
    timeout := b.timeout.onStartQuery q
    totaltime := b.setTotaltime q.address none }

/-- `addInstrumentation` makes sure that the executor counts. -/
def runQuery (q : QueryDesc) (count : ℕ) (b : Backend) : Backend :=
  { b with
    stack := b.stack.modifyHead (Frame.run count)
    tuples := b.tuples.onRunQuery q
    totaltime := b.setTotaltime q.address (some ((b.totaltime q.address).getD 0 + count)) }

/-- `onRootQueryFinish` and `onSubQueryFinish` do the same. There is no result if they follow a null
pointer: the instrumentation, or the root query whose text is logged. -/
def finishQuery (limits : Limits) (q : QueryDesc) (b : Backend) : Option Backend :=
  match b.totaltime q.address with
  | none => none
  | some tuplecount =>
    let tuples := b.tuples.updateStatistics q tuplecount
    let finished := b.finished ++
      (b.stack.head?.map (fun f ↦ (cmdTypeToFilter q.operation, f.processed.getD 0))).toList
    if b.queryCancelPending then some { b with tuples, finished }
    else if tuples.breakQuery limits then
      if tuples.rootQuery.isNone then none
      else some { b with tuples, finished, queryCancelPending := true }
    else some { b with tuples, finished }

def endQuery (q : QueryDesc) (b : Backend) : Backend :=
  { b with
    stack := b.stack.tail
    tuples := b.tuples.onEndQuery q
    timeout := b.timeout.onEndQuery q }

/-- Every hook that the error leaves calls `onError` of all handlers. -/
def failQueries (levels : ℕ) (b : Backend) : Backend :=
  { b with
    stack := b.stack.drop levels
    tuples := b.tuples.onError
    timeout := b.timeout.onError
    queryCancelPending := false }

def step (limits : Limits) (b : Backend) : ExecutorCall → Option Backend
  | .start q => some (b.startQuery q)
  | .run q count => some (b.runQuery q count)
  | .finish q => b.finishQuery limits q
  | .endQuery q => some (b.endQuery q)
  | .fail levels => some (b.failQueries levels)

/-- Well-nested calls: a new descriptor is on top of those under way, the other calls are for the
innermost query. -/
def Allowed (b : Backend) : ExecutorCall → Prop
  | .start q => q.address ∉ b.stack.map (fun f ↦ f.query.address)
  | .run q _ | .finish q | .endQuery q => b.stack.head?.map Frame.query = some q
  | .fail levels => 0 < levels ∧ levels ≤ b.stack.length

instance (b : Backend) (call : ExecutorCall) : Decidable (b.Allowed call) := by
  cases call <;> unfold Allowed <;> infer_instance

def run (limits : Limits) : Backend → List ExecutorCall → Option Backend
  | b, [] => some b
  | b, call :: calls =>
    if b.Allowed call then (b.step limits call).bind (run limits · calls) else none

def finishedTuples (b : Backend) : ℕ := (b.finished.map Prod.snd).sum

def finishedTuplesOf (cmd : SqlCommand) (b : Backend) : ℕ :=
  ((b.finished.filter (fun x ↦ decide (x.1 = cmd))).map Prod.snd).sum

def Exceeds (limits : Limits) (b : Backend) : Prop :=
  limits.tuples < b.finishedTuples ∨ limits.updates < b.finishedTuplesOf .update ∨
    limits.inserts < b.finishedTuplesOf .insert ∨ limits.deletes < b.finishedTuplesOf .delete

/-- No failure is caught inside the root query; the root is run once, before anything is finished;
every query is run before it is finished; and the counters do not overflow. -/
def Simple (b : Backend) : ExecutorCall → Prop
  | .start _ | .endQuery _ => True
  | .run _ _ => b.stack.length = 1 → ∀ f ∈ b.stack, f.processed = none
  | .finish _ => (∀ root ∈ b.stack.getLast?, root.processed ≠ none) ∧
      ∀ f ∈ b.stack.head?, f.processed ≠ none ∧
        b.finishedTuples + f.processed.getD 0 < counterRange
  | .fail levels => levels = b.stack.length

inductive Reachable (limits : Limits) : Backend → Prop
  | idle : Reachable limits idle
  | step {b b' : Backend} {call : ExecutorCall} (hb : Reachable limits b)
      (hallowed : b.Allowed call) (hsimple : b.Simple call)
      (hstep : b.step limits call = some b') : Reachable limits b'

def TreatedAsRoot (b : Backend) (q : QueryDesc) : Prop :=
  isPendingRootQuery b.tuples.rootQuery q ∧ isPendingRootQuery b.timeout.rootQuery q

def rootAddress (b : Backend) : Option ℕ := b.stack.getLast?.map (fun f ↦ f.query.address)

structure Inv (limits : Limits) (b : Backend) : Prop where
  addresses : (b.stack.map (fun f ↦ f.query.address)).Nodup
  tuplesRoot : b.tuples.rootQuery = b.rootAddress
  timeoutRoot : b.timeout.rootQuery = b.rootAddress
  armed : b.timeout.armed = !b.stack.isEmpty
  instrumented : ∀ f ∈ b.stack, b.totaltime f.query.address = f.processed
  notRun : ∀ root ∈ b.stack.getLast?, root.processed = none → b.finished = []
  counters : ∀ root ∈ b.stack.getLast?, root.processed ≠ none →
    b.tuples.numberOfAllTuples = b.finishedTuples ∧
      ∀ cmd, b.tuples.statistics cmd = b.finishedTuplesOf cmd
  cancelled : b.stack ≠ [] → b.Exceeds limits → b.queryCancelPending = true

variable {limits : Limits} {b b' : Backend} {q : QueryDesc} {f : Frame} {rest : List Frame}

theorem not_exceeds_of_finished_eq_nil (h : b.finished = []) : ¬ b.Exceeds limits := by
  simp [Exceeds, finishedTuples, finishedTuplesOf, h]

theorem Inv.idle : Inv limits idle where
  addresses := List.nodup_nil
  tuplesRoot := rfl
  timeoutRoot := rfl
  armed := rfl
  instrumented _ hf := by cases hf
  notRun _ hroot := by cases hroot
  counters _ hroot := by cases hroot
  cancelled h := absurd rfl h

theorem Inv.rootAddress_eq_iff (inv : b.Inv limits) (hstack : b.stack = f :: rest) :
    b.rootAddress = some f.query.address ↔ rest = [] := by
  rw [rootAddress, hstack]
  cases rest with
  | nil => simp
  | cons g rest =>
    have haddresses := inv.addresses
    rw [hstack, List.map_cons, List.nodup_cons] at haddresses
    simp only [List.getLast?_cons_cons, reduceCtorEq, iff_false]
    intro heq
    obtain ⟨root, hroot, haddress⟩ := Option.map_eq_some_iff.mp heq
    exact haddresses.1 (haddress ▸ List.mem_map_of_mem (List.mem_of_getLast? hroot))

theorem Inv.start (inv : b.Inv limits) (hnew : q.address ∉ b.stack.map (fun f ↦ f.query.address)) :
    (b.startQuery q).Inv limits := by
  have hother : ∀ f ∈ b.stack, f.query.address ≠ q.address :=
    fun f hf heq ↦ hnew (heq ▸ List.mem_map_of_mem hf)
  have hinstrumented : ∀ f ∈ (b.startQuery q).stack,
      (b.startQuery q).totaltime f.query.address = f.processed := by
    intro f hf
    rcases List.mem_cons.mp hf with rfl | hf
    · simp [startQuery, setTotaltime]
    · simpa [startQuery, setTotaltime, hother f hf] using inv.instrumented f hf
  have haddresses : ((b.startQuery q).stack.map (fun f ↦ f.query.address)).Nodup :=
    List.nodup_cons.mpr ⟨hnew, inv.addresses⟩
  by_cases hstack : b.stack = []
  · -- a new root
    have hroot : b.rootAddress = none := by simp [rootAddress, hstack]
    refine ⟨haddresses, ?_, ?_, ?_, hinstrumented, ?_, ?_, ?_⟩
    · simp [startQuery, TotalTuplesQueryHandler.onStartQuery, inv.tuplesRoot, rootAddress, hstack]
    · simp [startQuery, TimeoutQueryHandler.onStartQuery, inv.timeoutRoot, rootAddress, hstack]
    · simp [startQuery, TimeoutQueryHandler.onStartQuery, inv.timeoutRoot, hroot]
    · simp [startQuery, hstack]
    · simp [startQuery, hstack]
    · exact fun _ ↦ fun h ↦ absurd h (not_exceeds_of_finished_eq_nil (by simp [startQuery, hstack]))
  · -- a subquery changes nothing for the handlers
    obtain ⟨root, hroot⟩ : ∃ root, b.stack.getLast? = some root :=
      ⟨_, List.getLast?_eq_some_getLast hstack⟩
    have hlast : (b.startQuery q).stack.getLast? = b.stack.getLast? := by
      rw [startQuery, List.getLast?_cons, hroot]
      rfl
    have htuples : (b.startQuery q).tuples = b.tuples := by
      simp [startQuery, TotalTuplesQueryHandler.onStartQuery, inv.tuplesRoot, rootAddress, hroot]
    have htimeout : (b.startQuery q).timeout = b.timeout := by
      simp [startQuery, TimeoutQueryHandler.onStartQuery, inv.timeoutRoot, rootAddress, hroot]
    have hfinished : (b.startQuery q).finished = b.finished := if_neg hstack
    refine ⟨haddresses, ?_, ?_, ?_, hinstrumented, ?_, ?_, ?_⟩
    · rw [htuples, rootAddress, hlast]
      exact inv.tuplesRoot
    · rw [htimeout, rootAddress, hlast]
      exact inv.timeoutRoot
    · rw [htimeout, inv.armed]
      simp [startQuery, hstack]
    · rw [hlast, hfinished]
      exact inv.notRun
    · rw [hlast, htuples]
      simpa only [finishedTuples, finishedTuplesOf, hfinished] using inv.counters
    · intro _ hexceeds
      refine inv.cancelled hstack ?_
      simpa only [Exceeds, finishedTuples, finishedTuplesOf, hfinished] using hexceeds

theorem Inv.run (inv : b.Inv limits) (hstack : b.stack = f :: rest) {count : ℕ}
    (hsimple : b.Simple (.run f.query count)) : (b.runQuery f.query count).Inv limits := by
  have hstack' : (b.runQuery f.query count).stack = f.run count :: rest := by
    simp [runQuery, hstack]
  have hroot : (b.runQuery f.query count).rootAddress = b.rootAddress := by
    rw [rootAddress, rootAddress, hstack', hstack]
    cases rest with
    | nil => rfl
    | cons g rest => rw [List.getLast?_cons_cons, List.getLast?_cons_cons]
  have haddresses := inv.addresses
  rw [hstack, List.map_cons, List.nodup_cons] at haddresses
  have hrootQuery : (b.tuples.onRunQuery f.query).rootQuery = b.tuples.rootQuery := by
    rw [TotalTuplesQueryHandler.onRunQuery]
    split <;> rfl
  refine ⟨?_, ?_, ?_, ?_, ?_, ?_, ?_, ?_⟩
  · rw [hstack', List.map_cons, List.nodup_cons]
    exact haddresses
  · rw [hroot]
    exact hrootQuery.trans inv.tuplesRoot
  · rw [hroot]
    exact inv.timeoutRoot
  · rw [hstack']
    refine inv.armed.trans ?_
    rw [hstack]
    rfl
  · rw [hstack']
    refine List.forall_mem_cons.mpr ⟨?_, fun g hg ↦ ?_⟩
    · simp [runQuery, setTotaltime, Frame.run, inv.instrumented f (hstack ▸ List.mem_cons_self)]
    · have hne : g.query.address ≠ f.query.address :=
        fun heq ↦ haddresses.1 (heq ▸ List.mem_map_of_mem hg)
      simp only [runQuery, setTotaltime, if_neg hne]
      exact inv.instrumented g (hstack ▸ List.mem_cons_of_mem _ hg)
  · intro root hlast hnone
    rw [hstack'] at hlast
    cases rest with
    | nil =>
      obtain rfl : f.run count = root := by simpa using hlast
      cases hnone
    | cons g rest =>
      rw [List.getLast?_cons_cons] at hlast
      refine inv.notRun root ?_ hnone
      rwa [hstack, List.getLast?_cons_cons]
  · intro root hlast hrun
    rw [hstack'] at hlast
    cases rest with
    | nil =>
      have hnone : f.processed = none := hsimple (by rw [hstack]; rfl) f (by simp [hstack])
      have hfinished := inv.notRun f (by simp [hstack]) hnone
      have hpending : isPendingRootQuery b.tuples.rootQuery f.query = true := by
        simp [isPendingRootQuery, inv.tuplesRoot, (inv.rootAddress_eq_iff hstack).mpr rfl]
      simp [runQuery, TotalTuplesQueryHandler.onRunQuery, hpending, finishedTuples,
        finishedTuplesOf, hfinished, TotalTuplesQueryHandler.resetStatistics]
    | cons g rest =>
      have hpending : isPendingRootQuery b.tuples.rootQuery f.query = false := by
        simp [isPendingRootQuery, inv.tuplesRoot, inv.rootAddress_eq_iff hstack]
      rw [List.getLast?_cons_cons] at hlast
      have htuples : (b.runQuery f.query count).tuples = b.tuples := by
        simp [runQuery, TotalTuplesQueryHandler.onRunQuery, hpending]
      rw [htuples]
      exact inv.counters root (by rwa [hstack, List.getLast?_cons_cons]) hrun
  · intro _ hexceeds
    exact inv.cancelled (by simp [hstack]) hexceeds

theorem Inv.endQuery (inv : b.Inv limits) (hstack : b.stack = f :: rest) :
    (b.endQuery f.query).Inv limits := by
  have hstack' : (b.endQuery f.query).stack = rest := by
    simp [Backend.endQuery, hstack]
  have haddresses := inv.addresses
  rw [hstack, List.map_cons, List.nodup_cons] at haddresses
  have hinstrumented : ∀ g ∈ (b.endQuery f.query).stack,
      (b.endQuery f.query).totaltime g.query.address = g.processed := by
    rw [hstack']
    exact fun g hg ↦ inv.instrumented g (hstack ▸ List.mem_cons_of_mem _ hg)
  cases rest with
  | nil =>
    have hroot := (inv.rootAddress_eq_iff hstack).mpr rfl
    refine ⟨by simp [hstack'], ?_, ?_, ?_, hinstrumented, ?_, ?_, ?_⟩
    · simp [Backend.endQuery, TotalTuplesQueryHandler.onEndQuery, isPendingRootQuery,
        inv.tuplesRoot, rootAddress, hstack]
    · simp [Backend.endQuery, TimeoutQueryHandler.onEndQuery, isPendingRootQuery,
        inv.timeoutRoot, rootAddress, hstack]
    · simp [Backend.endQuery, TimeoutQueryHandler.onEndQuery, isPendingRootQuery,
        inv.timeoutRoot, hroot, hstack]
    · simp [hstack']
    · simp [hstack']
    · exact fun h ↦ absurd hstack' h
  | cons g rest =>
    have hroot : b.rootAddress ≠ some f.query.address :=
      fun h ↦ List.cons_ne_nil _ _ ((inv.rootAddress_eq_iff hstack).mp h)
    have hlast : (b.endQuery f.query).stack.getLast? = b.stack.getLast? := by
      rw [hstack', hstack, List.getLast?_cons_cons]
    have htuples : (b.endQuery f.query).tuples = b.tuples := by
      simp [Backend.endQuery, TotalTuplesQueryHandler.onEndQuery, isPendingRootQuery,
        inv.tuplesRoot, hroot]
    have htimeout : (b.endQuery f.query).timeout = b.timeout := by
      simp [Backend.endQuery, TimeoutQueryHandler.onEndQuery, isPendingRootQuery,
        inv.timeoutRoot, hroot]
    refine ⟨by rw [hstack']; exact haddresses.2, ?_, ?_, ?_, hinstrumented, ?_, ?_, ?_⟩
    · rw [htuples, rootAddress, hlast]
      exact inv.tuplesRoot
    · rw [htimeout, rootAddress, hlast]
      exact inv.timeoutRoot
    · rw [htimeout, inv.armed, hstack', hstack]
      rfl
    · rw [hlast]
      exact inv.notRun
    · rw [hlast, htuples]
      exact inv.counters
    · exact fun _ ↦ inv.cancelled (by simp [hstack])

theorem Inv.fail (levels : ℕ) (h : levels = b.stack.length) :
    (b.failQueries levels).Inv limits := by
  have hstack : (b.failQueries levels).stack = [] := by simp [failQueries, h]
  refine ⟨by simp [hstack], ?_, ?_, ?_, by simp [hstack], by simp [hstack], by simp [hstack],
    fun hne ↦ absurd hstack hne⟩
  · simp [failQueries, TotalTuplesQueryHandler.onError, rootAddress, h]
  · simp [failQueries, TimeoutQueryHandler.onError, rootAddress, h]
  · simp [failQueries, TimeoutQueryHandler.onError, h]

theorem Inv.updateStatistics (inv : b.Inv limits) (hstack : b.stack = f :: rest) {n : ℕ}
    (hn : f.processed = some n) (hsimple : b.Simple (.finish f.query)) (c : Backend)
    (hfinished : c.finished = b.finished ++ [(cmdTypeToFilter f.query.operation, n)]) :
    (b.tuples.updateStatistics f.query n).numberOfAllTuples = c.finishedTuples ∧
      ∀ cmd, (b.tuples.updateStatistics f.query n).statistics cmd = c.finishedTuplesOf cmd := by
  obtain ⟨hroot, hfinish⟩ := hsimple
  obtain ⟨-, hrange⟩ := hfinish f (by simp [hstack])
  rw [hn, Option.getD_some] at hrange
  obtain ⟨root, hlast⟩ : ∃ root, b.stack.getLast? = some root :=
    ⟨_, List.getLast?_eq_some_getLast (by simp [hstack])⟩
  obtain ⟨hall, hcmd⟩ := inv.counters root hlast (hroot root hlast)
  have hpart : ∀ cmd, b.finishedTuplesOf cmd ≤ b.finishedTuples := fun cmd ↦
    List.Sublist.sum_le_sum (List.filter_sublist.map _) (fun _ _ ↦ Nat.zero_le _)
  refine ⟨?_, fun cmd ↦ ?_⟩
  · simp only [TotalTuplesQueryHandler.updateStatistics, hall]
    rw [Nat.mod_eq_of_lt hrange]
    simp [finishedTuples, hfinished]
  · simp only [TotalTuplesQueryHandler.updateStatistics, hcmd]
    by_cases hc : cmd = cmdTypeToFilter f.query.operation
    · rw [if_pos hc, Nat.mod_eq_of_lt ((Nat.add_le_add_right (hpart cmd) n).trans_lt hrange)]
      simp [finishedTuplesOf, hfinished, hc]
    · rw [if_neg hc]
      simp [finishedTuplesOf, hfinished, Ne.symm hc]

theorem breakQuery_iff {t : TotalTuplesQueryHandler} (hall : t.numberOfAllTuples = b.finishedTuples)
    (hcmd : ∀ cmd, t.statistics cmd = b.finishedTuplesOf cmd) :
    t.breakQuery limits = true ↔ b.Exceeds limits := by
  simp only [TotalTuplesQueryHandler.breakQuery, hall, hcmd, Bool.or_eq_true, decide_eq_true_eq,
    Exceeds, or_assoc]

theorem Inv.finish_eq (inv : b.Inv limits) (hstack : b.stack = f :: rest) {n : ℕ}
    (hn : f.processed = some n) :
    ∃ cancel, b.finishQuery limits f.query = some
        { b with
          tuples := b.tuples.updateStatistics f.query n
          finished := b.finished ++ [(cmdTypeToFilter f.query.operation, n)]
          queryCancelPending := cancel } ∧
      ((b.tuples.updateStatistics f.query n).breakQuery limits = true → cancel = true) := by
  have htotal : b.totaltime f.query.address = some n :=
    (inv.instrumented f (by simp [hstack])).trans hn
  have hroot : (b.tuples.updateStatistics f.query n).rootQuery.isNone = false := by
    simp [TotalTuplesQueryHandler.updateStatistics, inv.tuplesRoot, rootAddress, hstack]
  simp only [finishQuery, htotal, hstack, List.head?_cons, Option.map_some, Option.toList_some, hn,
    Option.getD_some]
  by_cases hpending : b.queryCancelPending = true
  · exact ⟨true, by rw [if_pos hpending, ← hpending], fun _ ↦ rfl⟩
  · rw [if_neg hpending]
    by_cases hbreak : (b.tuples.updateStatistics f.query n).breakQuery limits = true
    · exact ⟨true, by rw [if_pos hbreak, hroot]; rfl, fun _ ↦ rfl⟩
    · exact ⟨b.queryCancelPending, by rw [if_neg hbreak], fun h ↦ absurd h hbreak⟩

theorem Inv.finish (inv : b.Inv limits) (hstack : b.stack = f :: rest)
    (hsimple : b.Simple (.finish f.query)) (hok : b.finishQuery limits f.query = some b') :
    b'.Inv limits := by
  obtain ⟨n, hn⟩ := Option.ne_none_iff_exists'.mp (hsimple.2 f (by simp [hstack])).1
  obtain ⟨cancel, hresult, hcancel⟩ := inv.finish_eq hstack hn
  rw [hresult] at hok
  cases hok
  obtain ⟨hall, hcmd⟩ := inv.updateStatistics hstack hn hsimple
    { b with
      tuples := b.tuples.updateStatistics f.query n
      finished := b.finished ++ [(cmdTypeToFilter f.query.operation, n)]
      queryCancelPending := cancel } rfl
  refine ⟨inv.addresses, inv.tuplesRoot, inv.timeoutRoot, inv.armed, inv.instrumented, ?_, ?_, ?_⟩
  · exact fun root hlast hnone ↦ absurd hnone (hsimple.1 root hlast)
  · exact fun _ _ _ ↦ ⟨hall, hcmd⟩
  · exact fun _ hexceeds ↦ hcancel ((breakQuery_iff hall hcmd).mpr hexceeds)

theorem head_frame (h : b.stack.head?.map Frame.query = some q) :
    ∃ f rest, b.stack = f :: rest ∧ f.query = q := by
  obtain ⟨f, hf, rfl⟩ := Option.map_eq_some_iff.mp h
  obtain ⟨rest, hstack⟩ := List.head?_eq_some_iff.mp hf
  exact ⟨f, rest, hstack, rfl⟩

theorem Inv.step (inv : b.Inv limits) {call : ExecutorCall} (hallowed : b.Allowed call)
    (hsimple : b.Simple call) (hstep : b.step limits call = some b') : b'.Inv limits := by
  cases call with
  | start q =>
    cases hstep
    exact inv.start hallowed
  | run q count =>
    cases hstep
    obtain ⟨f, rest, hstack, rfl⟩ := head_frame hallowed
    exact inv.run hstack hsimple
  | finish q =>
    obtain ⟨f, rest, hstack, rfl⟩ := head_frame hallowed
    exact inv.finish hstack hsimple hstep
  | endQuery q =>
    cases hstep
    obtain ⟨f, rest, hstack, rfl⟩ := head_frame hallowed
    exact inv.endQuery hstack
  | fail levels =>
    cases hstep
    exact Inv.fail levels hsimple

theorem Reachable.inv (h : Reachable limits b) : b.Inv limits := by
  induction h with
  | idle => exact Inv.idle
  | step _ hallowed hsimple hstep ih => exact ih.step hallowed hsimple hstep

theorem Inv.exists_step (inv : b.Inv limits) {call : ExecutorCall} (hallowed : b.Allowed call)
    (hsimple : b.Simple call) : ∃ b', b.step limits call = some b' := by
  cases call with
  | finish q =>
    obtain ⟨f, rest, hstack, rfl⟩ := head_frame hallowed
    obtain ⟨n, hn⟩ := Option.ne_none_iff_exists'.mp (hsimple.2 f (by simp [hstack])).1
    obtain ⟨cancel, hresult, -⟩ := inv.finish_eq hstack hn
    exact ⟨_, hresult⟩
  | start q => exact ⟨_, rfl⟩
  | run q count => exact ⟨_, rfl⟩
  | endQuery q => exact ⟨_, rfl⟩
  | fail levels => exact ⟨_, rfl⟩

/-- Whatever is called next has a result. While queries are under way, exactly the outermost one is
the root and the timer is armed; otherwise it is not. After a finish the counters are the tuples of
the finished queries of the root, and a cancel is pending if they exceed a limit. -/
theorem limits_cover_root_query (h : Reachable limits b) :
    (∀ f ∈ b.stack, b.TreatedAsRoot f.query ↔ b.stack.getLast? = some f) ∧
    (b.timeout.armed = true ↔ b.stack ≠ []) ∧
    (b.stack ≠ [] → b.Exceeds limits → b.queryCancelPending = true) ∧
    ∀ call, b.Allowed call → b.Simple call → ∃ b', b.step limits call = some b' ∧
      ∀ q, call = .finish q → b'.tuples.numberOfAllTuples = b'.finishedTuples ∧
        ∀ cmd, b'.tuples.statistics cmd = b'.finishedTuplesOf cmd := by
  have inv := h.inv
  refine ⟨fun f hf ↦ ?_, ?_, inv.cancelled, fun call hallowed hsimple ↦ ?_⟩
  · have hroot : b.TreatedAsRoot f.query ↔ b.rootAddress = some f.query.address := by
      simp [TreatedAsRoot, isPendingRootQuery, inv.tuplesRoot, inv.timeoutRoot]
    rw [hroot, rootAddress, Option.map_eq_some_iff]
    constructor
    · rintro ⟨root, hlast, haddress⟩
      rwa [← List.inj_on_of_nodup_map inv.addresses (List.mem_of_getLast? hlast) hf haddress]
    · exact fun hlast ↦ ⟨f, hlast, rfl⟩
  · rw [inv.armed]
    simp
  · obtain ⟨b', hstep⟩ := inv.exists_step hallowed hsimple
    refine ⟨b', hstep, ?_⟩
    rintro q rfl
    obtain ⟨f, rest, hstack, rfl⟩ := head_frame hallowed
    obtain ⟨n, hn⟩ := Option.ne_none_iff_exists'.mp (hsimple.2 f (by simp [hstack])).1
    obtain ⟨cancel, hresult, -⟩ := inv.finish_eq hstack hn
    cases hresult.symm.trans hstep
    exact inv.updateStatistics hstack hn hsimple _ rfl

def rootQuery : QueryDesc := ⟨1, .select⟩

def subQuery : QueryDesc := ⟨2, .insert⟩

/-- A function that inserts seven rows, called by a root query, before the insert is finished. -/
def insertInSelect : Backend :=
  (((idle.startQuery rootQuery).runQuery rootQuery 1).startQuery subQuery).runQuery subQuery 7

theorem insertInSelect_reachable (limits : Limits) : Reachable limits insertInSelect := by
  have h₁ : Reachable limits (idle.startQuery rootQuery) :=
    .step .idle (show idle.Allowed (.start rootQuery) by decide) trivial rfl
  have h₂ : Reachable limits ((idle.startQuery rootQuery).runQuery rootQuery 1) :=
    .step h₁ (show Allowed _ (.run rootQuery 1) by decide)
      (by simp [Simple, idle, startQuery]) rfl
  have h₃ : Reachable limits
      (((idle.startQuery rootQuery).runQuery rootQuery 1).startQuery subQuery) :=
    .step h₂ (show Allowed _ (.start subQuery) by decide) trivial rfl
  exact .step h₃ (show Allowed _ (.run subQuery 7) by decide)
    (by simp [Simple, idle, startQuery, runQuery]) rfl

theorem insertInSelect_covered :
    insertInSelect.TreatedAsRoot rootQuery ∧ insertInSelect.timeout.armed = true ∧
      ∃ b', insertInSelect.step ⟨5, 9, 9, 9⟩ (.finish subQuery) = some b' ∧
        b'.tuples.numberOfAllTuples = b'.finishedTuples ∧ b'.queryCancelPending = true := by
  obtain ⟨hroot, harmed, -, hstep⟩ :=
    limits_cover_root_query (insertInSelect_reachable ⟨5, 9, 9, 9⟩)
  obtain ⟨b', hb', hcounters⟩ := hstep (.finish subQuery) (by decide)
    (by simp [Simple, insertInSelect, idle, startQuery, runQuery, Frame.run, finishedTuples,
      counterRange])
  refine ⟨(hroot ⟨rootQuery, some 1⟩ (by decide)).mpr (by decide), harmed.mpr (by decide), b', hb',
    (hcounters subQuery rfl).1, ?_⟩
  cases hb'
  decide

/-- The function catches the failure of its insert: the root query goes on, but no query is the root
for the handlers and the timer is off. The next query inside it is taken for a new root, so after
its end the timer is off again. -/
theorem caught_failure_drops_root :
    (idle.run ⟨5, 9, 9, 9⟩ [.start rootQuery, .run rootQuery 1, .start subQuery, .run subQuery 7,
      .fail 1]).map (fun b ↦ (b.stack.map Frame.query, b.tuples.rootQuery, b.timeout)) =
      some ([rootQuery], none, ⟨none, false⟩) ∧
    (idle.run ⟨5, 9, 9, 9⟩ [.start rootQuery, .run rootQuery 1, .start subQuery, .run subQuery 7,
      .fail 1, .start subQuery, .run subQuery 1, .finish subQuery, .endQuery subQuery]).map
        (fun b ↦ (b.stack.map Frame.query, b.tuples.rootQuery, b.timeout)) =
      some ([rootQuery], none, ⟨none, false⟩) := by
  decide +kernel

/-- A root query that is run twice, as when a client fetches its rows in portions: the second run
forgets the tuples of the first one, and no cancel is pending although the limit is exceeded. -/
theorem second_run_forgets_tuples :
    (idle.run ⟨150, 150, 150, 150⟩ [.start rootQuery, .run rootQuery 1, .start subQuery,
      .run subQuery 100, .finish subQuery, .endQuery subQuery, .run rootQuery 1, .start subQuery,
      .run subQuery 100, .finish subQuery]).map
        (fun b ↦ (b.finishedTuples, b.tuples.numberOfAllTuples, b.queryCancelPending)) =
      some (200, 100, false) := by
  decide +kernel

end Backend

end HiveForkManager.QuerySupervisor
