import Mathlib

namespace HiveForkManager

inductive WorkerActivity where
  | idle
  /-- A batch taken from the queue. -/
  | processing (batch : ℕ)
  /-- The part of the worker is committed, or it had none (`report_only`). -/
  | written (batch : ℕ)
  /-- The last report of a batch; the callback has not run yet. -/
  | triggering (batch : ℕ)
  | stopped
  deriving DecidableEq, Repr

structure Worker where
  queue : List ℕ
  activity : WorkerActivity
  cancel : Bool
  continue_ : Bool
  /-- How many batches `enqueue` was called with. -/
  offered : ℕ
  /-- Batches whose part is in the database. -/
  committed : List ℕ
  /-- Batches reported to the trigger. -/
  reported : List ℕ
  deriving DecidableEq, Repr

def maxQueuedChunks : ℕ := 2

structure MassiveSync (n : ℕ) where
  workers : Fin n → Worker
  /-- `m_completed_threads`; zero stands for an absent entry. -/
  completedThreads : ℕ → ℕ
  /-- Batches the callback ran for. -/
  fired : List ℕ
  /-- The queue of the processor of `hive.end_massive_sync`. -/
  endQueue : List ℕ
  /-- Block numbers `hive.end_massive_sync` was called with. -/
  ended : List ℕ

namespace MassiveSync

variable {n : ℕ}

def initial (n : ℕ) : MassiveSync n where
  workers _ := ⟨[], .idle, false, true, 0, [], []⟩
  completedThreads _ := 0
  fired := []
  endQueue := []
  ended := []

def setWorker (i : Fin n) (w : Worker) (s : MassiveSync n) : MassiveSync n :=
  { s with workers := Function.update s.workers i w }

inductive Step (n : ℕ) where
  /-- `enqueue` of the next batch. -/
  | enqueue (i : Fin n)
  | dequeue (i : Fin n)
  | write (i : Fin n)
  | report (i : Fin n)
  /-- The callback; the processor of `hive.end_massive_sync` may refuse the number. -/
  | callback (i : Fin n) (accepted : Bool)
  /-- An exception while a batch is handled. -/
  | throw (i : Fin n)
  | handleException (i : Fin n)
  /-- The first store of `cancel`. -/
  | cancel (i : Fin n)
  /-- `join`, which is also the rest of `cancel`. -/
  | join (i : Fin n)
  | leave (i : Fin n)
  | endMassiveSync
  deriving DecidableEq, Repr

/-- `report_complete_thread_stage` up to the callback. -/
def reportStage (i : Fin n) (b : ℕ) (s : MassiveSync n) : MassiveSync n :=
  let w := s.workers i
  let reported := w.reported ++ [b]
  if n = 1 then s.setWorker i { w with activity := .triggering b, reported }
  else if s.completedThreads b = 0 then
    { s.setWorker i { w with activity := .idle, reported } with
      completedThreads := Function.update s.completedThreads b 1 }
  else
    let count := s.completedThreads b + 1
    if n < count then s.setWorker i { w with activity := .stopped }
    else if count = n then
      { s.setWorker i { w with activity := .triggering b, reported } with
        completedThreads := Function.update s.completedThreads b 0 }
    else
      { s.setWorker i { w with activity := .idle, reported } with
        completedThreads := Function.update s.completedThreads b count }

def step (batches : List ℕ) (s : MassiveSync n) : Step n → Option (MassiveSync n)
  | .enqueue i =>
    let w := s.workers i
    match batches[w.offered]? with
    | none => none
    | some b =>
      if w.continue_ && w.queue.length < maxQueuedChunks then
        some (s.setWorker i { w with queue := w.queue ++ [b], offered := w.offered + 1 })
      else if w.cancel || !w.continue_ then
        some (s.setWorker i { w with offered := w.offered + 1 })
      else none
  | .dequeue i =>
    let w := s.workers i
    match w.activity, w.queue with
    | .idle, b :: queue =>
      if !w.continue_ && w.cancel then none
      else some (s.setWorker i { w with activity := .processing b, queue })
    | _, _ => none
  | .write i =>
    let w := s.workers i
    match w.activity with
    | .processing b =>
      some (s.setWorker i { w with activity := .written b, committed := w.committed ++ [b] })
    | _ => none
  | .report i =>
    match (s.workers i).activity with
    | .written b => some (s.reportStage i b)
    | _ => none
  | .callback i accepted =>
    let w := s.workers i
    match w.activity with
    | .triggering b =>
      some { s.setWorker i { w with activity := .idle } with
        fired := s.fired ++ [b]
        endQueue := if accepted then s.endQueue ++ [b] else s.endQueue }
    | _ => none
  | .throw i =>
    let w := s.workers i
    match w.activity with
    | .idle | .stopped => none
    | _ => some (s.setWorker i { w with activity := .stopped })
  | .handleException i =>
    let w := s.workers i
    if w.activity = .stopped then some (s.setWorker i { w with cancel := true, continue_ := false })
    else none
  | .cancel i => some (s.setWorker i { s.workers i with cancel := true })
  | .join i => some (s.setWorker i { s.workers i with continue_ := false })
  | .leave i =>
    let w := s.workers i
    if w.activity = .idle && !w.continue_ && (w.queue.isEmpty || w.cancel) then
      some (s.setWorker i { w with activity := .stopped })
    else none
  | .endMassiveSync =>
    match s.endQueue with
    | [] => none
    | b :: endQueue => some { s with endQueue, ended := s.ended ++ [b] }

def run (batches : List ℕ) (s : MassiveSync n) (steps : List (Step n)) : Option (MassiveSync n) :=
  steps.foldlM (step batches) s

/-- A batch is dropped only by a worker whose `_continue` is already false. -/
def DropsLast (s : MassiveSync n) : Step n → Prop
  | .enqueue i => (s.workers i).continue_ = true → (s.workers i).queue.length < maxQueuedChunks
  | _ => True

instance (s : MassiveSync n) (st : Step n) : Decidable (s.DropsLast st) := by
  cases st <;> unfold DropsLast <;> infer_instance

inductive Reachable (batches : List ℕ) : MassiveSync n → Prop
  | initial : Reachable batches (initial n)
  | step {s s' : MassiveSync n} {t : Step n} (hs : Reachable batches s)
      (hstep : s.step batches t = some s') (hdrops : s.DropsLast t) : Reachable batches s'

end MassiveSync

def WorkerActivity.inHand : WorkerActivity → List ℕ
  | .processing b | .written b => [b]
  | _ => []

def Worker.pipeline (w : Worker) : List ℕ := w.reported ++ w.activity.inHand ++ w.queue

/-- A worker gets the batches in order and without gaps, up to the point where it stops. -/
structure Worker.InOrder (batches : List ℕ) (w : Worker) : Prop where
  running : w.activity ≠ .stopped → w.pipeline <+: batches
  all : w.activity ≠ .stopped → w.continue_ = true → w.pipeline = batches.take w.offered
  reported : w.reported <+: batches
  committed : ∀ b ∈ w.reported, b ∈ w.committed
  written : ∀ b, w.activity = .written b → b ∈ w.committed
  triggering : ∀ b, w.activity = .triggering b → w.reported.getLast? = some b

namespace Worker.InOrder

variable {batches : List ℕ} {w : Worker}

variable {b : ℕ}

theorem enqueued (h : w.InOrder batches) (hb : batches[w.offered]? = some b)
    (hcontinue : w.continue_ = true) :
    Worker.InOrder batches { w with queue := w.queue ++ [b], offered := w.offered + 1 } := by
  obtain ⟨hlt, hget⟩ := List.getElem?_eq_some_iff.1 hb
  have hpipe : w.activity ≠ .stopped →
      w.reported ++ w.activity.inHand ++ (w.queue ++ [b]) = batches.take (w.offered + 1) :=
    fun hne ↦ by
      rw [← List.append_assoc, List.take_add_one, hb]
      exact congrArg (· ++ [b]) (h.all hne hcontinue)
  refine ⟨fun hne ↦ ?_, fun hne _ ↦ hpipe hne, h.reported, h.committed, h.written, h.triggering⟩
  change w.reported ++ w.activity.inHand ++ (w.queue ++ [b]) <+: batches
  rw [hpipe hne]
  exact List.take_prefix _ _

theorem dropped (h : w.InOrder batches) (hcontinue : w.continue_ = false) :
    Worker.InOrder batches { w with offered := w.offered + 1 } :=
  ⟨h.running, fun _ hc ↦ (by rw [hcontinue] at hc; cases hc), h.reported, h.committed, h.written,
    h.triggering⟩

theorem dequeued (h : w.InOrder batches) (hidle : w.activity = .idle) {queue : List ℕ}
    (hqueue : w.queue = b :: queue) :
    Worker.InOrder batches { w with activity := .processing b, queue := queue } := by
  have hne : w.activity ≠ .stopped := by simp [hidle]
  have hpipe : w.pipeline = w.reported ++ [b] ++ queue := by
    simp [Worker.pipeline, hidle, WorkerActivity.inHand, hqueue]
  refine ⟨fun _ ↦ ?_, fun _ hc ↦ ?_, h.reported, h.committed, by simp, by simp⟩
  · change w.reported ++ [b] ++ queue <+: batches
    rw [← hpipe]
    exact h.running hne
  · change w.reported ++ [b] ++ queue = _
    rw [← hpipe]
    exact h.all hne hc

theorem wrote (h : w.InOrder batches) (hprocessing : w.activity = .processing b) :
    Worker.InOrder batches
      { w with activity := .written b, committed := w.committed ++ [b] } := by
  have hne : w.activity ≠ .stopped := by simp [hprocessing]
  have hpipe : w.pipeline = w.reported ++ [b] ++ w.queue := by
    simp [Worker.pipeline, hprocessing, WorkerActivity.inHand]
  refine ⟨fun _ ↦ ?_, fun _ hc ↦ ?_, h.reported, fun b' hb' ↦ ?_, ?_, by simp⟩
  · change w.reported ++ [b] ++ w.queue <+: batches
    rw [← hpipe]
    exact h.running hne
  · change w.reported ++ [b] ++ w.queue = _
    rw [← hpipe]
    exact h.all hne hc
  · exact List.mem_append_left _ (h.committed b' hb')
  · rintro b' ⟨⟩
    simp

theorem reportedBatch (h : w.InOrder batches) (hwritten : w.activity = .written b)
    {activity : WorkerActivity} (hhand : activity.inHand = [])
    (htrig : ∀ b', activity = .triggering b' → b' = b) (hw : ∀ b', activity ≠ .written b') :
    Worker.InOrder batches
      { w with activity := activity, reported := w.reported ++ [b] } := by
  have hne : w.activity ≠ .stopped := by simp [hwritten]
  have hpipe : w.pipeline = w.reported ++ [b] ++ w.queue := by
    simp [Worker.pipeline, hwritten, WorkerActivity.inHand]
  have hpipe' : w.reported ++ [b] ++ activity.inHand ++ w.queue = w.pipeline := by
    rw [hhand, List.append_nil, hpipe]
  refine ⟨fun _ ↦ ?_, fun _ hc ↦ ?_, ?_, ?_, fun b' hb' ↦ absurd hb' (hw b'), fun b' hb' ↦ ?_⟩
  · change w.reported ++ [b] ++ activity.inHand ++ w.queue <+: batches
    rw [hpipe']
    exact h.running hne
  · change w.reported ++ [b] ++ activity.inHand ++ w.queue = _
    rw [hpipe']
    exact h.all hne hc
  · refine List.IsPrefix.trans ?_ (h.running hne)
    rw [hpipe]
    exact List.prefix_append _ _
  · simp only [List.forall_mem_append, List.forall_mem_singleton]
    exact ⟨h.committed, h.written b hwritten⟩
  · rw [htrig b' hb']
    simp

theorem not_mem_reported (h : w.InOrder batches) (hnodup : batches.Nodup)
    (hwritten : w.activity = .written b) : b ∉ w.reported := by
  have hpre := h.running (by simp [hwritten])
  rw [Worker.pipeline, hwritten, List.append_assoc] at hpre
  have := (hpre.sublist.nodup hnodup)
  rw [List.nodup_append] at this
  exact fun hmem ↦ this.2.2 b hmem b (by simp [WorkerActivity.inHand]) rfl

theorem stop (h : w.InOrder batches) (cancel continue_ : Bool) :
    Worker.InOrder batches
      { w with activity := .stopped, cancel := cancel, continue_ := continue_ } :=
  ⟨by simp, by simp, h.reported, h.committed, by simp, by simp⟩

theorem setFlags (h : w.InOrder batches) (cancel : Bool) {continue_ : Bool}
    (hcontinue : continue_ = true → w.continue_ = true) :
    Worker.InOrder batches { w with cancel := cancel, continue_ := continue_ } :=
  ⟨h.running, fun hne hc ↦ h.all hne (hcontinue hc), h.reported, h.committed, h.written,
    h.triggering⟩

theorem called (h : w.InOrder batches) (htrig : w.activity = .triggering b) :
    Worker.InOrder batches { w with activity := .idle } := by
  have hne : w.activity ≠ .stopped := by simp [htrig]
  have hpipe : w.pipeline = w.reported ++ [] ++ w.queue := by
    simp [Worker.pipeline, htrig, WorkerActivity.inHand]
  refine ⟨fun _ ↦ ?_, fun _ hc ↦ ?_, h.reported, h.committed, by simp, by simp⟩
  · change w.reported ++ [] ++ w.queue <+: batches
    rw [← hpipe]
    exact h.running hne
  · change w.reported ++ [] ++ w.queue = _
    rw [← hpipe]
    exact h.all hne hc

end Worker.InOrder

end HiveForkManager
