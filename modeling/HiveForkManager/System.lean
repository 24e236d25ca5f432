import HiveForkManager.AppLoop
import HiveForkManager.World

namespace HiveForkManager

def processNextIteration (env : CallEnv) (contexts : List ContextName)
    (overrideMaxBatch limit : Option ℕ) (db : Db ℕ) : Except Error (Db ℕ) := do
  let (db, range) ← appNextIteration env contexts false overrideMaxBatch limit db
  match range with
  | none => pure db
  | some (first, last) => insertBlocks contexts (List.range' first (last + 1 - first)) db

inductive Call where
  | hived (call : HivedCall)
  | createContext (env : CallEnv) (name : ContextName) (isForking isAttached : Bool)
      (stages : Option (List ApplicationStage)) (tables : ℕ)
  | nextBlock (env : CallEnv) (contexts : List ContextName) (blockLimit : Option ℕ)
  | nextIteration (env : CallEnv) (contexts : List ContextName) (overrideMaxBatch limit : Option ℕ)
  | attach (env : CallEnv) (contexts : List ContextName)
  | detach (contexts : List ContextName)
  | setNonForking (env : CallEnv) (contexts : List ContextName)
  | setForking (env : CallEnv) (contexts : List ContextName)
  | autoDetach (env : CallEnv) (appTimeout : ℕ)
  deriving DecidableEq, Repr

namespace World

def step (w : World ℕ) : Call → World ℕ
  | .hived call => w.hived call
  | .createContext env name isForking isAttached stages tables =>
    w.app (appCreateContext env name isForking isAttached stages tables)
  | .nextBlock env contexts blockLimit => w.app (processNextBlock env contexts blockLimit)
  | .nextIteration env contexts overrideMaxBatch limit =>
    w.app (processNextIteration env contexts overrideMaxBatch limit)
  | .attach env contexts => w.app (appContextAttach env contexts)
  | .detach contexts => w.app (appContextDetach contexts)
  | .setNonForking env contexts => w.app (appContextSetNonForking env contexts)
  | .setForking env contexts => w.app (appContextSetForking env contexts)
  | .autoDetach env appTimeout => w.app (fun db ↦ .ok (performDeadAppContextsAutoDetach env appTimeout db))

def run (w : World ℕ) (calls : List Call) : World ℕ := calls.foldl step w

end World

/-- The states that calls of the kind `P` lead to. -/
inductive Reachable (P : World ℕ → Call → Prop) : World ℕ → Prop
  | initial (state : SyncState) : Reachable P (World.initial ℕ state)
  | step {w : World ℕ} {call : Call} (h : Reachable P w) (hcall : P w call) :
      Reachable P (w.step call)

theorem Reachable.mono {P Q : World ℕ → Call → Prop} {w : World ℕ} (h : Reachable P w)
    (hPQ : ∀ w call, P w call → Q w call) : Reachable Q w := by
  induction h with
  | initial state => exact .initial state
  | step _ hcall ih => exact .step ih (hPQ _ _ hcall)

def emptyBlock (num : ℕ) (hash prev : UInt8) : BlockData :=
  { (default : BlockData) with
    block := { (default : Block) with num, hash := [hash], prev := [prev] } }

def CallEnv.ready (now : ℕ) : CallEnv := ⟨now, true, true, false, none⟩

/-- All calls of a list are of the kind `P` where they are made. -/
def World.Runs (P : World ℕ → Call → Prop) (w : World ℕ) : List Call → Prop
  | [] => True
  | call :: calls => P w call ∧ (w.step call).Runs P calls

instance World.decidableRuns (P : World ℕ → Call → Prop) [∀ w call, Decidable (P w call)] :
    (w : World ℕ) → (calls : List Call) → Decidable (w.Runs P calls)
  | _, [] => .isTrue trivial
  | w, call :: calls =>
    have := World.decidableRuns P (w.step call) calls
    inferInstanceAs (Decidable (P w call ∧ (w.step call).Runs P calls))

theorem Reachable.run {P : World ℕ → Call → Prop} {w : World ℕ} (h : Reachable P w)
    {calls : List Call} (hcalls : w.Runs P calls) : Reachable P (w.run calls) := by
  induction calls generalizing w with
  | nil => exact h
  | cons call calls ih => exact ih (h.step hcalls.1) hcalls.2

def Call.Lawful (w : World ℕ) : Call → Prop
  | .hived call => w.Allowed call
  | _ => True

instance (w : World ℕ) (call : Call) : Decidable (call.Lawful w) := by
  cases call <;> unfold Call.Lawful <;> infer_instance

end HiveForkManager
