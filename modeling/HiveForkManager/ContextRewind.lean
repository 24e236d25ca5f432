import HiveForkManager.Database

namespace HiveForkManager

variable {ρ : Type}

namespace Context

/-- The full-mode body of `hive.context_back_from_fork`. -/
def backFromFork (blockNumBeforeFork : ℕ) (c : Context ρ) : Context ρ :=
  if blockNumBeforeFork < c.currentBlockNum then
    { c with
      tables := c.tables.map (backFromForkOneTable blockNumBeforeFork)
      currentBlockNum := blockNumBeforeFork }
  else c

def backFromForkLite (blockNumBeforeFork : ℕ) (c : Context ρ) : Context ρ :=
  if blockNumBeforeFork < c.currentBlockNum then
    { c with currentBlockNum := blockNumBeforeFork }
  else c

def setIrreversible (blockNum : ℕ) (c : Context ρ) : Context ρ :=
  { c with
    irreversibleBlock := blockNum
    tables := c.tables.map (removeObsoleteOperations blockNum) }

end Context

def contextBackFromFork (h : Hafd) (blockNumBeforeFork : ℕ) (c : Context ρ) : Context ρ :=
  if h.hiveState.liteMode then c.backFromForkLite blockNumBeforeFork
  else c.backFromFork blockNumBeforeFork

def contextSetIrreversibleBlock (blockNum : ℕ) (c : Context ρ) : Except Error (Context ρ) :=
  if blockNum < c.irreversibleBlock then
    .error (.raiseException ("The proposed block number of irreversible block is lower than the " ++
      "current one for context " ++ c.name))
  else
    .ok (c.setIrreversible blockNum)

theorem contextSetIrreversibleBlock_eq_ok {n : ℕ} {c c' : Context ρ}
    (hok : contextSetIrreversibleBlock n c = .ok c') :
    c.irreversibleBlock ≤ n ∧ c' = c.setIrreversible n := by
  rw [contextSetIrreversibleBlock] at hok
  split at hok
  · cases hok
  case isFalse hle => exact ⟨not_lt.mp hle, (Except.ok.inj hok).symm⟩

def detachTable (t : RegisteredTable ρ) : Except Error (RegisteredTable ρ) :=
  if t.shadow ≠ [] then
    .error (.raiseException "Cannot detach a table. Shadow table is not empty")
  else
    .ok { t with hasTriggers := false }

/-- `hive.attach_table`, called by `contextAttach` on detached contexts only. -/
def attachTable (isForking : Bool) (t : RegisteredTable ρ) : RegisteredTable ρ :=
  if isForking then { t with hasTriggers := true } else t

/-- `hive.context_detach`. The undo records are purged up to the block the context had before it
was rewound. -/
def contextDetach (h : Hafd) (c : Context ρ) : Except Error (Context ρ) := do
  let rewound := contextBackFromFork h c.irreversibleBlock c
  let tables ← rewound.tables.mapM
    (fun t ↦ detachTable (removeObsoleteOperations c.currentBlockNum t))
  pure { rewound with tables, eventsId := unreachableEventId, isAttached := false }

def contextAttach (lastSyncedBlock : ℕ) (c : Context ρ) : Except Error (Context ρ) :=
  if c.isAttached then
    .error (.raiseException
      ("Unknown context " ++ c.name ++ " or context is already attached"))
  else if lastSyncedBlock < c.currentBlockNum then
    .error (.raiseException
      ("Context " ++ c.name ++ " has already processed block nr " ++ toString lastSyncedBlock))
  else
    .ok { c with
      tables := c.tables.map (attachTable c.isForking)
      currentBlockNum := lastSyncedBlock
      eventsId := 0
      isAttached := true }

theorem contextAttach_eq_ok {n : ℕ} {c c' : Context ρ} (hok : contextAttach n c = .ok c') :
    c.isAttached = false ∧ c' = { c with
      tables := c.tables.map (attachTable c.isForking)
      currentBlockNum := n
      eventsId := 0
      isAttached := true } := by
  rw [contextAttach] at hok
  split at hok
  · cases hok
  case isFalse hattached =>
    split at hok
    · cases hok
    · exact ⟨Bool.not_eq_true _ ▸ hattached, (Except.ok.inj hok).symm⟩

/-- `hive.register_table` on an empty table. The triggers follow the attachment of the context. -/
def registerTable (c : Context ρ) : Context ρ :=
  { c with tables := c.tables ++ [⟨[], [], 1, c.isAttached⟩] }

section Lemmas

variable {h : Hafd} {c : Context ρ} {b : ℕ}

@[simp] theorem contextBackFromFork_full (hl : h.hiveState.liteMode = false) :
    contextBackFromFork h b c = c.backFromFork b := by
  rw [contextBackFromFork, hl]
  rfl

namespace Context

theorem backFromFork_of_le (hb : c.currentBlockNum ≤ b) : c.backFromFork b = c := by
  rw [backFromFork, if_neg (Nat.not_lt.mpr hb)]

@[simp] theorem backFromFork_name : (c.backFromFork b).name = c.name := by
  rw [backFromFork]; split <;> rfl

@[simp] theorem backFromFork_currentBlockNum :
    (c.backFromFork b).currentBlockNum = min c.currentBlockNum b := by
  rw [backFromFork]
  split
  · exact (Nat.min_eq_right (Nat.le_of_lt ‹_›)).symm
  · exact (Nat.min_eq_left (Nat.not_lt.mp ‹_›)).symm

@[simp] theorem backFromFork_irreversibleBlock :
    (c.backFromFork b).irreversibleBlock = c.irreversibleBlock := by
  rw [backFromFork]; split <;> rfl

@[simp] theorem backFromFork_eventsId : (c.backFromFork b).eventsId = c.eventsId := by
  rw [backFromFork]; split <;> rfl

@[simp] theorem backFromFork_isAttached : (c.backFromFork b).isAttached = c.isAttached := by
  rw [backFromFork]; split <;> rfl

end Context

end Lemmas

end HiveForkManager
