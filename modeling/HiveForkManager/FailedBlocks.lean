import HiveForkManager.BlockCollector

namespace HiveForkManager

variable {α β : Type} [DecidableEq α]

/-- A block as it is notified; `flushed` is what its flush moves out of the caches. -/
structure BlockNote (α β : Type) where
  num : ℕ
  id : β
  operations : List (OperationNote α β)
  transactions : List (TransactionNote β)
  flushed : Option ℕ

inductive FailurePoint where
  | afterOperations (n : ℕ)
  | afterTransactions (n : ℕ)
  | beforeFlush
  | afterFlush
  | afterClear
  deriving DecidableEq, Repr

namespace BlockCollector

variable {cfg : CollectorConfig α β} {s s' : BlockCollector α β}

def notifyOperations (cfg : CollectorConfig α β) (b : BlockNote α β) (n : ℕ)
    (s : BlockCollector α β) : BlockCollector α β :=
  (b.operations.take n).foldl (onPreApplyOperation cfg b.num) s

/-- `on_post_apply_block` up to the end of `handle_transactions`, of `n` transactions. -/
def postApplyTransactions (cfg : CollectorConfig α β) (b : BlockNote α β) (n : ℕ)
    (s : BlockCollector α β) : BlockCollector α β :=
  handleTransactions cfg b.num 0 (b.transactions.take n)
    { s with memory := { s.memory with opInBlockNumber := 0 } }

def clearFilter (cfg : CollectorConfig α β) (s : BlockCollector α β) : BlockCollector α β :=
  if cfg.filterEnabled then
    { s with memory := { s.memory with trxInBlockFilterAccepted := [] } } else s

def collectBlock (cfg : CollectorConfig α β) (b : BlockNote α β) (s : BlockCollector α β) :
    BlockCollector α β :=
  (postApplyTransactions cfg b b.transactions.length
    (notifyOperations cfg b b.operations.length (snapshotCurrentSizes s))).append .blocks b.num
      (.block b.id)

def handleUpTo (cfg : CollectorConfig α β) (b : BlockNote α β) (s : BlockCollector α β) :
    FailurePoint → BlockCollector α β
  | .afterOperations n => notifyOperations cfg b n (snapshotCurrentSizes s)
  | .afterTransactions n =>
    postApplyTransactions cfg b n
      (notifyOperations cfg b b.operations.length (snapshotCurrentSizes s))
  | .beforeFlush => collectBlock cfg b s
  | .afterFlush => flush b.flushed (collectBlock cfg b s)
  | .afterClear => clearFilter cfg (flush b.flushed (collectBlock cfg b s))

def applyBlock (cfg : CollectorConfig α β) (b : BlockNote α β) (s : BlockCollector α β) :
    BlockCollector α β := handleUpTo cfg b s .afterClear

def failBlock (cfg : CollectorConfig α β) (b : BlockNote α β) (p : FailurePoint)
    (s : BlockCollector α β) : Option (BlockCollector α β) :=
  (handleUpTo cfg b s p).revertToSnapshot.map fun s' ↦
    { s' with operationCount := s.operationCount }

def run (cfg : CollectorConfig α β) :
    List (BlockNote α β × Option FailurePoint) → BlockCollector α β → Option (BlockCollector α β)
  | [], s => some s
  | (b, none) :: rest, s => run cfg rest (applyBlock cfg b s)
  | (b, some p) :: rest, s => (failBlock cfg b p s).bind (run cfg rest)

/-- No operation of the block was notified before it failed, and no flush has moved rows. From the
end of the block on, the operation counter and the filter have to be as after an applied block. -/
def CleanFailure (cfg : CollectorConfig α β) (b : BlockNote α β) (p : FailurePoint)
    (s : BlockCollector α β) : Prop :=
  match p with
  | .afterOperations n => b.operations.take n = []
  | .afterTransactions _ | .beforeFlush => b.operations = [] ∧ s.memory.opInBlockNumber = 0
  | .afterFlush => (b.operations = [] ∧ s.memory.opInBlockNumber = 0) ∧ b.flushed = none
  | .afterClear => (b.operations = [] ∧ s.memory.opInBlockNumber = 0) ∧ b.flushed = none ∧
      (cfg.filterEnabled → s.memory.trxInBlockFilterAccepted = [])

structure Grows (s s' : BlockCollector α β) : Prop where
  cache : ∀ kind, s.cache kind <+: s'.cache kind
  stash : s'.stash = s.stash
  dumped : s'.dumped = s.dumped

omit [DecidableEq α] in
theorem Grows.refl (s : BlockCollector α β) : Grows s s :=
  ⟨fun _ ↦ List.prefix_rfl, rfl, rfl⟩

omit [DecidableEq α] in
theorem Grows.trans {s'' : BlockCollector α β} (h : Grows s s') (h' : Grows s' s'') :
    Grows s s'' :=
  ⟨fun kind ↦ (h.cache kind).trans (h'.cache kind), h'.stash.trans h.stash,
    h'.dumped.trans h.dumped⟩

omit [DecidableEq α] in
theorem Grows.foldl {γ : Type} {f : BlockCollector α β → γ → BlockCollector α β}
    (hf : ∀ s x, Grows s (f s x)) (xs : List γ) (s : BlockCollector α β) :
    Grows s (xs.foldl f s) := by
  induction xs generalizing s with
  | nil => exact .refl s
  | cons x xs ih => exact (hf s x).trans (ih _)

omit [DecidableEq α] in
theorem grows_append (kind : CacheKind) (blockNum : ℕ) (row : CollectedRow α β)
    (s : BlockCollector α β) : Grows s (s.append kind blockNum row) := by
  refine ⟨fun k ↦ ?_, rfl, rfl⟩
  unfold append
  dsimp only
  split
  · exact List.prefix_append _ _
  · exact List.prefix_rfl

omit [DecidableEq α] in
theorem Grows.withRest (h : Grows s s') (m : CollectorMemory) (count : α → Option ℕ) :
    Grows s { s' with memory := m, operationCount := count } :=
  ⟨h.cache, h.stash, h.dumped⟩

theorem grows_onNewOperation (cfg : CollectorConfig α β) (blockNum : ℕ) (op : OperationNote α β)
    (account owner : α) (operationId : OperationId) (typeId : ℕ) (isCurrent : Bool)
    (s : BlockCollector α β) :
    Grows s (onNewOperation cfg blockNum op account owner operationId typeId isCurrent s) := by
  unfold onNewOperation
  split
  · dsimp only
    split
    · exact (grows_append _ _ _ s).withRest _ _
    · exact (Grows.refl s).withRest _ _
  · exact .refl s

theorem grows_processAccountCreationOp (cfg : CollectorConfig α β) (blockNum : ℕ)
    (op : OperationNote α β) (operationId : OperationId) (impacted : Option α)
    (s : BlockCollector α β) :
    Grows s (processAccountCreationOp cfg blockNum op operationId impacted s) := by
  cases impacted with
  | none => exact (Grows.refl s).withRest _ _
  | some account =>
    exact ((Grows.refl s).withRest _ s.operationCount).trans (grows_onNewOperation ..)

theorem grows_onCreationOperation (cfg : CollectorConfig α β) (blockNum : ℕ)
    (op : OperationNote α β) (newAccount creator : α) (s : BlockCollector α β) :
    Grows s (onCreationOperation cfg blockNum op newAccount creator s) := by
  unfold onCreationOperation
  split
  · exact (grows_onNewOperation ..).withRest _ _
  · exact .refl s

theorem grows_visit (cfg : CollectorConfig α β) (blockNum : ℕ) (op : OperationNote α β)
    (operationId : OperationId) (s : BlockCollector α β) :
    Grows s (visit cfg blockNum op operationId s) := by
  unfold visit
  cases op.kind with
  | accountCreate creator => exact grows_processAccountCreationOp ..
  | pow worker =>
    dsimp only
    split
    · exact (grows_processAccountCreationOp ..).withRest _ _
    · exact grows_processAccountCreationOp ..
  | accountCreated newAccount creator =>
    have hnew : Grows s (onNewAccount blockNum op newAccount s) :=
      (grows_append ..).withRest s.memory _
    have hop := (hnew.trans (grows_onCreationOperation cfg blockNum op newAccount creator _)).trans
      (grows_onNewOperation cfg blockNum op newAccount creator operationId op.typeId true _)
    dsimp only
    split
    · exact hop.trans (grows_onNewOperation ..)
    · exact hop
  | other => exact Grows.foldl (fun s p ↦ grows_onNewOperation ..) _ s

theorem grows_onPreApplyOperation (cfg : CollectorConfig α β) (blockNum : ℕ)
    (s : BlockCollector α β) (op : OperationNote α β) :
    Grows s (onPreApplyOperation cfg blockNum s op) := by
  have hvisit : Grows s (visit cfg blockNum op ⟨blockNum, s.memory.opInBlockNumber⟩
      { s with memory := collectTrackedOperation cfg op s.memory }) :=
    ((Grows.refl s).withRest _ s.operationCount).trans (grows_visit ..)
  unfold onPreApplyOperation
  dsimp only
  split
  · split
    · exact (((hvisit.withRest _ _).trans (grows_append ..)).trans (grows_append ..)).withRest _ _
    · exact ((hvisit.withRest _ _).trans (grows_append ..)).withRest _ _
  · exact hvisit.withRest _ _

omit [DecidableEq α] in
theorem grows_handleTransactions (cfg : CollectorConfig α β) (blockNum : ℕ)
    (transactions : List (TransactionNote β)) (number : ℕ) (s : BlockCollector α β) :
    Grows s (handleTransactions cfg blockNum number transactions s) := by
  induction transactions generalizing number s with
  | nil => exact .refl s
  | cons trx rest ih =>
    unfold handleTransactions
    dsimp only
    split
    · exact ((grows_append ..).trans (Grows.foldl (fun s _ ↦ grows_append ..) _ _)).trans (ih ..)
    · exact ih ..

theorem grows_notifyOperations (cfg : CollectorConfig α β) (b : BlockNote α β) (n : ℕ)
    (s : BlockCollector α β) : Grows s (notifyOperations cfg b n s) :=
  Grows.foldl (grows_onPreApplyOperation cfg b.num) _ s

omit [DecidableEq α] in
theorem grows_postApplyTransactions (cfg : CollectorConfig α β) (b : BlockNote α β) (n : ℕ)
    (s : BlockCollector α β) : Grows s (postApplyTransactions cfg b n s) :=
  ((Grows.refl s).withRest _ s.operationCount).trans (grows_handleTransactions ..)

theorem grows_collectBlock (cfg : CollectorConfig α β) (b : BlockNote α β)
    (s : BlockCollector α β) : Grows (snapshotCurrentSizes s) (collectBlock cfg b s) :=
  ((grows_notifyOperations ..).trans (grows_postApplyTransactions ..)).trans (grows_append ..)

omit [DecidableEq α] in
theorem flush_none (s : BlockCollector α β) : flush none s = s := by
  simp only [flush, moveIrreversibleBlocks, List.append_nil]

omit [DecidableEq α] in
theorem handleTransactions_memory (cfg : CollectorConfig α β) (blockNum : ℕ)
    (transactions : List (TransactionNote β)) (number : ℕ) (s : BlockCollector α β) :
    (handleTransactions cfg blockNum number transactions s).memory = s.memory := by
  have hsignatures : ∀ (hash : β) (signatures : List β) (s : BlockCollector α β),
      (signatures.foldl (fun s signature ↦
        s.append .transactionsMultisig blockNum (.multisig hash signature)) s).memory =
        s.memory := by
    intro hash signatures
    induction signatures with
    | nil => exact fun s ↦ rfl
    | cons signature rest ih => exact fun s ↦ ih _
  induction transactions generalizing number s with
  | nil => rfl
  | cons trx rest ih =>
    unfold handleTransactions
    dsimp only
    rw [ih]
    split
    · exact hsignatures ..
    · rfl

omit [DecidableEq α] in
theorem postApplyTransactions_memory (cfg : CollectorConfig α β) (b : BlockNote α β) (n : ℕ)
    (hs : s.memory.opInBlockNumber = 0) : (postApplyTransactions cfg b n s).memory = s.memory := by
  rw [postApplyTransactions, handleTransactions_memory, ← hs]

theorem notifyOperations_nil {b : BlockNote α β} {n : ℕ} (hb : b.operations.take n = []) :
    notifyOperations cfg b n s = s := by
  rw [notifyOperations, hb]
  rfl

theorem collectBlock_memory {b : BlockNote α β}
    (hb : b.operations = [] ∧ s.memory.opInBlockNumber = 0) :
    (collectBlock cfg b s).memory = s.memory := by
  rw [collectBlock, notifyOperations_nil (by rw [hb.1, List.take_nil])]
  exact postApplyTransactions_memory cfg b _ hb.2

theorem CleanFailure.memory {b : BlockNote α β} {p : FailurePoint} (h : CleanFailure cfg b p s) :
    (handleUpTo cfg b s p).memory = s.memory := by
  cases p with
  | afterOperations n => rw [handleUpTo, notifyOperations_nil h, snapshotCurrentSizes]
  | afterTransactions n =>
    rw [handleUpTo, notifyOperations_nil (by rw [h.1, List.take_nil])]
    exact postApplyTransactions_memory cfg b n h.2
  | beforeFlush => exact collectBlock_memory h
  | afterFlush =>
    rw [handleUpTo, h.2, flush_none]
    exact collectBlock_memory h.1
  | afterClear =>
    rw [handleUpTo, h.2.1, flush_none, clearFilter]
    split
    case isTrue hfilter =>
      rw [collectBlock_memory h.1, ← h.2.2 hfilter]
    case isFalse => exact collectBlock_memory h.1

omit [DecidableEq α] in
theorem Grows.clearFilter (h : Grows s s') (cfg : CollectorConfig α β) :
    Grows s (clearFilter cfg s') := by
  unfold BlockCollector.clearFilter
  split
  · exact h.withRest _ _
  · exact h

theorem CleanFailure.grows {b : BlockNote α β} {p : FailurePoint} (h : CleanFailure cfg b p s) :
    Grows (snapshotCurrentSizes s) (handleUpTo cfg b s p) := by
  cases p with
  | afterOperations n => exact grows_notifyOperations ..
  | afterTransactions n => exact (grows_notifyOperations ..).trans (grows_postApplyTransactions ..)
  | beforeFlush => exact grows_collectBlock cfg b s
  | afterFlush =>
    rw [handleUpTo, h.2, flush_none]
    exact grows_collectBlock cfg b s
  | afterClear =>
    rw [handleUpTo, h.2.1, flush_none]
    exact (grows_collectBlock cfg b s).clearFilter cfg

omit [DecidableEq α] in
theorem Grows.revertToSnapshot (h : Grows (snapshotCurrentSizes s) s') :
    s'.revertToSnapshot = some (snapshotCurrentSizes { s' with cache := s.cache }) := by
  have hstash : ∀ kind, s'.stash kind = (s.cache kind).length := fun kind ↦ by rw [h.stash]; rfl
  have hcached : ∀ kind, s.cache kind <+: s'.cache kind := h.cache
  have htake : (fun kind ↦ (s'.cache kind).take (s'.stash kind)) = s.cache := funext fun kind ↦ by
    rw [hstash, ← List.prefix_iff_eq_take.1 (hcached kind)]
  unfold BlockCollector.revertToSnapshot
  rw [if_pos, htake]
  simp only [List.all_eq_true, decide_eq_true_eq]
  intro kind _
  rw [hstash]
  exact (hcached kind).length_le

structure SameRows (s s' : BlockCollector α β) : Prop where
  cache : s'.cache = s.cache
  memory : s'.memory = s.memory
  operationCount : s'.operationCount = s.operationCount
  dumped : s'.dumped = s.dumped

omit [DecidableEq α] in
theorem SameRows.snapshot_eq (h : SameRows s s') :
    snapshotCurrentSizes s' = snapshotCurrentSizes s := by
  cases s
  cases s'
  obtain ⟨rfl, rfl, rfl, rfl⟩ := h
  rfl

theorem CleanFailure.failBlock {b : BlockNote α β} {p : FailurePoint}
    (h : CleanFailure cfg b p s) : ∃ s', failBlock cfg b p s = some s' ∧ SameRows s s' := by
  have hg := h.grows
  refine ⟨{ snapshotCurrentSizes { handleUpTo cfg b s p with cache := s.cache } with
    operationCount := s.operationCount }, ?_, rfl, h.memory, rfl, hg.dumped⟩
  rw [BlockCollector.failBlock, hg.revertToSnapshot, Option.map_some]

theorem SameRows.handleUpTo (h : SameRows s s') (b : BlockNote α β) (p : FailurePoint) :
    BlockCollector.handleUpTo cfg b s' p = BlockCollector.handleUpTo cfg b s p := by
  cases p <;> simp only [BlockCollector.handleUpTo, collectBlock, h.snapshot_eq]

omit [DecidableEq α] in
theorem SameRows.refl (s : BlockCollector α β) : SameRows s s := ⟨rfl, rfl, rfl, rfl⟩

omit [DecidableEq α] in
theorem SameRows.trans {s'' : BlockCollector α β} (h : SameRows s s') (h' : SameRows s' s'') :
    SameRows s s'' :=
  ⟨h'.cache.trans h.cache, h'.memory.trans h.memory, h'.operationCount.trans h.operationCount,
    h'.dumped.trans h.dumped⟩

def unfiltered : CollectorConfig ℕ ℕ := ⟨false, fun _ ↦ true, fun _ ↦ true, true⟩

end BlockCollector

end HiveForkManager
