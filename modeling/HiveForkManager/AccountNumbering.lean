import HiveForkManager.BlockCollector

namespace HiveForkManager

variable {α β : Type} [DecidableEq α]

/-- What `collect` is called with. -/
structure Notification (α β : Type) where
  blockNum : ℕ
  operationId : OperationId
  op : OperationNote α β

/-- A row of `account_operations`. -/
structure AccountOperationRow where
  operationId : OperationId
  accountId : ℕ
  ownerId : ℕ
  seqNo : ℕ
  typeId : ℕ
  deriving DecidableEq, Repr

def CollectedRow.asAccountOperation : CollectedRow α β → Option AccountOperationRow
  | .accountOperation operationId accountId ownerId seqNo typeId =>
    some ⟨operationId, accountId, ownerId, seqNo, typeId⟩
  | _ => none

def CollectedRow.asAccount : CollectedRow α β → Option α
  | .account _ name => some name
  | _ => none

namespace BlockCollector

def accountOperations (s : BlockCollector α β) : List AccountOperationRow :=
  (s.cache .accountOperations).filterMap fun r ↦ r.row.asAccountOperation

def createdAccounts (s : BlockCollector α β) : List α :=
  (s.cache .accounts).filterMap fun r ↦ r.row.asAccount

/-- `accounts_collector::collect` with the checks that may throw, the unique index of the sequence
objects included. -/
def collect (cfg : CollectorConfig α β) (n : Notification α β) (s : BlockCollector α β) :
    Except String (BlockCollector α β) :=
  if ¬ n.op.typeId < 32767 then .error "Too big value of operation type-id"
  else
    let s := { s with memory := collectTrackedOperation cfg n.op s.memory }
    match n.op.kind with
    | .accountCreated newAccount _ =>
      if (n.op.accountId newAccount).isNone then
        .error "account does not exist in chain database"
      else if (s.operationCount newAccount).isSome then .error "could not create object"
      else .ok (visit cfg n.blockNum n.op n.operationId s)
    | _ => .ok (visit cfg n.blockNum n.op n.operationId s)

def collectAll (cfg : CollectorConfig α β) : List (Notification α β) → BlockCollector α β →
    Except String (BlockCollector α β)
  | [], s => .ok s
  | n :: notes, s => do
    let s ← collect cfg n s
    collectAll cfg notes s

def start : BlockCollector α β where
  cache := fun _ ↦ []
  stash := fun _ ↦ 0
  memory := ⟨0, [], none, false, false⟩
  operationCount := fun _ ↦ none
  dumped := fun _ ↦ []

end BlockCollector

namespace CollectorConfig

def unfiltered (cfg : CollectorConfig α β) : CollectorConfig α β :=
  { cfg with filterEnabled := false }

def filtered (cfg : CollectorConfig α β) : CollectorConfig α β :=
  { cfg with filterEnabled := true }

end CollectorConfig

/-- The operations after which an `account_created_operation` comes. -/
def OperationKind.creates : OperationKind α → Bool
  | .accountCreate _ => true
  | .pow worker => worker.isNone
  | .accountCreated _ _ => false
  | .other => false

def OperationKind.isAccountCreated : OperationKind α → Bool
  | .accountCreated _ _ => true
  | _ => false

def OperationKind.named : OperationKind α → List α
  | .accountCreate creator => [creator]
  | .pow worker => worker.toList
  | .accountCreated newAccount creator => [newAccount, creator]
  | .other => []

/-- Every `account_created_operation` comes right after the operation that creates the account. -/
def CreatedInTurn : Bool → List (Notification α β) → Prop
  | _, [] => True
  | afterCreation, n :: notes =>
    (n.op.kind.isAccountCreated → afterCreation) ∧ CreatedInTurn n.op.kind.creates notes

/-- What the chain guarantees about the notified operations. An account keeps its id, and the
impacted accounts are a `flat_set` that holds the accounts the operation names. -/
structure Notified (ids : α → ℕ) (notes : List (Notification α β)) : Prop where
  operationIds : (notes.map Notification.operationId).Nodup
  accountIds : ∀ n ∈ notes, ∀ a i, n.op.accountId a = some i → i = ids a
  impacted_nodup : ∀ n ∈ notes, n.op.impacted.Nodup
  named_impacted : ∀ n ∈ notes, ∀ a ∈ n.op.kind.named, a ∈ n.op.impacted
  inTurn : CreatedInTurn false notes

def tracks (cfg : CollectorConfig α β) (nameOf : ℕ → α) (notes : List (Notification α β))
    (accountId : ℕ) (operationId : OperationId) : Bool :=
  cfg.isTrackedAccount (nameOf accountId) &&
    (notes.find? fun n ↦ n.operationId = operationId).any fun n ↦ cfg.isTrackedOperation n.op

/-- A call of `on_new_operation`. -/
structure LedgerEntry (α : Type) where
  account : α
  owner : α
  operationId : OperationId
  typeId : ℕ
  isCurrent : Bool

structure Ledger (α : Type) where
  rows : List AccountOperationRow
  created : List α
  count : α → Option ℕ

namespace Ledger

def note (accountId : α → Option ℕ) (allow : LedgerEntry α → Bool) (l : Ledger α)
    (e : LedgerEntry α) : Ledger α :=
  match accountId e.account, l.count e.account with
  | some id, some seqNo =>
    ⟨if allow e then
        l.rows ++ [⟨e.operationId, id, (accountId e.owner).getD 0, seqNo, e.typeId⟩] else l.rows,
      l.created, fun a ↦ if a = e.account then some (seqNo + 1) else l.count a⟩
  | _, _ => l

def openAccount (l : Ledger α) (account : α) : Ledger α :=
  ⟨l.rows, l.created ++ [account], fun a ↦ if a = account then some 0 else l.count a⟩

end Ledger

namespace BlockCollector

def ledger (s : BlockCollector α β) : Ledger α :=
  ⟨s.accountOperations, s.createdAccounts, s.operationCount⟩

/-- The calls of `on_new_operation` that an operation leads to. -/
def entries (op : OperationNote α β) (operationId : OperationId)
    (creation : Option (OperationId × ℕ)) : List (LedgerEntry α) :=
  match op.kind with
  | .accountCreate creator => [⟨creator, creator, operationId, op.typeId, true⟩]
  | .pow worker => worker.toList.map fun w ↦ ⟨w, w, operationId, op.typeId, true⟩
  | .accountCreated newAccount creator =>
    (creation.toList.map fun c ↦ ⟨newAccount, creator, c.1, c.2, false⟩) ++
      ⟨newAccount, creator, operationId, op.typeId, true⟩ ::
        if creator ≠ newAccount then [⟨creator, creator, operationId, op.typeId, true⟩] else []
  | .other => (withOwners op.impacted op.ownerImpacted none).map fun p ↦
      ⟨p.1, p.2, operationId, op.typeId, true⟩

def openedLedger (op : OperationNote α β) (l : Ledger α) : Ledger α :=
  match op.kind with
  | .accountCreated newAccount _ => l.openAccount newAccount
  | _ => l

def nextCreation (op : OperationNote α β) (operationId : OperationId)
    (creation : Option (OperationId × ℕ)) : Option (OperationId × ℕ) :=
  match op.kind with
  | .accountCreate _ => some (operationId, op.typeId)
  | .pow worker => if worker.isSome then none else some (operationId, op.typeId)
  | .accountCreated _ _ => none
  | .other => creation

def allowed (cfg : CollectorConfig α β) (op : OperationNote α β) (m : CollectorMemory)
    (e : LedgerEntry α) : Bool :=
  cfg.dumpAccountOperations &&
    (isAccountTracked cfg op e.account && isOperationTracked cfg m e.isCurrent)

theorem memory_onNewOperation (cfg : CollectorConfig α β) (blockNum : ℕ) (op : OperationNote α β)
    (account owner : α) (operationId : OperationId) (typeId : ℕ) (isCurrent : Bool)
    (s : BlockCollector α β) :
    (onNewOperation cfg blockNum op account owner operationId typeId isCurrent s).memory =
      s.memory := by
  unfold onNewOperation
  split
  · dsimp only
    split <;> rfl
  · rfl

theorem ledger_onNewOperation (cfg : CollectorConfig α β) (blockNum : ℕ) (op : OperationNote α β)
    (account owner : α) (operationId : OperationId) (typeId : ℕ) (isCurrent : Bool)
    (s : BlockCollector α β) :
    (onNewOperation cfg blockNum op account owner operationId typeId isCurrent s).ledger =
      s.ledger.note op.accountId (allowed cfg op s.memory)
        ⟨account, owner, operationId, typeId, isCurrent⟩ := by
  have hcount : s.ledger.count = s.operationCount := rfl
  rw [onNewOperation, Ledger.note, hcount]
  cases op.accountId account with
  | none => rfl
  | some id =>
    cases s.operationCount account with
    | none => rfl
    | some seqNo =>
      have hallowed : (cfg.dumpAccountOperations && (isAccountTracked cfg op account &&
          isOperationTracked cfg s.memory isCurrent)) =
            allowed cfg op s.memory ⟨account, owner, operationId, typeId, isCurrent⟩ := rfl
      dsimp only
      rw [hallowed]
      cases allowed cfg op s.memory ⟨account, owner, operationId, typeId, isCurrent⟩ with
      | false => rfl
      | true => simp [ledger, accountOperations, createdAccounts, append,
          CollectedRow.asAccountOperation]

theorem ledger_foldl (cfg : CollectorConfig α β) (blockNum : ℕ) (op : OperationNote α β)
    (es : List (LedgerEntry α)) : ∀ s : BlockCollector α β,
    (es.foldl (fun s e ↦ onNewOperation cfg blockNum op e.account e.owner e.operationId e.typeId
      e.isCurrent s) s).memory = s.memory ∧
    (es.foldl (fun s e ↦ onNewOperation cfg blockNum op e.account e.owner e.operationId e.typeId
      e.isCurrent s) s).ledger = es.foldl (Ledger.note op.accountId (allowed cfg op s.memory))
        s.ledger := by
  induction es with
  | nil => exact fun s ↦ ⟨rfl, rfl⟩
  | cons e es ih =>
    intro s
    rw [List.foldl_cons, List.foldl_cons]
    have htail := ih (onNewOperation cfg blockNum op e.account e.owner e.operationId e.typeId
      e.isCurrent s)
    rw [memory_onNewOperation, ledger_onNewOperation] at htail
    exact htail

theorem ledger_onNewAccount (blockNum : ℕ) (op : OperationNote α β) (account : α)
    (s : BlockCollector α β) :
    (onNewAccount blockNum op account s).ledger = s.ledger.openAccount account := by
  simp [onNewAccount, ledger, Ledger.openAccount, accountOperations, createdAccounts, append,
    CollectedRow.asAccount]

theorem onCreationOperation_eq (cfg : CollectorConfig α β) (blockNum : ℕ) (op : OperationNote α β)
    (newAccount creator : α) (s : BlockCollector α β) :
    (onCreationOperation cfg blockNum op newAccount creator s).memory =
      { s.memory with creationOperation := none } ∧
    (onCreationOperation cfg blockNum op newAccount creator s).ledger =
      (s.memory.creationOperation.toList.map fun c ↦
        (⟨newAccount, creator, c.1, c.2, false⟩ : LedgerEntry α)).foldl
          (Ledger.note op.accountId (allowed cfg op s.memory)) s.ledger := by
  rw [onCreationOperation]
  cases hcreation : s.memory.creationOperation with
  | none =>
    have hmemory : s.memory = { s.memory with creationOperation := none } := by
      rw [← hcreation]
    exact ⟨hmemory, rfl⟩
  | some c =>
    dsimp only
    constructor
    · rw [forgetCreation, memory_onNewOperation]
    · exact ledger_onNewOperation ..

theorem visit_eq (cfg : CollectorConfig α β) (blockNum : ℕ) (op : OperationNote α β)
    (operationId : OperationId) (s : BlockCollector α β) :
    (visit cfg blockNum op operationId s).memory = { s.memory with
      creationOperation := nextCreation op operationId s.memory.creationOperation } ∧
    (visit cfg blockNum op operationId s).ledger =
      (entries op operationId s.memory.creationOperation).foldl
        (Ledger.note op.accountId (allowed cfg op s.memory)) (openedLedger op s.ledger) := by
  unfold visit entries openedLedger nextCreation
  cases op.kind with
  | accountCreate creator =>
    dsimp only [processAccountCreationOp]
    exact ⟨memory_onNewOperation .., ledger_onNewOperation ..⟩
  | pow worker =>
    cases worker with
    | none => exact ⟨rfl, rfl⟩
    | some w =>
      dsimp only [processAccountCreationOp, Option.isSome, if_true]
      constructor
      · rw [if_pos rfl, forgetCreation, memory_onNewOperation]
        rfl
      · rw [if_pos rfl]
        exact ledger_onNewOperation ..
  | accountCreated newAccount creator =>
    dsimp only
    have hopen := ledger_onNewAccount blockNum op newAccount s
    have hcreation := onCreationOperation_eq cfg blockNum op newAccount creator
      (onNewAccount blockNum op newAccount s)
    rw [hopen] at hcreation
    set s' := onCreationOperation cfg blockNum op newAccount creator
      (onNewAccount blockNum op newAccount s)
    have hallowed : allowed cfg op s'.memory = allowed cfg op s.memory := by
      rw [hcreation.1]
      rfl
    have hcalls := ledger_foldl cfg blockNum op (⟨newAccount, creator, operationId, op.typeId,
      true⟩ :: if creator ≠ newAccount then [⟨creator, creator, operationId, op.typeId, true⟩]
        else []) s'
    rw [hallowed, hcreation.2] at hcalls
    rw [List.foldl_append]
    by_cases hne : creator ≠ newAccount
    · rw [if_pos hne] at hcalls ⊢
      rw [if_pos hne]
      exact ⟨hcalls.1.trans hcreation.1, hcalls.2⟩
    · rw [if_neg hne] at hcalls ⊢
      rw [if_neg hne]
      exact ⟨hcalls.1.trans hcreation.1, hcalls.2⟩
  | other =>
    dsimp only
    rw [List.foldl_map]
    have h := ledger_foldl cfg blockNum op ((withOwners op.impacted op.ownerImpacted none).map
      fun p ↦ ⟨p.1, p.2, operationId, op.typeId, true⟩) s
    rw [List.foldl_map, List.foldl_map] at h
    exact h

end BlockCollector

namespace Ledger

def pairs (l : Ledger α) : List (ℕ × OperationId) :=
  l.rows.map fun r ↦ (r.accountId, r.operationId)

/-- The rows of an account carry the numbers from 0 on, no pair of account and operation comes
twice, and accounts with rows, or recorded as created, have a sequence object. -/
structure Numbered (dump : Bool) (ids : α → ℕ) (past : List OperationId) (l : Ledger α) :
    Prop where
  seqNos : ∀ a, (l.rows.filter fun r ↦ r.accountId = ids a).map AccountOperationRow.seqNo =
    List.range (if dump then (l.count a).getD 0 else 0)
  counted : ∀ r ∈ l.rows, ∃ a, r.accountId = ids a ∧ (l.count a).isSome
  pairs_nodup : l.pairs.Nodup
  known : ∀ r ∈ l.rows, r.operationId ∈ past
  created_nodup : l.created.Nodup
  created_counted : ∀ a ∈ l.created, (l.count a).isSome

variable {dump : Bool} {ids : α → ℕ} {past : List OperationId} {l : Ledger α}
  {accountId : α → Option ℕ} {allow : LedgerEntry α → Bool}

omit [DecidableEq α] in
theorem Numbered.mono (h : l.Numbered dump ids past) (id : OperationId) :
    l.Numbered dump ids (past ++ [id]) :=
  { h with known := fun r hr ↦ List.mem_append_left _ (h.known r hr) }

theorem Numbered.openAccount (h : l.Numbered dump ids past) {account : α}
    (hnew : l.count account = none) : (l.openAccount account).Numbered dump ids past := by
  have hisSome : ∀ a, (l.count a).isSome → ((l.openAccount account).count a).isSome := by
    intro a ha
    rw [Ledger.openAccount]
    dsimp only
    split
    · rfl
    · exact ha
  refine ⟨fun a ↦ ?_, fun r hr ↦ ?_, h.pairs_nodup, h.known, ?_, fun a ha ↦ ?_⟩
  · refine (h.seqNos a).trans ?_
    rw [Ledger.openAccount]
    dsimp only
    by_cases ha : a = account
    · rw [if_pos ha, ha, hnew]
      rfl
    · rw [if_neg ha]
  · obtain ⟨a, hid, ha⟩ := h.counted r hr
    exact ⟨a, hid, hisSome a ha⟩
  · refine List.nodup_append.mpr ⟨h.created_nodup, List.nodup_singleton _, ?_⟩
    rintro a ha b hb rfl
    have hcounted := h.created_counted a ha
    rw [List.mem_singleton.mp hb, hnew] at hcounted
    cases hcounted
  · rcases List.mem_append.mp ha with hold | hnewa
    · exact hisSome a (h.created_counted a hold)
    · rw [List.mem_singleton.mp hnewa, Ledger.openAccount]
      simp

variable {e : LedgerEntry α} {keep : ℕ → OperationId → Bool}

theorem mem_pairs_note {p : ℕ × OperationId} (hid : ∀ a i, accountId a = some i → i = ids a)
    (hp : p ∈ (l.note accountId allow e).pairs) :
    p ∈ l.pairs ∨ p = (ids e.account, e.operationId) := by
  unfold note at hp
  split at hp
  next id seqNo haccount hcount =>
    unfold pairs at hp
    dsimp only at hp
    split at hp
    · rw [List.map_append, List.mem_append] at hp
      rcases hp with hold | hnew
      · exact Or.inl hold
      · right
        rw [List.mem_singleton.mp hnew, hid _ _ haccount]
    · exact Or.inl hp
  · exact Or.inl hp

theorem Numbered.note (hinj : Function.Injective ids) (h : l.Numbered dump ids past)
    (hid : ∀ a i, accountId a = some i → i = ids a)
    (hpast : e.operationId ∈ past) (hfresh : (ids e.account, e.operationId) ∉ l.pairs)
    (hallow : allow e = dump) : (l.note accountId allow e).Numbered dump ids past := by
  unfold Ledger.note
  split
  next id seqNo haccount hcount =>
    have hids := hid _ _ haccount
    subst hids
    have hisSome : ∀ a, (l.count a).isSome →
        (if a = e.account then some (seqNo + 1) else l.count a).isSome := by
      intro a ha
      split
      · rfl
      · exact ha
    rw [hallow]
    cases dump with
    | false =>
      refine ⟨h.seqNos, fun r hr ↦ ?_, h.pairs_nodup, h.known, h.created_nodup, fun a ha ↦ ?_⟩
      · obtain ⟨a, hr, ha⟩ := h.counted r hr
        exact ⟨a, hr, hisSome a ha⟩
      · exact hisSome a (h.created_counted a ha)
    | true =>
      refine ⟨fun a ↦ ?_, fun r hr ↦ ?_, ?_, fun r hr ↦ ?_, h.created_nodup, fun a ha ↦ ?_⟩
      · have hold := h.seqNos a
        simp only [if_true] at hold ⊢
        rw [List.filter_append, List.map_append, hold]
        by_cases ha : a = e.account
        · rw [if_pos ha, ha, hcount]
          simp [List.range_succ]
        · have hne : ¬ ids e.account = ids a := fun heq ↦ ha (hinj heq).symm
          rw [if_neg ha]
          simp [hne]
      · rw [if_pos rfl] at hr
        rcases List.mem_append.mp hr with hold | hnew
        · obtain ⟨a, hr, ha⟩ := h.counted r hold
          exact ⟨a, hr, hisSome a ha⟩
        · rw [List.mem_singleton.mp hnew]
          exact ⟨e.account, rfl, by simp⟩
      · rw [if_pos rfl, pairs, List.map_append]
        refine List.nodup_append.mpr ⟨h.pairs_nodup, List.nodup_singleton _, ?_⟩
        rintro p hp q hq rfl
        rw [List.map_singleton, List.mem_singleton] at hq
        exact hfresh (hq ▸ hp)
      · rw [if_pos rfl] at hr
        rcases List.mem_append.mp hr with hold | hnew
        · exact h.known r hold
        · rw [List.mem_singleton.mp hnew]
          exact hpast
      · exact hisSome a (h.created_counted a ha)
  · exact h

theorem Numbered.foldl (hinj : Function.Injective ids)
    (hid : ∀ a i, accountId a = some i → i = ids a) {es : List (LedgerEntry α)} :
    ∀ {l : Ledger α}, l.Numbered dump ids past →
      (es.map fun e ↦ (e.account, e.operationId)).Nodup →
      (∀ e ∈ es, e.operationId ∈ past) → (∀ e ∈ es, (ids e.account, e.operationId) ∉ l.pairs) →
      (∀ e ∈ es, allow e = dump) →
      (es.foldl (Ledger.note accountId allow) l).Numbered dump ids past := by
  induction es with
  | nil => exact fun h _ _ _ _ ↦ h
  | cons e es ih =>
    intro l h hnodup hpast hfresh hallow
    rw [List.map_cons, List.nodup_cons] at hnodup
    refine ih (h.note hinj hid (hpast e (List.mem_cons_self ..)) (hfresh e (List.mem_cons_self ..))
      (hallow e (List.mem_cons_self ..))) hnodup.2 (fun f hf ↦ hpast f (List.mem_cons_of_mem _ hf))
      (fun f hf hmem ↦ ?_) (fun f hf ↦ hallow f (List.mem_cons_of_mem _ hf))
    rcases mem_pairs_note hid hmem with hold | hsame
    · exact hfresh f (List.mem_cons_of_mem _ hf) hold
    · obtain ⟨haccount, hoperation⟩ := Prod.mk.inj hsame
      refine hnodup.1 (List.mem_map.mpr ⟨f, hf, ?_⟩)
      rw [hinj haccount, hoperation]

structure FilteredBy (keep : ℕ → OperationId → Bool) (l l' : Ledger α) : Prop where
  rows : l'.rows = l.rows.filter fun r ↦ keep r.accountId r.operationId
  created : l'.created = l.created
  count : l'.count = l.count

theorem FilteredBy.openAccount {l' : Ledger α} (h : FilteredBy keep l l') (account : α) :
    FilteredBy keep (l.openAccount account) (l'.openAccount account) := by
  refine ⟨h.rows, ?_, ?_⟩
  · exact congrArg (· ++ [account]) h.created
  · rw [Ledger.openAccount, Ledger.openAccount, h.count]

theorem FilteredBy.note {l' : Ledger α} (h : FilteredBy keep l l') {allow' : LedgerEntry α → Bool}
    (hallow : ∀ i, accountId e.account = some i →
      allow' e = (allow e && keep i e.operationId)) :
    FilteredBy keep (l.note accountId allow e) (l'.note accountId allow' e) := by
  unfold Ledger.note
  rw [h.count]
  cases haccount : accountId e.account with
  | none => exact h
  | some i =>
    cases hcount : l.count e.account with
    | none => exact h
    | some seqNo =>
      refine ⟨?_, h.created, rfl⟩
      dsimp only
      rw [hallow i haccount, h.rows]
      cases allow e with
      | false => rfl
      | true => cases hkeep : keep i e.operationId <;> simp [List.filter_append, hkeep]

theorem FilteredBy.foldl {allow' : LedgerEntry α → Bool}
    {es : List (LedgerEntry α)} : ∀ {l l' : Ledger α}, FilteredBy keep l l' →
      (∀ e ∈ es, ∀ i, accountId e.account = some i →
        allow' e = (allow e && keep i e.operationId)) →
      FilteredBy keep (es.foldl (Ledger.note accountId allow) l)
        (es.foldl (Ledger.note accountId allow') l') := by
  induction es with
  | nil => exact fun h _ ↦ h
  | cons e es ih =>
    intro l l' h hallow
    exact ih (h.note (hallow e (List.mem_cons_self ..)))
      fun f hf ↦ hallow f (List.mem_cons_of_mem _ hf)

end Ledger

namespace BlockCollector

variable {ids : α → ℕ} {op : OperationNote α β} {operationId : OperationId}
  {creation : Option (OperationId × ℕ)}

omit [DecidableEq α] in
theorem map_fst_withOwners (accounts : List α) : ∀ (owners : List α) (last : Option α),
    (withOwners accounts owners last).map Prod.fst = accounts := by
  induction accounts with
  | nil => exact fun _ _ ↦ rfl
  | cons a accounts ih =>
    intro owners last
    cases owners with
    | nil => exact congrArg (a :: ·) (ih [] last)
    | cons o owners => exact congrArg (a :: ·) (ih owners (some o))

variable {e : LedgerEntry α}

theorem mem_entries (hnamed : ∀ a ∈ op.kind.named, a ∈ op.impacted)
    (he : e ∈ entries op operationId creation) : e.account ∈ op.impacted ∧
      (e.isCurrent = true ∧ e.operationId = operationId ∨
        ∃ newAccount creator typeId, op.kind = .accountCreated newAccount creator ∧
          e.account = newAccount ∧ e.isCurrent = false ∧
          creation = some (e.operationId, typeId)) := by
  unfold entries at he
  cases hkind : op.kind with
  | accountCreate creator =>
    rw [hkind] at he hnamed
    rw [List.mem_singleton.mp he]
    exact ⟨hnamed creator (List.mem_singleton_self _), Or.inl ⟨rfl, rfl⟩⟩
  | pow worker =>
    rw [hkind] at he hnamed
    obtain ⟨w, hw, rfl⟩ := List.mem_map.mp he
    exact ⟨hnamed w hw, Or.inl ⟨rfl, rfl⟩⟩
  | accountCreated newAccount creator =>
    rw [hkind] at he hnamed
    have hnew := hnamed newAccount (List.mem_cons_self ..)
    have hcreator := hnamed creator (List.mem_cons_of_mem _ (List.mem_singleton_self _))
    rcases List.mem_append.mp he with hcreation | hcurrent
    · obtain ⟨c, hc, rfl⟩ := List.mem_map.mp hcreation
      exact ⟨hnew, Or.inr ⟨newAccount, creator, c.2, rfl, rfl, rfl, Option.mem_toList.mp hc⟩⟩
    · rcases List.mem_cons.mp hcurrent with rfl | hlast
      · exact ⟨hnew, Or.inl ⟨rfl, rfl⟩⟩
      · split at hlast
        · rw [List.mem_singleton.mp hlast]
          exact ⟨hcreator, Or.inl ⟨rfl, rfl⟩⟩
        · exact absurd hlast List.not_mem_nil
  | other =>
    rw [hkind] at he
    obtain ⟨p, hp, rfl⟩ := List.mem_map.mp he
    refine ⟨?_, Or.inl ⟨rfl, rfl⟩⟩
    have hmem := List.mem_map_of_mem (f := Prod.fst) hp
    rwa [map_fst_withOwners] at hmem

theorem nodup_entries (himpacted : op.impacted.Nodup)
    (hcreation : ∀ c, creation = some c → c.1 ≠ operationId) :
    ((entries op operationId creation).map fun e ↦ (e.account, e.operationId)).Nodup := by
  unfold entries
  cases op.kind with
  | accountCreate creator => exact List.nodup_singleton _
  | pow worker => cases worker <;> simp
  | accountCreated newAccount creator =>
    have hcurrent : (((⟨newAccount, creator, operationId, op.typeId, true⟩ : LedgerEntry α) ::
        if creator ≠ newAccount then [⟨creator, creator, operationId, op.typeId, true⟩]
          else []).map fun e ↦ (e.account, e.operationId)).Nodup := by
      by_cases hne : creator ≠ newAccount
      · rw [if_pos hne]
        simpa using Ne.symm hne
      · rw [if_neg hne]
        exact List.nodup_singleton _
    dsimp only
    cases creation with
    | none => exact hcurrent
    | some c =>
      refine List.nodup_cons.mpr ⟨fun hmem ↦ ?_, hcurrent⟩
      have hid := hcreation c rfl
      obtain ⟨e, he, hpair⟩ := List.mem_map.mp hmem
      have hoperation : e.operationId = c.1 := (Prod.mk.inj hpair).2
      rcases List.mem_cons.mp he with rfl | hlast
      · exact hid hoperation.symm
      · split at hlast
        · rw [List.mem_singleton.mp hlast] at hoperation
          exact hid hoperation.symm
        · exact absurd hlast List.not_mem_nil
  | other =>
    have hpairs : ((withOwners op.impacted op.ownerImpacted none).map fun p ↦
        ((⟨p.1, p.2, operationId, op.typeId, true⟩ : LedgerEntry α))).map
          (fun e ↦ (e.account, e.operationId)) =
        op.impacted.map fun a ↦ (a, operationId) := by
      conv_rhs => rw [← map_fst_withOwners op.impacted op.ownerImpacted none]
      rw [List.map_map, List.map_map]
      rfl
    dsimp only
    rw [hpairs]
    exact himpacted.map fun a b hab ↦ (Prod.mk.inj hab).1

/-- The unfiltered and the filtered collector after the notes of `past`. -/
structure InStep (cfg : CollectorConfig α β) (ids : α → ℕ) (keep : ℕ → OperationId → Bool)
    (past : List (Notification α β)) (s s' : BlockCollector α β) : Prop where
  numbered : s.ledger.Numbered cfg.dumpAccountOperations ids (past.map Notification.operationId)
  filtered : Ledger.FilteredBy keep s.ledger s'.ledger
  creation_eq : s'.memory.creationOperation = s.memory.creationOperation
  creation_past : ∀ c, s.memory.creationOperation = some c →
    c.1 ∈ past.map Notification.operationId
  creation_last : ∀ m, past.getLast? = some m → m.op.kind.creates →
    s.memory.creationOperation = some (m.operationId, m.op.typeId)
  accepted : ∀ m, past.getLast? = some m →
    s'.memory.operationAcceptedCurrent = cfg.isTrackedOperation m.op

variable {cfg : CollectorConfig α β} {keep : ℕ → OperationId → Bool}
  {past : List (Notification α β)} {s s' : BlockCollector α β} {n : Notification α β}

theorem allowed_unfiltered (m : CollectorMemory) (e : LedgerEntry α) :
    allowed cfg.unfiltered op m e = cfg.dumpAccountOperations := by
  simp [allowed, isAccountTracked, isOperationTracked, CollectorConfig.unfiltered]

theorem allowed_filtered {m : CollectorMemory}
    (himpacted : e.account ∈ op.impacted) : allowed cfg.filtered op m e =
      (cfg.dumpAccountOperations && (cfg.isTrackedAccount e.account &&
        if e.isCurrent then m.operationAcceptedCurrent else m.operationAcceptedPrevious)) := by
  simp [allowed, isAccountTracked, isOperationTracked, CollectorConfig.filtered, himpacted]

structure NextNote (cfg : CollectorConfig α β) (ids : α → ℕ) (keep : ℕ → OperationId → Bool)
    (past : List (Notification α β)) (n : Notification α β) : Prop where
  accountIds : ∀ a i, n.op.accountId a = some i → i = ids a
  impacted_nodup : n.op.impacted.Nodup
  named_impacted : ∀ a ∈ n.op.kind.named, a ∈ n.op.impacted
  fresh : n.operationId ∉ past.map Notification.operationId
  keep_eq : ∀ m ∈ past ++ [n], ∀ a,
    keep (ids a) m.operationId = (cfg.isTrackedAccount a && cfg.isTrackedOperation m.op)
  inTurn : n.op.kind.isAccountCreated → past.getLast?.any fun m ↦ m.op.kind.creates

theorem openedLedger_pairs (op : OperationNote α β) (l : Ledger α) :
    (openedLedger op l).pairs = l.pairs := by
  unfold openedLedger
  cases op.kind <;> rfl

theorem numbered_openedLedger {dump : Bool} {known : List OperationId}
    {l : Ledger α} (h : l.Numbered dump ids known)
    (hnew : ∀ newAccount creator, op.kind = .accountCreated newAccount creator →
      l.count newAccount = none) : (openedLedger op l).Numbered dump ids known := by
  unfold openedLedger
  cases hkind : op.kind with
  | accountCreated newAccount creator => exact h.openAccount (hnew newAccount creator hkind)
  | accountCreate _ => exact h
  | pow _ => exact h
  | other => exact h

theorem filteredBy_openedLedger {l l' : Ledger α} (h : Ledger.FilteredBy keep l l')
    (op : OperationNote α β) : Ledger.FilteredBy keep (openedLedger op l) (openedLedger op l') := by
  unfold openedLedger
  cases op.kind with
  | accountCreated newAccount creator => exact h.openAccount newAccount
  | accountCreate _ => exact h
  | pow _ => exact h
  | other => exact h

omit [DecidableEq α] in
theorem nextCreation_eq {c : OperationId × ℕ}
    (hc : nextCreation op operationId creation = some c) :
    c.1 = operationId ∨ creation = some c := by
  unfold nextCreation at hc
  cases hkind : op.kind with
  | accountCreate creator =>
    rw [hkind] at hc
    exact Or.inl (congrArg Prod.fst (Option.some.inj hc)).symm
  | pow worker =>
    rw [hkind] at hc
    cases worker with
    | none => exact Or.inl (congrArg Prod.fst (Option.some.inj hc)).symm
    | some w => cases hc
  | accountCreated newAccount creator =>
    rw [hkind] at hc
    cases hc
  | other =>
    rw [hkind] at hc
    exact Or.inr hc

omit [DecidableEq α] in
theorem nextCreation_of_creates (hcreates : op.kind.creates) :
    nextCreation op operationId creation = some (operationId, op.typeId) := by
  unfold nextCreation
  cases hkind : op.kind with
  | accountCreate creator => rfl
  | pow worker =>
    rw [hkind] at hcreates
    cases worker with
    | none => rfl
    | some w => cases hcreates
  | accountCreated newAccount creator =>
    rw [hkind] at hcreates
    cases hcreates
  | other =>
    rw [hkind] at hcreates
    cases hcreates

theorem InStep.numbered_visit (hinj : Function.Injective ids) (h : InStep cfg ids keep past s s')
    (hn : NextNote cfg ids keep past n)
    (hnew : ∀ newAccount creator, n.op.kind = .accountCreated newAccount creator →
      s.operationCount newAccount = none) (m : CollectorMemory) :
    ((entries n.op n.operationId s.memory.creationOperation).foldl
      (Ledger.note n.op.accountId (allowed cfg.unfiltered n.op m))
        (openedLedger n.op s.ledger)).Numbered cfg.dumpAccountOperations ids
          (past.map Notification.operationId ++ [n.operationId]) := by
  have hcreation : ∀ c, s.memory.creationOperation = some c → c.1 ≠ n.operationId :=
    fun c hc heq ↦ hn.fresh (heq ▸ h.creation_past c hc)
  refine Ledger.Numbered.foldl hinj hn.accountIds
    (numbered_openedLedger (h.numbered.mono _) hnew) (nodup_entries hn.impacted_nodup hcreation)
    (fun e he ↦ ?_) (fun e he hmem ↦ ?_) (fun e _ ↦ allowed_unfiltered m e)
  · rcases (mem_entries hn.named_impacted he).2 with ⟨_, hid⟩ | ⟨_, _, typeId, _, _, _, hc⟩
    · rw [hid]
      exact List.mem_append_right _ (List.mem_singleton_self _)
    · exact List.mem_append_left _ (h.creation_past _ hc)
  · rw [openedLedger_pairs] at hmem
    obtain ⟨r, hr, hpair⟩ := List.mem_map.mp hmem
    obtain ⟨haccount, hoperation⟩ := Prod.mk.inj hpair
    rcases (mem_entries hn.named_impacted he).2 with
      ⟨_, hid⟩ | ⟨newAccount, creator, _, hkind, hnewAccount, _, _⟩
    · exact hn.fresh (hid ▸ hoperation ▸ h.numbered.known r hr)
    · -- an account that is being created has no rows yet
      obtain ⟨a, hid, hcounted⟩ := h.numbered.counted r hr
      have ha : a = newAccount := by
        rw [← hnewAccount]
        exact hinj (hid.symm.trans haccount)
      have hnone : s.ledger.count newAccount = none := hnew newAccount creator hkind
      rw [ha, hnone] at hcounted
      cases hcounted

theorem InStep.allowed_eq (h : InStep cfg ids keep past s s') (hn : NextNote cfg ids keep past n)
    (m : CollectorMemory)
    (he : e ∈ entries n.op n.operationId s.memory.creationOperation) :
    allowed cfg.filtered n.op (collectTrackedOperation cfg.filtered n.op s'.memory) e =
      (allowed cfg.unfiltered n.op m e && keep (ids e.account) e.operationId) := by
  obtain ⟨himpacted, hwhich⟩ := mem_entries hn.named_impacted he
  rw [allowed_unfiltered, allowed_filtered himpacted]
  rcases hwhich with ⟨hcurrent, hid⟩ | ⟨newAccount, creator, typeId, hkind, _, hcurrent, hc⟩
  · rw [hcurrent, hid, hn.keep_eq n (List.mem_append_right _ (List.mem_singleton_self _))]
    rfl
  · have hturn := hn.inTurn (by rw [hkind]; rfl)
    cases hlast : past.getLast? with
    | none =>
      rw [hlast] at hturn
      cases hturn
    | some m =>
      rw [hlast] at hturn
      have hid : e.operationId = m.operationId := by
        have := hc.symm.trans (h.creation_last m hlast hturn)
        exact congrArg Prod.fst (Option.some.inj this)
      have hm : m ∈ past ++ [n] := List.mem_append_left _ (List.mem_of_getLast? hlast)
      rw [hcurrent, hid, hn.keep_eq m hm, ← h.accepted m hlast]
      rfl

theorem InStep.visit (hinj : Function.Injective ids) (h : InStep cfg ids keep past s s')
    (hn : NextNote cfg ids keep past n)
    (hnew : ∀ newAccount creator, n.op.kind = .accountCreated newAccount creator →
      s.operationCount newAccount = none) :
    InStep cfg ids keep (past ++ [n])
      (BlockCollector.visit cfg.unfiltered n.blockNum n.op n.operationId
        { s with memory := collectTrackedOperation cfg.unfiltered n.op s.memory })
      (BlockCollector.visit cfg.filtered n.blockNum n.op n.operationId
        { s' with memory := collectTrackedOperation cfg.filtered n.op s'.memory }) := by
  obtain ⟨hmemory, hledger⟩ := visit_eq cfg.unfiltered n.blockNum n.op n.operationId
    { s with memory := collectTrackedOperation cfg.unfiltered n.op s.memory }
  obtain ⟨hmemory', hledger'⟩ := visit_eq cfg.filtered n.blockNum n.op n.operationId
    { s' with memory := collectTrackedOperation cfg.filtered n.op s'.memory }
  have hsame : (collectTrackedOperation cfg.filtered n.op s'.memory).creationOperation =
      s.memory.creationOperation := h.creation_eq
  dsimp only at hmemory hledger hmemory' hledger'
  rw [hsame] at hmemory' hledger'
  have hcreation : (BlockCollector.visit cfg.unfiltered n.blockNum n.op n.operationId
      { s with memory := collectTrackedOperation cfg.unfiltered n.op s.memory
      }).memory.creationOperation =
        nextCreation n.op n.operationId s.memory.creationOperation := by
    rw [hmemory]
    rfl
  refine ⟨?_, ?_, ?_, fun c hc ↦ ?_, fun m hm hcreates ↦ ?_, fun m hm ↦ ?_⟩
  · rw [hledger, List.map_append]
    exact h.numbered_visit hinj hn hnew _
  · rw [hledger, hledger']
    refine Ledger.FilteredBy.foldl (filteredBy_openedLedger h.filtered n.op) fun e he i hi ↦ ?_
    rw [hn.accountIds _ _ hi]
    exact h.allowed_eq hn _ he
  · rw [hcreation, hmemory']
  · rw [hcreation] at hc
    rw [List.map_append, List.mem_append]
    rcases nextCreation_eq hc with hid | hold
    · exact Or.inr (List.mem_singleton.mpr hid)
    · exact Or.inl (h.creation_past c hold)
  · rw [List.getLast?_append, List.getLast?_singleton] at hm
    obtain rfl := Option.some.inj hm
    rw [hcreation]
    exact nextCreation_of_creates hcreates
  · rw [List.getLast?_append, List.getLast?_singleton] at hm
    obtain rfl := Option.some.inj hm
    rw [hmemory']
    rfl

theorem InStep.collect (hinj : Function.Injective ids) (h : InStep cfg ids keep past s s')
    (hn : NextNote cfg ids keep past n) :
    (∃ message, collect cfg.unfiltered n s = .error message ∧
      collect cfg.filtered n s' = .error message) ∨
    ∃ t t', collect cfg.unfiltered n s = .ok t ∧ collect cfg.filtered n s' = .ok t' ∧
      InStep cfg ids keep (past ++ [n]) t t' := by
  have hcount : s'.operationCount = s.operationCount := h.filtered.count
  have hvisit := h.visit hinj hn
  rw [hcount] at hvisit
  unfold BlockCollector.collect
  by_cases htype : n.op.typeId < 32767
  swap
  · rw [if_pos htype, if_pos htype]
    exact Or.inl ⟨_, rfl, rfl⟩
  rw [if_neg (not_not.mpr htype), if_neg (not_not.mpr htype)]
  dsimp only
  rw [hcount]
  cases hkind : n.op.kind with
  | accountCreated newAccount creator =>
    dsimp only
    by_cases hid : (n.op.accountId newAccount).isNone
    · rw [if_pos hid, if_pos hid]
      exact Or.inl ⟨_, rfl, rfl⟩
    rw [if_neg hid, if_neg hid]
    by_cases hopen : (s.operationCount newAccount).isSome
    · rw [if_pos hopen, if_pos hopen]
      exact Or.inl ⟨_, rfl, rfl⟩
    rw [if_neg hopen, if_neg hopen]
    refine Or.inr ⟨_, _, rfl, rfl, hvisit ?_⟩
    intro account creator' hkind'
    rw [hkind] at hkind'
    cases hkind'
    exact Option.not_isSome_iff_eq_none.mp hopen
  | accountCreate creator =>
    refine Or.inr ⟨_, _, rfl, rfl, hvisit fun account creator' hkind' ↦ ?_⟩
    rw [hkind] at hkind'
    cases hkind'
  | pow worker =>
    refine Or.inr ⟨_, _, rfl, rfl, hvisit fun account creator' hkind' ↦ ?_⟩
    rw [hkind] at hkind'
    cases hkind'
  | other =>
    refine Or.inr ⟨_, _, rfl, rfl, hvisit fun account creator' hkind' ↦ ?_⟩
    rw [hkind] at hkind'
    cases hkind'

omit [DecidableEq α] in
theorem find?_operationId {notes : List (Notification α β)}
    (hids : (notes.map Notification.operationId).Nodup) (hn : n ∈ notes) :
    notes.find? (fun m ↦ m.operationId = n.operationId) = some n := by
  induction notes with
  | nil => cases hn
  | cons m notes ih =>
    rw [List.map_cons, List.nodup_cons] at hids
    rcases List.mem_cons.mp hn with rfl | htail
    · simp
    · have hne : ¬ m.operationId = n.operationId := by
        intro heq
        exact hids.1 (heq ▸ List.mem_map_of_mem htail)
      rw [List.find?_cons_of_neg (by simpa using hne), ih hids.2 htail]

theorem collectAll_inStep {nameOf : ℕ → α} (hname : Function.LeftInverse nameOf ids)
    {notes : List (Notification α β)} (hnotes : Notified ids notes) :
    ∀ {rest past : List (Notification α β)} {s s' : BlockCollector α β},
      notes = past ++ rest →
      CreatedInTurn (past.getLast?.any fun m ↦ m.op.kind.creates) rest →
      InStep cfg ids (tracks cfg nameOf notes) past s s' →
      (∃ message, collectAll cfg.unfiltered rest s = .error message ∧
        collectAll cfg.filtered rest s' = .error message) ∨
      ∃ t t', collectAll cfg.unfiltered rest s = .ok t ∧
        collectAll cfg.filtered rest s' = .ok t' ∧
        InStep cfg ids (tracks cfg nameOf notes) notes t t' := by
  intro rest
  induction rest with
  | nil =>
    intro past s s' hsplit _ h
    rw [List.append_nil] at hsplit
    rw [hsplit] at h ⊢
    exact Or.inr ⟨s, s', rfl, rfl, h⟩
  | cons n rest ih =>
    intro past s s' hsplit hturn h
    have hmem : n ∈ notes := by
      rw [hsplit]
      exact List.mem_append_right _ (List.mem_cons_self ..)
    have hsplit' : notes = (past ++ [n]) ++ rest := by
      rw [hsplit, List.append_assoc]
      rfl
    have hfresh : n.operationId ∉ past.map Notification.operationId := by
      intro hpast
      have hids := hnotes.operationIds
      rw [hsplit, List.map_append, List.map_cons, List.nodup_append] at hids
      exact hids.2.2 _ hpast _ (List.mem_cons_self ..) rfl
    have hkeep : ∀ m ∈ past ++ [n], ∀ a, tracks cfg nameOf notes (ids a) m.operationId =
        (cfg.isTrackedAccount a && cfg.isTrackedOperation m.op) := by
      intro m hm a
      have hm' : m ∈ notes := by
        rw [hsplit']
        exact List.mem_append_left _ hm
      rw [tracks, hname a, find?_operationId hnotes.operationIds hm']
      rfl
    have hnext : NextNote cfg ids (tracks cfg nameOf notes) past n :=
      ⟨hnotes.accountIds n hmem, hnotes.impacted_nodup n hmem, hnotes.named_impacted n hmem,
        hfresh, hkeep, hturn.1⟩
    rcases h.collect hname.injective hnext with ⟨message, herror, herror'⟩ | ⟨t, t', hok, hok', ht⟩
    · left
      refine ⟨message, ?_, ?_⟩
      · rw [collectAll, herror]
        rfl
      · rw [collectAll, herror']
        rfl
    · have hturn' : CreatedInTurn ((past ++ [n]).getLast?.any fun m ↦ m.op.kind.creates) rest := by
        rw [List.getLast?_append, List.getLast?_singleton]
        exact hturn.2
      rw [collectAll, collectAll, hok, hok']
      exact ih hsplit' hturn' ht

omit [DecidableEq α] in
theorem inStep_start (cfg : CollectorConfig α β) (ids : α → ℕ) (keep : ℕ → OperationId → Bool) :
    InStep cfg ids keep [] (start : BlockCollector α β) start := by
  refine ⟨⟨fun a ↦ ?_, fun r hr ↦ ?_, List.nodup_nil, fun r hr ↦ ?_, List.nodup_nil,
    fun a ha ↦ ?_⟩, ⟨rfl, rfl, rfl⟩, rfl, fun c hc ↦ ?_, fun m hm ↦ ?_, fun m hm ↦ ?_⟩
  · cases cfg.dumpAccountOperations <;> rfl
  · exact absurd hr List.not_mem_nil
  · exact absurd hr List.not_mem_nil
  · exact absurd ha List.not_mem_nil
  · cases hc
  · cases hm
  · cases hm

/-- Both collectors fail at the same operation, or neither does. Then without a filter every account
has the numbers from 0 on, no account gets an operation twice and no account is created twice; and
with the filter the rows are those that it tracks, with the same numbers. -/
theorem account_operations_numbered (cfg : CollectorConfig α β) (ids : α → ℕ) (nameOf : ℕ → α)
    (hname : Function.LeftInverse nameOf ids) (notes : List (Notification α β))
    (hnotes : Notified ids notes) :
    (∃ message, collectAll cfg.unfiltered notes start = .error message ∧
      collectAll cfg.filtered notes start = .error message) ∨
    ∃ s s', collectAll cfg.unfiltered notes start = .ok s ∧
      collectAll cfg.filtered notes start = .ok s' ∧
      (∀ id, ∃ k, (s.accountOperations.filter fun r ↦ r.accountId = id).map
        AccountOperationRow.seqNo = List.range k) ∧
      (s.accountOperations.map fun r ↦ (r.accountId, r.operationId)).Nodup ∧
      s.createdAccounts.Nodup ∧
      s'.accountOperations =
        s.accountOperations.filter fun r ↦ tracks cfg nameOf notes r.accountId r.operationId := by
  have hsplit : notes = [] ++ notes := rfl
  rcases collectAll_inStep hname hnotes hsplit hnotes.inTurn
      (inStep_start cfg ids (tracks cfg nameOf notes)) with herror | ⟨s, s', hok, hok', h⟩
  · exact Or.inl herror
  refine Or.inr ⟨s, s', hok, hok', fun id ↦ ?_, h.numbered.pairs_nodup,
    h.numbered.created_nodup, h.filtered.rows⟩
  by_cases hid : ∃ a, ids a = id
  · obtain ⟨a, rfl⟩ := hid
    exact ⟨_, h.numbered.seqNos a⟩
  · refine ⟨0, ?_⟩
    have hnone : (s.accountOperations.filter fun r ↦ r.accountId = id) = [] := by
      rw [List.filter_eq_nil_iff]
      intro r hr heq
      obtain ⟨a, ha, _⟩ := h.numbered.counted r hr
      exact hid ⟨a, ha.symm.trans (of_decide_eq_true heq)⟩
    rw [hnone]
    rfl

def twoAccounts : List (Notification ℕ ℕ) :=
  let note (number typeId : ℕ) (kind : OperationKind ℕ) (impacted : List ℕ) :
      Notification ℕ ℕ :=
    ⟨1, ⟨1, number⟩, ⟨0, typeId, 0, 0, kind, impacted, [], some⟩⟩
  [note 0 14 (.pow none) [1], note 1 80 (.accountCreated 1 1) [1],
    note 2 9 (.accountCreate 1) [1, 2], note 3 80 (.accountCreated 2 1) [1, 2],
    note 4 2 .other [1, 2]]

theorem notified_twoAccounts : Notified id twoAccounts := by
  refine ⟨by decide, ?_, ?_, ?_, ?_⟩
  · intro n hn a i hi
    simp only [twoAccounts, List.mem_cons, List.not_mem_nil, or_false] at hn
    rcases hn with rfl | rfl | rfl | rfl | rfl <;> exact (Option.some.inj hi).symm
  · decide
  · decide
  · simp [twoAccounts, CreatedInTurn, OperationKind.isAccountCreated, OperationKind.creates]

/-- Account 2 alone is tracked: its rows carry the numbers of the unfiltered run. -/
theorem tracked_account_keeps_numbers :
    ∃ s s', collectAll (CollectorConfig.unfiltered ⟨true, (· == 2), fun _ ↦ true, true⟩)
        twoAccounts start = .ok s ∧
      collectAll (CollectorConfig.filtered ⟨true, (· == 2), fun _ ↦ true, true⟩)
        twoAccounts start = .ok s' ∧
      s.createdAccounts = [1, 2] ∧
      s'.accountOperations.map (fun r ↦ (r.operationId.numberInBlock, r.accountId, r.seqNo)) =
        [(2, 2, 0), (3, 2, 1), (4, 2, 2)] := by
  rcases account_operations_numbered ⟨true, (· == 2), fun _ ↦ true, true⟩ id id
      (fun _ ↦ rfl) twoAccounts notified_twoAccounts with
    ⟨_, herror, _⟩ | ⟨s, s', hok, hok', _, _, _, hrows⟩
  · cases herror
  · refine ⟨s, s', hok, hok', ?_, ?_⟩
    · obtain rfl := Except.ok.inj hok
      rfl
    · rw [hrows]
      obtain rfl := Except.ok.inj hok
      decide +kernel

end BlockCollector

end HiveForkManager
