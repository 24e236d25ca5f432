import HiveForkManager.IterationRanges
import HiveForkManager.RowIds

namespace HiveForkManager.DetachSafety

open ExceptList

variable {ρ : Type} {h : Hafd} {db db' : Db ρ} {contexts : List ContextName} {c c' : Context ρ}

/-- All records of the shadow tables are of blocks up to `m`. -/
def Recorded (m : ℕ) (c : Context ρ) : Prop :=
  ∀ t ∈ c.tables, ∀ st ∈ t.shadow, st.hiveBlockNum ≤ m

/-- No record is of a block above the current one, and a detached context records nothing. -/
structure Covered (c : Context ρ) : Prop where
  records : Recorded c.currentBlockNum c
  detached : c.isAttached = false → ∀ t ∈ c.tables, t.shadow = [] ∧ t.hasTriggers = false

/-- The calls of hived and of the applications, and what can happen to the tables of a context
between them. -/
inductive ContextCall (ρ : Type) where
  | hived (call : HivedCall)
  | createContext (env : CallEnv) (name : ContextName) (isForking isAttached : Bool)
      (stages : Option (List ApplicationStage)) (tables : ℕ)
  | nextBlock (env : CallEnv) (contexts : List ContextName) (wait : Bool) (blockLimit : Option ℕ)
  | nextIteration (env : CallEnv) (contexts : List ContextName) (wait : Bool)
      (overrideMaxBatch limit : Option ℕ)
  | attach (env : CallEnv) (contexts : List ContextName)
  | detach (contexts : List ContextName)
  | setNonForking (env : CallEnv) (contexts : List ContextName)
  | setForking (env : CallEnv) (contexts : List ContextName)
  | autoDetach (env : CallEnv) (appTimeout : ℕ)
  | table (name : ContextName) (action : TableAction ρ)

namespace ContextCall

def run (db : Db ρ) : ContextCall ρ → Except Error (Db ρ)
  | hived call => call.run db
  | createContext env name isForking isAttached stages tables =>
    appCreateContext env name isForking isAttached stages tables db
  | nextBlock env contexts wait blockLimit =>
    Prod.fst <$> appNextBlock env contexts wait blockLimit db
  | nextIteration env contexts wait overrideMaxBatch limit =>
    Prod.fst <$> appNextIteration env contexts wait overrideMaxBatch limit db
  | attach env contexts => appContextAttach env contexts db
  | detach contexts => appContextDetach contexts db
  | setNonForking env contexts => appContextSetNonForking env contexts db
  | setForking env contexts => appContextSetForking env contexts db
  | autoDetach env appTimeout => .ok (performDeadAppContextsAutoDetach env appTimeout db)
  | table name action => db.withContext name (action.execute db.toHafd)

def step (db : Db ρ) (call : ContextCall ρ) : Db ρ :=
  match call.run db with
  | .error _ => db
  | .ok db' => db'

/-- An iteration that goes on in the range found before does not end below the block an attached
context of the group is at. An application moves an attached context only forward by itself. -/
def NoStepBack (db : Db ρ) : ContextCall ρ → Prop
  | nextIteration env contexts _ overrideMaxBatch limit => ∀ lead ∈ db.leadContext contexts,
      isStagesAnalyzeRequired lead.loop (getEstimatedHiveHeadBlock env db.toHafd) = false →
      ∀ range ∈ nextBatchRange env overrideMaxBatch limit lead.loop db.toHafd,
      ∀ c ∈ db.group contexts, c.isAttached = true → c.currentBlockNum ≤ range.2
  | table name (.advance n) =>
    ∀ c ∈ db.contexts, c.name = name → c.isAttached = true → c.currentBlockNum ≤ n
  | _ => True

instance (db : Db ρ) (call : ContextCall ρ) : Decidable (call.NoStepBack db) := by
  unfold NoStepBack
  split <;> infer_instance

end ContextCall

inductive Reached (P : Db ρ → ContextCall ρ → Prop) : Db ρ → Prop
  | initial {hiveState : HiveState} (hfull : hiveState.liteMode = false) :
      Reached P { Db.initial ρ with hiveState }
  | step {db : Db ρ} {call : ContextCall ρ} (hdb : Reached P db) (hcall : P db call) :
      Reached P (call.step db)

/-- Every call of a list is of the kind `P` where it is made. -/
def Runs (P : Db ρ → ContextCall ρ → Prop) (db : Db ρ) : List (ContextCall ρ) → Prop
  | [] => True
  | call :: calls => P db call ∧ Runs P (call.step db) calls

instance decidableRuns (P : Db ρ → ContextCall ρ → Prop) [∀ db call, Decidable (P db call)] :
    (db : Db ρ) → (calls : List (ContextCall ρ)) → Decidable (Runs P db calls)
  | _, [] => .isTrue trivial
  | db, call :: calls =>
    have := decidableRuns P (call.step db) calls
    inferInstanceAs (Decidable (_ ∧ _))

def runCalls (calls : List (ContextCall ρ)) (db : Db ρ) : Db ρ := calls.foldl ContextCall.step db

theorem Reached.runCalls {P : Db ρ → ContextCall ρ → Prop} (hdb : Reached P db)
    {calls : List (ContextCall ρ)} (hcalls : Runs P db calls) : Reached P (runCalls calls db) := by
  induction calls generalizing db with
  | nil => exact hdb
  | cons call calls ih => exact ih (hdb.step hcalls.1) hcalls.2

section Contexts

variable {n : ℕ} {t : RegisteredTable ρ}

theorem Recorded.mono {m : ℕ} (hc : Recorded m c) (hle : m ≤ n) : Recorded n c :=
  fun t ht st hst ↦ (hc t ht st hst).trans hle

structure Safe (c c' : Context ρ) : Prop where
  name : c'.name = c.name
  covered : Covered c → Covered c'
  recorded : Covered c → ∀ m, Recorded m c → Recorded m c'

theorem Safe.refl (c : Context ρ) : Safe c c := ⟨rfl, id, fun _ _ ↦ id⟩

theorem Safe.trans (c c' c'' : Context ρ) (h₁ : Safe c c') (h₂ : Safe c' c'') : Safe c c'' :=
  ⟨h₂.name.trans h₁.name, fun hc ↦ h₂.covered (h₁.covered hc),
    fun hc m hm ↦ h₂.recorded (h₁.covered hc) m (h₁.recorded hc m hm)⟩

theorem Safe.of_eq (hname : c'.name = c.name) (htables : c'.tables = c.tables)
    (hcurrent : c'.currentBlockNum = c.currentBlockNum) (hattached : c'.isAttached = c.isAttached) :
    Safe c c' := by
  have hrec : ∀ m, Recorded m c → Recorded m c' := fun m hm t ht ↦ hm t (htables ▸ ht)
  refine ⟨hname, fun hc ↦ ⟨?_, ?_⟩, fun _ ↦ hrec⟩
  · rw [hcurrent]
    exact hrec _ hc.records
  · rw [hattached, htables]
    exact hc.detached

theorem Covered.moveTo {m : ℕ} (hc : Covered c) (hm : Recorded m c) (hle : m ≤ n) :
    Covered { c with currentBlockNum := n } :=
  ⟨hm.mono hle, hc.detached⟩

theorem Covered.recorded_of_detached (hc : Covered c) (hdet : c.isAttached = false) :
    Recorded 0 c := by
  intro t ht st hst
  rw [(hc.detached hdet t ht).1] at hst
  cases hst

theorem backFromFork_safe (hfull : h.hiveState.liteMode = false) (b : ℕ) (c : Context ρ) :
    Safe c (contextBackFromFork h b c) := by
  rw [contextBackFromFork_full hfull, Context.backFromFork]
  split
  case isTrue hlt =>
    have hcut : ∀ t ∈ c.tables.map (backFromForkOneTable b), ∀ st ∈ t.shadow,
        st.hiveBlockNum ≤ b ∧ ∃ t ∈ c.tables, st ∈ t.shadow := by
      intro t ht st hst
      obtain ⟨t₀, ht₀, rfl⟩ := List.mem_map.mp ht
      obtain ⟨hst, hle⟩ := List.mem_filter.mp hst
      exact ⟨of_decide_eq_true hle, t₀, ht₀, hst⟩
    refine ⟨rfl, fun hc ↦ ⟨fun t ht st hst ↦ (hcut t ht st hst).1, fun hdet t ht ↦ ?_⟩,
      fun _ m hm t ht st hst ↦ ?_⟩
    · obtain ⟨t₀, ht₀, rfl⟩ := List.mem_map.mp ht
      obtain ⟨hshadow, htriggers⟩ := hc.detached hdet t₀ ht₀
      refine ⟨?_, htriggers⟩
      rw [backFromForkOneTable, hshadow]
      rfl
    · obtain ⟨-, t₀, ht₀, hst⟩ := hcut t ht st hst
      exact hm t₀ ht₀ st hst
  case isFalse => exact .refl c

theorem setIrreversible_safe (hok : contextSetIrreversibleBlock n c = .ok c') :
    Safe c c' ∧ c'.currentBlockNum = c.currentBlockNum := by
  obtain ⟨-, rfl⟩ := contextSetIrreversibleBlock_eq_ok hok
  have hrec : ∀ m, Recorded m c → Recorded m (c.setIrreversible n) := by
    intro m hm t ht st hst
    obtain ⟨t₀, ht₀, rfl⟩ := List.mem_map.mp ht
    exact hm t₀ ht₀ st (List.mem_filter.mp hst).1
  refine ⟨⟨rfl, fun hc ↦ ⟨hrec _ hc.records, fun hdet t ht ↦ ?_⟩, fun _ ↦ hrec⟩, rfl⟩
  obtain ⟨t₀, ht₀, rfl⟩ := List.mem_map.mp ht
  obtain ⟨hshadow, htriggers⟩ := hc.detached hdet t₀ ht₀
  refine ⟨?_, htriggers⟩
  rw [removeObsoleteOperations, hshadow]
  rfl

theorem detach_safe (hok : contextDetach h c = .ok c') : Safe c c' ∧ c'.isAttached = false := by
  obtain ⟨tables, htables, hok⟩ := bind_eq_ok.mp hok
  cases hok
  have hempty : ∀ t ∈ tables, t.shadow = [] ∧ t.hasTriggers = false := by
    intro t ht
    obtain ⟨t₀, -, hdet⟩ := exists_of_mem_mapM htables ht
    rw [detachTable] at hdet
    split at hdet
    · cases hdet
    case isFalse hshadow =>
      cases hdet
      exact ⟨not_not.mp hshadow, rfl⟩
  have hrec : ∀ m, Recorded m { contextBackFromFork h c.irreversibleBlock c with
      tables, eventsId := unreachableEventId, isAttached := false } := by
    intro m t ht st hst
    rw [(hempty t ht).1] at hst
    cases hst
  exact ⟨⟨(contextBackFromFork_standing c.irreversibleBlock c).1,
    fun _ ↦ ⟨hrec _, fun _ ↦ hempty⟩, fun _ m _ ↦ hrec m⟩, rfl⟩

theorem attach_safe (hok : contextAttach n c = .ok c') : Safe c c' := by
  obtain ⟨hattached, rfl⟩ := contextAttach_eq_ok hok
  have hrec : ∀ m, Recorded m c → ∀ t ∈ c.tables.map (attachTable c.isForking),
      ∀ st ∈ t.shadow, st.hiveBlockNum ≤ m := by
    intro m hm t ht st hst
    obtain ⟨t₀, ht₀, rfl⟩ := List.mem_map.mp ht
    rw [attachTable] at hst
    split at hst <;> exact hm t₀ ht₀ st hst
  refine ⟨rfl, fun hc ↦ ⟨hrec n ?_, fun hdet ↦ by cases hdet⟩, fun _ ↦ hrec⟩
  exact (hc.recorded_of_detached hattached).mono (Nat.zero_le n)

theorem Covered.exists_detach (hc : Covered c) (hfull : h.hiveState.liteMode = false) :
    ∃ c', contextDetach h c = .ok c' := by
  have hempty : ∀ t ∈ (contextBackFromFork h c.irreversibleBlock c).tables,
      detachTable (removeObsoleteOperations c.currentBlockNum t) =
        .ok { removeObsoleteOperations c.currentBlockNum t with hasTriggers := false } := by
    intro t ht
    refine if_neg (not_not.mpr (List.filter_eq_nil_iff.mpr fun st hst hlt ↦ ?_))
    have hle := (backFromFork_safe hfull c.irreversibleBlock c).recorded hc _ hc.records t ht st hst
    exact absurd (of_decide_eq_true hlt) (Nat.not_lt.mpr hle)
  rw [contextDetach, mapM_ok hempty]
  exact ⟨_, rfl⟩

theorem execute_recorded {blockNum : ℕ} {s : Statement ρ} {t' : RegisteredTable ρ}
    (hok : t.execute blockNum s = .ok t') :
    t'.hasTriggers = t.hasTriggers ∧ (t.hasTriggers = false → t'.shadow = t.shadow) ∧
      ∀ st ∈ t'.shadow, st ∈ t.shadow ∨ st.hiveBlockNum = blockNum := by
  rw [RegisteredTable.execute] at hok
  split at hok
  case isTrue htriggers =>
    split at hok
    · cases hok
    · cases hok
      refine ⟨rfl, fun hno ↦ absurd htriggers (by simp [hno]), fun st hst ↦ ?_⟩
      exact (List.mem_append.mp hst).imp id Statement.hiveBlockNum_of_mem_records
  case isFalse =>
    cases hok
    exact ⟨rfl, fun _ ↦ rfl, fun st hst ↦ .inl hst⟩

theorem columnStatement_recorded {blockNum : ℕ} {s : ColumnStatement ρ} {t' : RegisteredTable ρ}
    (hok : s.execute blockNum t = .ok t') :
    t'.hasTriggers = t.hasTriggers ∧ (t.hasTriggers = false → t'.shadow = t.shadow) ∧
      ∀ st ∈ t'.shadow, st ∈ t.shadow ∨ st.hiveBlockNum = blockNum := by
  cases s with
  | insert columns =>
    have hrecorded := execute_recorded
      (t := { t with rowidSeq := t.rowidSeq + columns.length }) hok
    exact hrecorded
  | update condition set => exact execute_recorded hok
  | delete condition => exact execute_recorded hok
  | truncate restartIdentity =>
    obtain ⟨t₁, ht₁, hok⟩ := ExceptList.bind_eq_ok.mp hok
    cases hok
    have hrecorded := execute_recorded ht₁
    cases restartIdentity <;> exact hrecorded

theorem Covered.append (hc : Covered c) (hshadow : t.shadow = [])
    (htriggers : t.hasTriggers = c.isAttached) :
    Covered { c with tables := c.tables ++ [t] } := by
  constructor
  · intro t' ht' st hst
    rcases List.mem_append.mp ht' with ht' | ht'
    · exact hc.records t' ht' st hst
    · rw [List.mem_singleton.mp ht', hshadow] at hst
      cases hst
  · intro hdet t' ht'
    rcases List.mem_append.mp ht' with ht' | ht'
    · exact hc.detached hdet t' ht'
    · rw [List.mem_singleton.mp ht']
      exact ⟨hshadow, htriggers.trans hdet⟩

theorem tableAction_covered {action : TableAction ρ} (hfull : h.hiveState.liteMode = false)
    (hadvance : ∀ n, action = .advance n → c.isAttached = true → c.currentBlockNum ≤ n)
    (hok : action.execute h c = .ok c') (hc : Covered c) : Covered c' := by
  cases action with
  | inherit =>
    cases hok
    exact hc.append rfl rfl
  | register table =>
    cases hok
    exact hc.append rfl rfl
  | unregister i =>
    cases hok
    exact ⟨fun t ht ↦ hc.records t (List.mem_of_mem_eraseIdx ht),
      fun hdet t ht ↦ hc.detached hdet t (List.mem_of_mem_eraseIdx ht)⟩
  | statement i s =>
    simp only [TableAction.execute] at hok
    split at hok
    · cases hok
      exact hc
    case h_2 t hget =>
      obtain ⟨t', ht', hok⟩ := bind_eq_ok.mp hok
      cases hok
      have ht : t ∈ c.tables := List.mem_of_getElem? hget
      obtain ⟨htriggers, hunrecorded, hrecords⟩ := columnStatement_recorded ht'
      constructor
      · intro u hu st hst
        rcases List.mem_or_eq_of_mem_set hu with hu | rfl
        · exact hc.records u hu st hst
        · rcases hrecords st hst with hst | hnum
          · exact hc.records t ht st hst
          · exact hnum.le
      · intro hdet u hu
        rcases List.mem_or_eq_of_mem_set hu with hu | rfl
        · exact hc.detached hdet u hu
        · obtain ⟨hshadow, hno⟩ := hc.detached hdet t ht
          exact ⟨(hunrecorded hno).trans hshadow, htriggers.trans hno⟩
  | advance n =>
    cases hok
    by_cases hattached : c.isAttached = true
    · exact hc.moveTo hc.records (hadvance n rfl hattached)
    · exact hc.moveTo (hc.recorded_of_detached (Bool.not_eq_true _ ▸ hattached)) (Nat.zero_le n)
  | setIrreversible n => exact (setIrreversible_safe hok).1.covered hc
  | rewind b =>
    cases hok
    exact (backFromFork_safe hfull b c).covered hc
  | detach => exact (detach_safe hok).1.covered hc
  | attach n => exact (attach_safe hok).covered hc

end Contexts

section Groups

def AllCovered (db : Db ρ) : Prop := ∀ c ∈ db.contexts, Covered c

structure SafelyMoved (db db' : Db ρ) : Prop where
  related : db.Related Safe db'
  toHafd : db'.toHafd = db.toHafd

theorem SafelyMoved.refl (db : Db ρ) : SafelyMoved db db := ⟨Db.Related.refl Safe.refl db, rfl⟩

theorem SafelyMoved.trans {db'' : Db ρ} (h₁ : SafelyMoved db db') (h₂ : SafelyMoved db' db'') :
    SafelyMoved db db'' :=
  ⟨h₁.related.trans Safe.trans h₂.related, h₂.toHafd.trans h₁.toHafd⟩

theorem SafelyMoved.update {f : Context ρ → Context ρ} (hf : ∀ c, Safe c (f c)) :
    SafelyMoved db (db.updateContexts contexts f) :=
  ⟨.updateContexts Safe.refl fun c _ _ ↦ hf c, rfl⟩

theorem SafelyMoved.forEach {f : Context ρ → Except Error (Context ρ)}
    (hf : ∀ c c', f c = .ok c' → Safe c c') (hok : db.forEachContext contexts f = .ok db') :
    SafelyMoved db db' :=
  ⟨.forEachContext Safe.refl Safe.trans (fun c _ c' ↦ hf c c') hok, Db.forEachContext_toHafd hok⟩

theorem SafelyMoved.covered (hmoved : SafelyMoved db db') (hdb : AllCovered db) :
    AllCovered db' := by
  intro c' hc'
  obtain ⟨c, hc, hsafe⟩ := hmoved.related.exists_of_mem hc'
  exact hsafe.covered (hdb c hc)

theorem SafelyMoved.recorded (hmoved : SafelyMoved db db') (hdb : AllCovered db) {m : ℕ}
    (hm : ∀ c ∈ db.contexts, c.name ∈ contexts → Recorded m c) :
    ∀ c ∈ db'.contexts, c.name ∈ contexts → Recorded m c := by
  intro c' hc' hn
  obtain ⟨c, hc, hsafe⟩ := hmoved.related.exists_of_mem hc'
  exact hsafe.recorded (hdb c hc) m (hm c hc (hsafe.name ▸ hn))

variable {env : CallEnv}

theorem appContextAttach_moved (hok : appContextAttach env contexts db = .ok db') :
    SafelyMoved db db' := by
  obtain ⟨-, -, hok⟩ := bind_eq_ok.mp hok
  split at hok
  · cases hok
  · split at hok
    · cases hok
    · refine SafelyMoved.trans ?_ (SafelyMoved.forEach (fun _ _ hc ↦ attach_safe hc) hok)
      exact .update fun c ↦ .of_eq rfl rfl rfl rfl

theorem appContextDetach_moved (hok : appContextDetach contexts db = .ok db') :
    SafelyMoved db db' := by
  obtain ⟨-, -, hok⟩ := bind_eq_ok.mp hok
  exact .forEach (fun _ _ hc ↦ (detach_safe hc).1) hok

theorem appContextSetMode_moved {isForking : Bool}
    (hok : appContextSetMode env isForking contexts db = .ok db') : SafelyMoved db db' := by
  rw [appContextSetMode] at hok
  split at hok
  · cases hok
    exact .refl _
  · obtain ⟨-, -, hok⟩ := bind_eq_ok.mp hok
    obtain ⟨db₁, h₁, hok⟩ := bind_eq_ok.mp hok
    refine (SafelyMoved.forEach (fun _ _ hc ↦ (detach_safe hc).1) h₁).trans
      (SafelyMoved.trans ?_ (SafelyMoved.forEach (fun _ _ hc ↦ attach_safe hc) hok))
    exact .update fun c ↦ .of_eq rfl rfl rfl rfl

theorem updateAttachment_moved
    (hok : updateAttachment env contexts db = .ok db') : SafelyMoved db db' := by
  obtain ⟨attached, -, hok⟩ := bind_eq_ok.mp hok
  split at hok
  · split at hok
    · cases hok
      exact .refl _
    · exact appContextAttach_moved hok
  · split at hok
    · exact appContextDetach_moved hok
    · cases hok
      exact .refl _

theorem attachForAnalysis_moved {lead : Context ρ}
    (hok : attachForAnalysis env contexts lead db = .ok db') : SafelyMoved db db' := by
  obtain ⟨forking, -, hok⟩ := bind_eq_ok.mp hok
  obtain ⟨attached, -, hok⟩ := bind_eq_ok.mp hok
  split at hok
  · exact appContextAttach_moved hok
  · cases hok
    exact .refl _

theorem analyzeStages_moved {range : BlocksRange} {head : Option ℤ}
    (hok : analyzeStages env contexts range head db = .ok db') : SafelyMoved db db' := by
  obtain ⟨stages, -, hok⟩ := bind_eq_ok.mp hok
  cases hok
  apply SafelyMoved.trans
  swap
  · exact .update fun c ↦ .of_eq rfl rfl rfl rfl
  · exact .update fun c ↦ .of_eq rfl rfl rfl rfl

theorem exists_of_mem_withContext {name : ContextName} {f : Context ρ → Except Error (Context ρ)}
    (hok : db.withContext name f = .ok db') (hc' : c' ∈ db'.contexts) :
    ∃ c ∈ db.contexts, c.name = name ∧ f c = .ok c' ∨ c.name ≠ name ∧ c' = c := by
  obtain ⟨cs, hcs, hok⟩ := bind_eq_ok.mp hok
  cases hok
  obtain ⟨c, hc, hf⟩ := exists_of_mem_mapM hcs hc'
  refine ⟨c, hc, ?_⟩
  split at hf
  case isTrue hname => exact .inl ⟨hname, hf⟩
  case isFalse hname =>
    cases hf
    exact .inr ⟨hname, rfl⟩

theorem autoDetachContext_covered {name : ContextName} (hdb : AllCovered db) :
    AllCovered (autoDetachContext name db) := by
  rw [autoDetachContext]
  split
  · exact hdb
  · split
    · exact hdb
    case h_2 detached hok =>
      intro c hc
      obtain ⟨d, hd, rfl⟩ := List.mem_map.mp hc
      have hdcov := (appContextDetach_moved hok).covered hdb d hd
      obtain ⟨-, -, hok⟩ := bind_eq_ok.mp hok
      obtain ⟨db₁, h₁, hok⟩ := bind_eq_ok.mp hok
      cases hok
      split
      case isFalse => exact hdcov
      case isTrue hname =>
        dsimp only
        split
        case isFalse => exact hdcov
        case isTrue =>
          obtain ⟨c₀, -, ⟨-, hdet⟩ | ⟨hne, rfl⟩⟩ := exists_of_mem_withContext h₁ hd
          · exact hdcov.moveTo (hdcov.recorded_of_detached (detach_safe hdet).2) (Nat.zero_le _)
          · exact absurd (List.mem_singleton.mp hname) hne

theorem performDeadAppContextsAutoDetach_covered {timeout : ℕ}
    (hdb : AllCovered db) : AllCovered (performDeadAppContextsAutoDetach env timeout db) := by
  have hfold : ∀ (names : List ContextName) (db : Db ρ), AllCovered db →
      AllCovered (names.foldl (fun db name ↦ autoDetachContext name db) db) := by
    intro names
    induction names with
    | nil => exact fun _ hdb ↦ hdb
    | cons name names ih => exact fun _ hdb ↦ ih _ (autoDetachContext_covered hdb)
  rw [performDeadAppContextsAutoDetach]
  split
  · exact hfold _ _ hdb
  · exact hdb

end Groups

section Deliveries

def Synchronized (contexts : List ContextName) (db : Db ρ) : Prop :=
  ∀ c ∈ db.contexts, c.name ∈ contexts → ∀ c' ∈ db.contexts, c'.name ∈ contexts →
    c.syncKey = c'.syncKey

theorem synchronized_of_moves {K : Context ρ → Context ρ → Prop}
    (hmoves : db.MovesByKey K contexts db') (hsync : Synchronized contexts db) :
    Synchronized contexts db' := by
  obtain ⟨move, hkey, hmoved⟩ := hmoves.moved
  intro d hd hdn d' hd' hdn'
  obtain ⟨c, hc, hcd, -⟩ := hmoved.exists_of_mem hd
  obtain ⟨c', hc', hcd', -⟩ := hmoved.exists_of_mem hd'
  have hn : c.name ∈ contexts := hcd.name ▸ hdn
  have hn' : c'.name ∈ contexts := hcd'.name ▸ hdn'
  have hkeys := hkey c.standing c'.standing (hsync c hc hn c' hc' hn')
  rwa [← hcd.standing hn, ← hcd'.standing hn'] at hkeys

def Lowers (c c' : Context ρ) : Prop := Safe c c' ∧ c'.currentBlockNum ≤ c.currentBlockNum

theorem Lowers.stepRule : StepRule (ρ := ρ) false Lowers where
  refl c := ⟨.refl c, le_rfl⟩
  trans c c' c'' h₁ h₂ := ⟨.trans c c' c'' h₁.1 h₂.1, h₂.2.trans h₁.2⟩
  eventsId _ _ := ⟨.of_eq rfl rfl rfl rfl, le_rfl⟩
  forkId _ _ := ⟨.of_eq rfl rfl rfl rfl, le_rfl⟩
  backFromFork _ hfull b c :=
    ⟨backFromFork_safe hfull b c, contextBackFromFork_currentBlockNum_le b c⟩
  setIrreversible _ _ _ hok := ⟨(setIrreversible_safe hok).1, (setIrreversible_safe hok).2.le⟩

/-- The next event is looked for with all contexts of the group at one block. -/
structure Located (contexts : List ContextName) (db db' : Db ρ) (m : ℕ) : Prop where
  moved : SafelyMoved db db'
  synchronized : Synchronized contexts db'
  current : ∀ c ∈ db'.contexts, c.name ∈ contexts → c.currentBlockNum = m
  le : ∀ n, (∀ c ∈ db.contexts, c.name ∈ contexts → c.currentBlockNum ≤ n) → m ≤ n
  lead : ∃ lead, db'.leadContext contexts = some lead

theorem squashAndGetState_located {state : ContextState}
    (hfull : db.hiveState.liteMode = false) (hsync : Synchronized contexts db)
    (hok : squashAndGetState contexts db = .ok (db', state)) :
    Located contexts db db' state.currentBlockNum := by
  have hmoves := squashAndGetState_within Lowers.stepRule hfull hok
  have hsync' := synchronized_of_moves hmoves hsync
  have hlead : ∃ lead, db'.leadContext contexts = some lead ∧
      lead.currentBlockNum = state.currentBlockNum := by
    obtain ⟨db₁, -, hok⟩ := bind_eq_ok.mp hok
    split at hok
    · cases hok
    case h_2 hac hlead =>
      obtain ⟨⟨db₂, event⟩, h₂, hok⟩ := bind_eq_ok.mp hok
      cases hok
      obtain ⟨⟨lead, hlead₂, -, hcurrent, -⟩, -⟩ := findNextEvent_lead hlead h₂
      exact ⟨lead, hlead₂, hcurrent⟩
  obtain ⟨lead, hlead, hcurrent⟩ := hlead
  obtain ⟨hmem, hname⟩ := Db.leadContext_name_mem hlead
  obtain ⟨move, -, hrelated⟩ := hmoves.moved
  refine ⟨⟨hrelated.imp fun _ _ _ hc ↦ hc.2.1, hmoves.toHafd⟩, hsync', fun c hc hn ↦ ?_,
    fun n hn ↦ ?_, lead, hlead⟩
  · rw [← hcurrent]
    exact congrArg SyncKey.currentBlockNum (hsync' c hc hn lead hmem hname)
  · obtain ⟨c, hc, hmoved, hlow⟩ := hrelated.exists_of_mem hmem
    rw [← hcurrent]
    exact hlow.2.trans (hn c hc (hmoved.name ▸ hname))

/-- What a context with records up to block `m` is like after the event, where `forward` says that
the event is no fork. -/
structure Placed (contexts : List ContextName) (m : ℕ) (forward : Prop) (c : Context ρ) : Prop where
  covered : Covered c
  recorded : c.name ∈ contexts → Recorded m c
  current : forward → c.name ∈ contexts → m ≤ c.currentBlockNum

/-- The range begins above block `m` and not above the limit. -/
structure Begins (m : ℕ) (limit : Option ℕ) (r : BlocksRange) : Prop where
  first : (m : ℤ) < r.firstBlock
  last : r.firstBlock ≤ r.lastBlock
  limit : ∀ l ∈ limit, r.firstBlock ≤ (l : ℤ)

variable {m n : ℕ} {limit : Option ℕ} {range : Option BlocksRange}

theorem processIrreversibleRange_placed {forward : Prop}
    (hr : processIrreversibleRange h m (leastLimit n limit) c =
      (c', range)) (hc : Placed contexts m forward c) (hn : c.name ∈ contexts) :
    Placed contexts m forward c' ∧ c'.name = c.name ∧
      ∀ r ∈ BlocksRange.toResult range, Begins m limit r := by
  rw [processIrreversibleRange] at hr
  split at hr
  case h_1 first last hfirst hlast =>
    cases hr
    have hmem := (List.mem_filter.mp (List.min?_eq_some_iff.mp hfirst).1).2
    obtain ⟨hlt, hle⟩ := of_decide_eq_true hmem
    refine ⟨⟨hc.covered.moveTo (hc.recorded hn) hlt.le, hc.recorded, fun _ _ ↦ hlt.le⟩, rfl, ?_⟩
    intro r hr
    obtain ⟨hr, hfl⟩ := Option.filter_eq_some_iff.mp hr
    obtain rfl := Option.some.inj hr
    exact ⟨Int.ofNat_lt.mpr hlt, of_decide_eq_true hfl,
      fun l hl ↦ Int.ofNat_le.mpr (hle.trans (leastLimit_le_limit n l hl))⟩
  case h_2 =>
    cases hr
    exact ⟨hc, rfl, fun r hr ↦ by cases hr⟩

theorem appProcessEvent_placed (hfull : h.hiveState.liteMode = false) {state : ContextState}
    (hok : appProcessEvent h state limit c = .ok (c', range)) (hn : c.name ∈ contexts)
    (hc : Placed contexts state.currentBlockNum
      (∀ e ∈ state.nextEvent, e.event ≠ .backFromFork) c) :
    Placed contexts state.currentBlockNum (∀ e ∈ state.nextEvent, e.event ≠ .backFromFork) c' ∧
      c'.name = c.name ∧ ∀ r ∈ BlocksRange.toResult range,
        (∀ e ∈ state.nextEvent, e.event ≠ .backFromFork) ∧
          Begins state.currentBlockNum limit r := by
  cases processed_of_eq_ok hok with
  | @forked id forkId hf hev hfork =>
    have hsafe := backFromFork_safe hfull hf.blockNum c
    have hback : ¬ ∀ e ∈ state.nextEvent, e.event ≠ .backFromFork := fun hno ↦ hno _ hev rfl
    have hrec : Recorded hf.blockNum (contextBackFromFork h hf.blockNum c) := by
      have hcur := (contextBackFromFork_standing (h := h) hf.blockNum c).2
      refine (hsafe.covered hc.covered).records.mono ?_
      exact (congrArg (fun s ↦ s.key.currentBlockNum) hcur).trans_le (Nat.min_le_right _ _)
    refine ⟨⟨⟨hrec, (hsafe.covered hc.covered).detached⟩, fun _ ↦ ?_, fun hno ↦ absurd hno hback⟩,
      hsafe.name, fun r hr ↦ by cases hr⟩
    exact hsafe.recorded hc.covered _ (hc.recorded hn)
  | refused hev hnum hlimit => exact ⟨hc, rfl, fun r hr ↦ by cases hr⟩
  | newBlock hev hnum hlimit =>
    refine ⟨⟨hc.covered.moveTo (hc.recorded hn) (by omega), hc.recorded, fun _ _ ↦ ?_⟩, rfl, ?_⟩
    · exact hnum ▸ Nat.le_succ _
    · intro r hr
      obtain ⟨hr, -⟩ := Option.filter_eq_some_iff.mp hr
      obtain rfl := Option.some.inj hr
      refine ⟨fun e he ↦ ?_, by dsimp only; omega, le_rfl, fun l hl ↦ ?_⟩
      · rw [hev] at he
        cases he
        nofun
      · rw [hl, aboveLimit, Option.any_some, decide_eq_false_iff_not] at hlimit
        exact Int.ofNat_le.mpr (not_lt.mp hlimit)
  | @overtaken id num head hcons hev c₁ _ _ hset hrange =>
    obtain ⟨hsafe, hcur⟩ := setIrreversible_safe hset
    have hc₁ : Placed contexts state.currentBlockNum
        (∀ e ∈ state.nextEvent, e.event ≠ .backFromFork) c₁ :=
      ⟨hsafe.covered hc.covered,
        fun hn₁ ↦ hsafe.recorded hc.covered _ (hc.recorded (hsafe.name ▸ hn₁)),
        fun hno hn₁ ↦ hcur ▸ hc.current hno (hsafe.name ▸ hn₁)⟩
    obtain ⟨hplaced, hname, hresult⟩ :=
      processIrreversibleRange_placed hrange hc₁ (hsafe.name ▸ hn)
    refine ⟨hplaced, hname.trans hsafe.name, fun r hr ↦ ⟨fun e he ↦ ?_, hresult r hr⟩⟩
    rw [hev.1] at he
    cases he
    nofun
  | irreversible hev hrange =>
    obtain ⟨hplaced, hname, hresult⟩ := processIrreversibleRange_placed hrange hc hn
    exact ⟨hplaced, hname, fun r hr ↦ ⟨fun e he ↦ (hev e he).1, hresult r hr⟩⟩

structure Delivered (contexts : List ContextName) (limit : Option ℕ) (n : ℕ) (db' : Db ρ)
    (range : Option BlocksRange) : Prop where
  covered : AllCovered db'
  begins : ∀ r ∈ range, ∃ m ≤ n, Begins m limit r ∧
    ∀ c ∈ db'.contexts, c.name ∈ contexts → Recorded m c ∧ m ≤ c.currentBlockNum

theorem processForContexts_delivered (forward : Prop)
    {process : Context ρ → Except Error (Context ρ × Option BlocksRange)}
    (hprocess : ∀ c c' range, process c = .ok (c', range) → c.name ∈ contexts →
      Placed contexts m forward c → Placed contexts m forward c' ∧ c'.name = c.name ∧
        ∀ r ∈ BlocksRange.toResult range, forward ∧ Begins m limit r)
    (hdb : AllCovered db) (hcurrent : ∀ c ∈ db.contexts, c.name ∈ contexts → c.currentBlockNum = m)
    (hle : m ≤ n) (hok : processForContexts contexts process db = .ok (db', range)) :
    Delivered contexts limit n db' (BlocksRange.toResult range) ∧ db'.toHafd = db.toHafd := by
  have hplaced : AppKept db.toHafd (Placed contexts m forward)
      (db.contexts.map Context.name) db := by
    refine ⟨rfl, rfl, fun c hc ↦ ⟨hdb c hc, fun hn ↦ ?_, fun _ hn ↦ (hcurrent c hc hn).ge⟩⟩
    exact hcurrent c hc hn ▸ (hdb c hc).records
  have hkept := processForContexts_kept (fun c c' r hn hp hc ↦
    ⟨(hprocess c c' r hp hn hc).1, (hprocess c c' r hp hn hc).2.1⟩) hplaced hok
  refine ⟨⟨fun c hc ↦ (hkept.contexts c hc).covered, fun r hr ↦ ?_⟩, hkept.toHafd⟩
  obtain ⟨db₁, -, hok⟩ := bind_eq_ok.mp hok
  split at hok
  · cases hok
    cases hr
  case h_2 lead hlead =>
    obtain ⟨⟨lead', range'⟩, hp, hok⟩ := bind_eq_ok.mp hok
    cases hok
    obtain ⟨hmem, hname⟩ := Db.leadContext_name_mem hlead
    obtain ⟨-, -, hresult⟩ := hprocess _ _ _ hp hname (hplaced.contexts lead hmem)
    obtain ⟨hforward, hbegins⟩ := hresult r hr
    exact ⟨m, hle, hbegins, fun c hc hn ↦
      ⟨(hkept.contexts c hc).recorded hn, (hkept.contexts c hc).current hforward hn⟩⟩

def AtMost (contexts : List ContextName) (n : ℕ) (db : Db ρ) : Prop :=
  ∀ c ∈ db.contexts, c.name ∈ contexts → c.currentBlockNum ≤ n

theorem AtMost.update {f : Context ρ → Context ρ}
    (hf : ∀ c, (f c).name = c.name ∧ (f c).currentBlockNum = c.currentBlockNum)
    (hn : AtMost contexts n db) : AtMost contexts n (db.updateContexts contexts f) := by
  intro c hc hcn
  obtain ⟨c₀, hc₀, rfl⟩ := List.mem_map.mp hc
  by_cases hn₀ : c₀.name ∈ contexts
  · rw [if_pos hn₀, (hf c₀).2]
    exact hn c₀ hc₀ hn₀
  · rw [if_neg hn₀] at hcn
    exact absurd hcn hn₀

theorem appNextBlockForkingApp_delivered
    (hfull : db.hiveState.liteMode = false) (hdb : AllCovered db) (hsync : Synchronized contexts db)
    (hn : AtMost contexts n db)
    (hok : appNextBlockForkingApp contexts limit db = .ok (db', range)) :
    Delivered contexts limit n db' range ∧ db'.toHafd = db.toHafd := by
  obtain ⟨⟨db₁, state⟩, h₁, hok⟩ := bind_eq_ok.mp hok
  obtain ⟨⟨db₂, range₂⟩, h₂, hok⟩ := bind_eq_ok.mp hok
  cases hok
  have hloc := squashAndGetState_located hfull hsync h₁
  have hfull₁ : db₁.hiveState.liteMode = false := hloc.moved.toHafd ▸ hfull
  obtain ⟨hdel, htoHafd⟩ := processForContexts_delivered _
    (fun c c' r hp hn hc ↦ appProcessEvent_placed hfull₁ hp hn hc) (hloc.moved.covered hdb)
    hloc.current (hloc.le n hn) h₂
  exact ⟨hdel, htoHafd.trans hloc.moved.toHafd⟩

theorem processIrreversibleRange_eq_self
    (hr : BlocksRange.toResult (processIrreversibleRange h m n c).2 = none) (c' : Context ρ) :
    (processIrreversibleRange h m n c').1 = c' := by
  rw [processIrreversibleRange] at hr ⊢
  split at hr
  case h_1 first last hfirst hlast =>
    have hle : first ≤ last :=
      (List.min?_eq_some_iff.mp hfirst).2 last (List.max?_eq_some_iff.mp hlast).1
    have hsome : BlocksRange.toResult (some ⟨first, last⟩) = some ⟨first, last⟩ :=
      Option.filter_eq_some_iff.mpr ⟨rfl, decide_eq_true (Int.ofNat_le.mpr hle)⟩
    cases hsome.symm.trans hr
  case h_2 => rfl

theorem processIrreversibleRange_contexts_eq (hlead : ∃ lead, db.leadContext contexts = some lead)
    (hok : processForContexts contexts (fun c ↦ .ok (processIrreversibleRange h m n c)) db =
      .ok (db', range)) (hnone : BlocksRange.toResult range = none) :
    db'.contexts = db.contexts := by
  obtain ⟨lead, hlead⟩ := hlead
  obtain ⟨db₁, h₁, hok⟩ := bind_eq_ok.mp hok
  rw [hlead] at hok
  obtain ⟨⟨lead', range'⟩, hp, hok⟩ := bind_eq_ok.mp hok
  cases hok
  rw [← congrArg Prod.snd (Except.ok.inj hp)] at hnone
  have hrelated := Db.Related.forEachContext (R := Eq) (fun _ ↦ rfl)
    (fun _ _ _ ↦ Eq.trans) (fun c _ c' hc ↦ ?_) h₁
  · have heq : List.Forall₂ Eq db.contexts db'.contexts := hrelated
    rw [List.forall₂_eq_eq_eq] at heq
    exact heq.symm
  · obtain ⟨r, hc⟩ := ok_of_map_fst_eq_ok hc
    have hself := processIrreversibleRange_eq_self hnone c
    rw [Except.ok.inj hc] at hself
    exact hself.symm

theorem appNextBlockNonForkingLoop_delivered {k : ℕ} {wait : Bool}
    (hfull : db.hiveState.liteMode = false) (hdb : AllCovered db)
    (hsync : Synchronized contexts db) (hn : AtMost contexts n db)
    (hok : appNextBlockNonForkingLoop contexts wait limit k db = .ok (db', range)) :
    Delivered contexts limit n db' range ∧ db'.toHafd = db.toHafd := by
  induction k generalizing db with
  | zero =>
    cases hok
    exact ⟨⟨hdb, fun r hr ↦ by cases hr⟩, rfl⟩
  | succ k ih =>
    obtain ⟨⟨db₁, state⟩, h₁, hok⟩ := bind_eq_ok.mp hok
    obtain ⟨⟨db₂, range₂⟩, h₂, hok⟩ := bind_eq_ok.mp hok
    have hloc := squashAndGetState_located hfull hsync h₁
    obtain ⟨hdel, htoHafd⟩ := processForContexts_delivered True
      (fun c c' r hp hn hc ↦ by
        obtain ⟨hplaced, hname, hresult⟩ :=
          processIrreversibleRange_placed (Except.ok.inj hp) hc hn
        exact ⟨hplaced, hname, fun r hr ↦ ⟨trivial, hresult r hr⟩⟩)
      (hloc.moved.covered hdb) hloc.current (hloc.le n hn) h₂
    dsimp only at hok
    split at hok
    case h_1 r hresult =>
      cases hok
      exact ⟨hresult ▸ hdel, htoHafd.trans hloc.moved.toHafd⟩
    case h_2 hresult =>
      split at hok
      · cases hok
        exact ⟨⟨hdel.covered, fun r hr ↦ by cases hr⟩, htoHafd.trans hloc.moved.toHafd⟩
      · -- no context has moved, so the group is where the next attempt needs it
        have hsame := processIrreversibleRange_contexts_eq hloc.lead h₂ hresult
        have hfull₂ : db₂.hiveState.liteMode = false := by
          rw [htoHafd, hloc.moved.toHafd, hfull]
        have hsync₂ : Synchronized contexts db₂ := by
          rw [Synchronized, hsame]
          exact hloc.synchronized
        have hn₂ : AtMost contexts n db₂ := by
          rw [AtMost, hsame]
          exact fun c hc hcn ↦ (hloc.current c hc hcn).trans_le (hloc.le n hn)
        obtain ⟨hlater, htoHafd'⟩ := ih hfull₂ hdel.covered hsync₂ hn₂ hok
        exact ⟨hlater, htoHafd'.trans (htoHafd.trans hloc.moved.toHafd)⟩

theorem appNextBlock_delivered {env : CallEnv} {wait : Bool} {blockLimit : Option ℕ}
    (hfull : db.hiveState.liteMode = false) (hdb : AllCovered db)
    (hn : AtMost contexts n db)
    (hok : appNextBlock env contexts wait blockLimit db = .ok (db', range)) :
    Delivered contexts (blockLimit <|> env.dependenciesBlockLimit) n db' range ∧
      db'.toHafd = db.toHafd := by
  obtain ⟨⟨⟩, hcheck, hok⟩ := bind_eq_ok.mp hok
  have hactive : SafelyMoved db
      (db.updateContexts contexts (fun c ↦ { c with lastActiveAt := env.now })) :=
    .update fun c ↦ .of_eq rfl rfl rfl rfl
  generalize hdb₁ : db.updateContexts contexts (fun c ↦ { c with lastActiveAt := env.now }) = db₁
    at hok hactive
  split at hok
  · cases hok
    exact ⟨⟨hactive.covered hdb, fun r hr ↦ by cases hr⟩, hactive.toHafd⟩
  · obtain ⟨forking, hforking, hok⟩ := bind_eq_ok.mp hok
    obtain ⟨attached, -, hok⟩ := bind_eq_ok.mp hok
    obtain ⟨⟨⟩, hcheck₁, -⟩ := bind_eq_ok.mp hforking
    have hsync := (appCheckContextsSynchronized_eq_ok_iff.mp hcheck₁).2
    have hfull₁ : db₁.hiveState.liteMode = false := hactive.toHafd ▸ hfull
    have hn₁ : AtMost contexts n db₁ := hdb₁ ▸ AtMost.update (fun _ ↦ ⟨rfl, rfl⟩) hn
    rw [← hactive.toHafd]
    split at hok
    · exact appNextBlockForkingApp_delivered hfull₁ (hactive.covered hdb) hsync hn₁ hok
    · exact appNextBlockNonForkingLoop_delivered hfull₁ (hactive.covered hdb) hsync hn₁ hok

end Deliveries

section Iterations

variable {env : CallEnv} {wait : Bool} {overrideMaxBatch limit : Option ℕ} {lead : Context ρ}

variable {n : ℕ} {range : Option (ℕ × ℕ)}

theorem attachForAnalysis_atMost (hn : AtMost contexts n db)
    (hok : attachForAnalysis env contexts lead db = .ok db') : AtMost contexts n db' := by
  obtain ⟨forking, -, hok⟩ := bind_eq_ok.mp hok
  obtain ⟨attached, -, hok⟩ := bind_eq_ok.mp hok
  split at hok
  case isFalse =>
    cases hok
    exact hn
  case isTrue =>
    obtain ⟨-, -, hok⟩ := bind_eq_ok.mp hok
    split at hok
    · cases hok
    case h_2 first hfirst =>
      split at hok
      · cases hok
      · obtain ⟨hmem, hname⟩ := Db.leadContext_name_mem hfirst
        have hle := hn first hmem hname
        have hrelated := Db.Related.forEachContext
          (R := fun c c' ↦ c'.name = c.name ∧ (c.currentBlockNum ≤ n → c'.currentBlockNum ≤ n))
          (fun _ ↦ ⟨rfl, id⟩) (fun _ _ _ h₁ h₂ ↦ ⟨h₂.1.trans h₁.1, h₂.2 ∘ h₁.2⟩)
          (fun c _ c' hc ↦ ?_) hok
        · intro c' hc' hn'
          obtain ⟨c, hc, hcname, hcle⟩ := hrelated.exists_of_mem hc'
          obtain ⟨c₀, hc₀, rfl⟩ := List.mem_map.mp hc
          by_cases hn₀ : c₀.name ∈ contexts
          · rw [if_pos hn₀] at hcle
            exact hcle (hn c₀ hc₀ hn₀)
          · rw [if_neg hn₀] at hcname
            exact absurd (hcname ▸ hn') hn₀
        · have hstanding := (contextAttach_standing hc).2
          exact ⟨(contextAttach_standing hc).1, fun _ ↦
            (congrArg (fun s ↦ s.key.currentBlockNum) hstanding).trans_le hle⟩

theorem le_analyzedBatch {m : ℕ} {range : BlocksRange} {state : ApplicationLoopState}
    (hoverride : overrideMaxBatch ≠ some 0)
    (hbegins : Begins m env.dependenciesBlockLimit range) (hlimit : ∀ l ∈ limit, m ≤ l)
    (hend : ∀ e ∈ state.endBlockRange, m ≤ e) (hsize : ∀ size ∈ state.sizeOfBlocksBatch, 0 < size) :
    m ≤ (analyzedBatch env overrideMaxBatch limit range state).2 := by
  have hfirst := hbegins.first
  have hlast := hbegins.last
  rw [analyzedBatch]
  refine le_least (n := range.lastBlock.toNat) List.mem_cons_self fun x hx ↦ ?_
  simp only [List.mem_cons, List.not_mem_nil, or_false] at hx
  rcases hx with hx | hx | hx | hx | hx
  · cases hx
    omega
  · obtain ⟨size', hsize', rfl⟩ := Option.map_eq_some_iff.mp hx.symm
    have hpos' : 0 < size' := by
      cases overrideMaxBatch with
      | none => exact hsize size' hsize'
      | some k =>
        cases hsize'
        exact Nat.pos_of_ne_zero fun hk ↦ hoverride (congrArg some hk)
    omega
  · cases limit with
    | none => exact hend x hx.symm
    | some l =>
      cases hx
      exact hlimit x rfl
  · exact hend x hx.symm
  · have hle := hbegins.limit x hx.symm
    omega

theorem SafelyMoved.leadContext_eq_none (hmoved : SafelyMoved db db')
    (hlead : db.leadContext contexts = none) : db'.leadContext contexts = none := by
  have hrel : Option.Rel _ (db.leadContext contexts) (db'.leadContext contexts) :=
    hmoved.related.leadContext fun _ _ hc ↦ hc.name
  rw [hlead] at hrel
  cases hlead' : db'.leadContext contexts with
  | none => rfl
  | some first =>
    rw [hlead'] at hrel
    cases hrel

theorem nextAnalyzedRange_covered
    (hfull : db.hiveState.liteMode = false) (hdb : AllCovered db) (hn : AtMost contexts n db)
    (hlimit : ∀ l ∈ limit, n < l) (hoverride : overrideMaxBatch ≠ some 0)
    (hok : nextAnalyzedRange env contexts wait overrideMaxBatch limit lead db = .ok (db', range)) :
    AllCovered db' ∧ db'.toHafd = db.toHafd ∧
      ∀ r ∈ range, ∀ c ∈ db'.contexts, c.name ∈ contexts → Recorded r.2 c := by
  obtain ⟨db₁, h₁, hok⟩ := bind_eq_ok.mp hok
  obtain ⟨⟨db₂, range₂⟩, h₂, hok⟩ := bind_eq_ok.mp hok
  have hmoved := attachForAnalysis_moved h₁
  have hfull₁ : db₁.hiveState.liteMode = false := hmoved.toHafd ▸ hfull
  obtain ⟨hdel, htoHafd⟩ := appNextBlock_delivered hfull₁ (hmoved.covered hdb)
    (attachForAnalysis_atMost hn h₁) h₂
  cases range₂ with
  | none =>
    cases hok
    exact ⟨hdel.covered, htoHafd.trans hmoved.toHafd, fun r hr ↦ by cases hr⟩
  | some range₂ =>
    obtain ⟨db₃, h₃, hok⟩ := bind_eq_ok.mp hok
    cases hok
    have hanalyzed := analyzeStages_moved h₃
    refine ⟨hanalyzed.covered hdel.covered,
      hanalyzed.toHafd.trans (htoHafd.trans hmoved.toHafd), ?_⟩
    rintro r ⟨⟩ c hc hcn
    obtain ⟨m, hmn, hbegins, hgroup⟩ := hdel.begins range₂ rfl
    have hbegins : Begins m env.dependenciesBlockLimit range₂ := by
      cases hdep : env.dependenciesBlockLimit <;> rw [hdep] at hbegins <;> exact hbegins
    refine (hanalyzed.recorded hdel.covered (fun c hc hn ↦ (hgroup c hc hn).1) c hc hcn).mono ?_
    have hlimit' : ∀ l ∈ limit, m ≤ l := fun l hl ↦ hmn.trans (hlimit l hl).le
    cases hlead : db₂.leadContext contexts with
    | none =>
      rw [hanalyzed.leadContext_eq_none hlead]
      exact le_analyzedBatch hoverride hbegins hlimit' (fun e he ↦ by cases he)
        fun size hsize ↦ by cases hsize
    | some first =>
      obtain ⟨hmem, hname⟩ := Db.leadContext_name_mem hlead
      obtain ⟨first', hlead₃, -, hend, hsize⟩ := analyzeStages_lead hlead h₃
      rw [hlead₃]
      refine le_analyzedBatch hoverride hbegins hlimit' (fun e he ↦ ?_) fun size hs ↦ ?_
      · cases hend.symm.trans he
        exact (hgroup first hmem hname).2.trans (Nat.le_add_right _ _)
      · cases hsize.symm.trans hs
        exact sizeOfBatch_pos contexts db'

theorem finishIteration_covered {lastBlock : ℕ} {endBlockRange : Option ℕ} (hdb : AllCovered db)
    (hrec : ∀ c ∈ db.contexts, c.name ∈ contexts → Recorded lastBlock c)
    (hok : finishIteration env contexts lastBlock endBlockRange db = .ok db') :
    AllCovered db' ∧ db'.toHafd = db.toHafd := by
  obtain ⟨moved, h₁, hok⟩ := bind_eq_ok.mp hok
  cases hok
  have hnoted : SafelyMoved db (db.updateContexts contexts (fun c ↦
      { c with loop := { c.loop with currentBatchEnd := some lastBlock, endBlockRange } })) :=
    .update fun c ↦ .of_eq rfl rfl rfl rfl
  have hmoved := hnoted.trans (updateAttachment_moved h₁)
  refine ⟨fun c hc ↦ ?_, hmoved.toHafd⟩
  obtain ⟨c₀, hc₀, rfl⟩ := List.mem_map.mp hc
  have hcov := hmoved.covered hdb c₀ hc₀
  split
  case isTrue hn => exact hcov.moveTo (hmoved.recorded hdb hrec c₀ hc₀ hn) le_rfl
  case isFalse => exact hcov

theorem iterate_covered (hfull : db.hiveState.liteMode = false)
    (hdb : AllCovered db) (hn : AtMost contexts n db) (hlimit : ∀ l ∈ limit, n < l)
    (hoverride : overrideMaxBatch ≠ some 0)
    (hbatch : isStagesAnalyzeRequired lead.loop (getEstimatedHiveHeadBlock env db.toHafd) = false →
      ∀ r ∈ nextBatchRange env overrideMaxBatch limit lead.loop db.toHafd,
      ∀ c ∈ db.contexts, c.name ∈ contexts → Recorded r.2 c)
    (hok : iterate env contexts wait overrideMaxBatch limit lead db = .ok (db', range)) :
    AllCovered db' ∧ db'.toHafd = db.toHafd := by
  obtain ⟨⟨db₁, range₁⟩, h₁, hok⟩ := bind_eq_ok.mp hok
  have hnext : AllCovered db₁ ∧ db₁.toHafd = db.toHafd ∧
      ∀ r ∈ range₁, ∀ c ∈ db₁.contexts, c.name ∈ contexts → Recorded r.2 c := by
    rw [nextRange] at h₁
    split at h₁
    · exact nextAnalyzedRange_covered hfull hdb hn hlimit hoverride h₁
    case isFalse hrequired =>
      cases h₁
      exact ⟨hdb, rfl, hbatch (Bool.not_eq_true _ ▸ hrequired)⟩
  obtain ⟨hdb₁, htoHafd, hrec⟩ := hnext
  cases range₁ with
  | none =>
    cases hok
    exact ⟨hdb₁, htoHafd⟩
  | some r =>
    obtain ⟨db₂, h₂, hok⟩ := bind_eq_ok.mp hok
    cases hok
    obtain ⟨hdb₂, htoHafd₂⟩ := finishIteration_covered hdb₁ (hrec r rfl) h₂
    exact ⟨hdb₂, htoHafd₂.trans htoHafd⟩

theorem AllCovered.recorded_of_noStepBack (hdb : AllCovered db)
    (hback : (ContextCall.nextIteration env contexts wait overrideMaxBatch limit).NoStepBack db)
    (hlead : db.leadContext contexts = some lead)
    (hrequired : isStagesAnalyzeRequired lead.loop (getEstimatedHiveHeadBlock env db.toHafd) =
      false) :
    ∀ r ∈ nextBatchRange env overrideMaxBatch limit lead.loop db.toHafd,
      ∀ c ∈ db.contexts, c.name ∈ contexts → Recorded r.2 c := by
  intro r hr c hc hcn
  by_cases hattached : c.isAttached = true
  · refine (hdb c hc).records.mono (hback lead hlead hrequired r hr c ?_ hattached)
    exact List.mem_filter.mpr ⟨hc, decide_eq_true hcn⟩
  · have hdet : c.isAttached = false := Bool.not_eq_true _ ▸ hattached
    exact ((hdb c hc).recorded_of_detached hdet).mono (Nat.zero_le _)

theorem appNextIteration_covered (hfull : db.hiveState.liteMode = false) (hdb : AllCovered db)
    (hback : (ContextCall.nextIteration env contexts wait overrideMaxBatch limit).NoStepBack db)
    (hok : appNextIteration env contexts wait overrideMaxBatch limit db = .ok (db', range)) :
    AllCovered db' ∧ db'.toHafd = db.toHafd := by
  obtain ⟨⟨⟩, hsync, hok⟩ := bind_eq_ok.mp hok
  dsimp only at hok
  have hactive : SafelyMoved db
      (db.updateContexts contexts (fun c ↦ { c with lastActiveAt := env.now })) :=
    .update fun c ↦ .of_eq rfl rfl rfl rfl
  split at hok
  · cases hok
  case h_2 lead hlead =>
    obtain ⟨c₀, hlead₀, rfl⟩ : ∃ c₀, db.leadContext contexts = some c₀ ∧
        { c₀ with lastActiveAt := env.now } = lead := by
      rw [Db.leadContext_updateContexts (by exact fun _ ↦ rfl)] at hlead
      exact Option.map_eq_some_iff.mp hlead
    obtain ⟨hmem₀, hname₀⟩ := Db.leadContext_name_mem hlead₀
    split at hok
    · cases hok
      exact ⟨hactive.covered hdb, hactive.toHafd⟩
    case isFalse hlimit =>
      split at hok
      · cases hok
        exact ⟨hactive.covered hdb, hactive.toHafd⟩
      split at hok
      · cases hok
        have hwaiting : SafelyMoved _ (setWaitingForHafStage contexts (db.updateContexts contexts
            (fun c ↦ { c with lastActiveAt := env.now }))) :=
          .update fun c ↦ .of_eq rfl rfl rfl rfl
        exact ⟨hwaiting.covered (hactive.covered hdb), hwaiting.toHafd.trans hactive.toHafd⟩
      split at hok
      · cases hok
      case isFalse hoverride =>
        have hstaged : SafelyMoved db (appContextSetDefaultStages contexts (db.updateContexts
            contexts (fun c ↦ { c with lastActiveAt := env.now }))) := by
          refine hactive.trans ?_
          exact .update fun c ↦ .of_eq rfl rfl rfl rfl
        have hat : AtMost contexts c₀.currentBlockNum (appContextSetDefaultStages contexts
            (db.updateContexts contexts (fun c ↦ { c with lastActiveAt := env.now }))) := by
          refine AtMost.update (fun _ ↦ ⟨rfl, rfl⟩) (AtMost.update (fun _ ↦ ⟨rfl, rfl⟩) ?_)
          exact fun c hc hcn ↦
            (currentBlockNum_eq_of_synchronized hsync hc hcn hmem₀ hname₀).le
        have hlimit' : ∀ l ∈ limit, c₀.currentBlockNum < l := by
          rintro l ⟨⟩
          simpa using hlimit
        have hbatch := hdb.recorded_of_noStepBack hback hlead₀
        obtain ⟨hcov, htoHafd⟩ := iterate_covered (hstaged.toHafd ▸ hfull) (hstaged.covered hdb)
          hat hlimit' hoverride (hstaged.toHafd ▸ fun hrequired r hr ↦
            hstaged.recorded hdb (hbatch hrequired r hr)) hok
        exact ⟨hcov, htoHafd.trans hstaged.toHafd⟩

end Iterations

section Runs

theorem announce_liteMode {h' : Hafd} {type : EventType} {n : ℕ}
    (hok : h.announce type n = .ok h') : h'.hiveState.liteMode = h.hiveState.liteMode := by
  obtain ⟨-, -, rfl⟩ := announce_eq_ok.mp hok
  rfl

theorem hivedCall_liteMode {call : HivedCall} (hfull : db.hiveState.liteMode = false)
    (hok : call.run db = .ok db') : db'.hiveState.liteMode = false := by
  cases call with
  | pushBlock d =>
    obtain ⟨-, rfl⟩ := pushBlock_eq_ok hfull hok
    exact hfull
  | backFromFork k =>
    obtain ⟨h', hback, hok⟩ := bind_eq_ok.mp hok
    cases hok
    obtain ⟨-, rfl⟩ := backFromFork_eq_ok hfull hback
    exact hfull
  | setIrreversible n lock =>
    simp only [HivedCall.run, setIrreversible, hfull, Bool.false_eq_true, if_false] at hok
    split at hok
    · cases hok
      exact hfull
    · obtain ⟨h', hann, hok⟩ := bind_eq_ok.mp hok
      cases hok
      refine (announce_liteMode hann).trans ?_
      cases lock <;> exact hfull
  | dump d =>
    cases hok
    exact hfull
  | endMassiveSync n lock =>
    obtain ⟨h', hann, hok⟩ := bind_eq_ok.mp hok
    cases hok
    refine (announce_liteMode hann).trans ?_
    cases lock <;> exact hfull

theorem covered_registerTable (k : ℕ) (hc : Covered c) : Covered (registerTable^[k] c) := by
  induction k generalizing c with
  | zero => exact hc
  | succ k ih =>
    rw [Function.iterate_succ_apply]
    exact ih (hc.append rfl rfl)

structure SafeDb (db : Db ρ) : Prop where
  full : db.hiveState.liteMode = false
  covered : AllCovered db

theorem SafeDb.moved (hdb : SafeDb db) (hmoved : SafelyMoved db db') : SafeDb db' :=
  ⟨hmoved.toHafd ▸ hdb.full, hmoved.covered hdb.covered⟩

theorem performDeadAppContextsAutoDetach_toHafd {env : CallEnv} {timeout : ℕ} :
    (performDeadAppContextsAutoDetach env timeout db).toHafd = db.toHafd := by
  have hone : ∀ (db : Db ρ) name, (autoDetachContext name db).toHafd = db.toHafd := by
    intro db name
    rw [autoDetachContext]
    split
    · rfl
    · split
      · rfl
      case h_2 hok => exact (appContextDetach_moved hok).toHafd
  have hfold : ∀ (names : List ContextName) (db : Db ρ),
      (names.foldl (fun db name ↦ autoDetachContext name db) db).toHafd = db.toHafd := by
    intro names
    induction names with
    | nil => exact fun _ ↦ rfl
    | cons name names ih => exact fun db ↦ (ih _).trans (hone db name)
  rw [performDeadAppContextsAutoDetach]
  split
  · exact hfold _ db
  · rfl

theorem SafeDb.run {call : ContextCall ρ} (hdb : SafeDb db) (hcall : call.NoStepBack db)
    (hok : call.run db = .ok db') : SafeDb db' := by
  cases call with
  | hived call =>
    refine ⟨hivedCall_liteMode hdb.full hok, fun c hc ↦ hdb.covered c ?_⟩
    rwa [← HivedCall.run_contexts hok]
  | createContext env name isForking isAttached stages tables =>
    simp only [ContextCall.run, appCreateContext] at hok
    split at hok
    · cases hok
    · split at hok
      · cases hok
      · cases hok
        refine ⟨hdb.full, fun c hc ↦ ?_⟩
        rcases List.mem_append.mp hc with hc | hc
        · exact hdb.covered c hc
        · rw [List.mem_singleton.mp hc]
          refine covered_registerTable tables ⟨fun _ h ↦ ?_, fun _ _ h ↦ ?_⟩ <;> cases h
  | nextBlock env contexts wait blockLimit =>
    obtain ⟨range, hok⟩ := ok_of_map_fst_eq_ok hok
    obtain ⟨⟨⟩, hsync, -⟩ := bind_eq_ok.mp hok
    obtain ⟨c, hc, hn⟩ := (appCheckContextsSynchronized_eq_ok_iff.mp hsync).1
    have hat : AtMost contexts c.currentBlockNum db := fun c' hc' hn' ↦
      (currentBlockNum_eq_of_synchronized hsync hc' hn' hc hn).le
    obtain ⟨hdel, htoHafd⟩ := appNextBlock_delivered hdb.full hdb.covered hat hok
    exact ⟨htoHafd ▸ hdb.full, hdel.covered⟩
  | nextIteration env contexts wait overrideMaxBatch limit =>
    obtain ⟨range, hok⟩ := ok_of_map_fst_eq_ok hok
    obtain ⟨hcov, htoHafd⟩ := appNextIteration_covered hdb.full hdb.covered hcall hok
    exact ⟨htoHafd ▸ hdb.full, hcov⟩
  | attach env contexts => exact hdb.moved (appContextAttach_moved hok)
  | detach contexts => exact hdb.moved (appContextDetach_moved hok)
  | setNonForking env contexts => exact hdb.moved (appContextSetMode_moved hok)
  | setForking env contexts =>
    simp only [ContextCall.run, appContextSetForking, hdb.full, Bool.false_eq_true, if_false] at hok
    exact hdb.moved (appContextSetMode_moved hok)
  | autoDetach env timeout =>
    cases hok
    refine ⟨?_, performDeadAppContextsAutoDetach_covered hdb.covered⟩
    rw [performDeadAppContextsAutoDetach_toHafd, hdb.full]
  | table name action =>
    have htoHafd : db'.toHafd = db.toHafd := by
      obtain ⟨cs, -, hok⟩ := bind_eq_ok.mp hok
      cases hok
      rfl
    refine ⟨htoHafd ▸ hdb.full, fun c' hc' ↦ ?_⟩
    obtain ⟨c, hc, hfrom⟩ := exists_of_mem_withContext hok hc'
    rcases hfrom with ⟨hname, hact⟩ | ⟨-, rfl⟩
    · refine tableAction_covered hdb.full (fun n hn ↦ ?_) hact (hdb.covered c hc)
      subst hn
      exact hcall c hc hname
    · exact hdb.covered c' hc

theorem Reached.safeDb (hreach : Reached (fun db call ↦ call.NoStepBack db) db) : SafeDb db := by
  induction hreach with
  | initial hfull => exact ⟨hfull, fun c hc ↦ absurd hc List.not_mem_nil⟩
  | @step db call _ hcall ih =>
    rw [ContextCall.step]
    split
    · exact ih
    case h_2 hok => exact ih.run hcall hok

/-- In a run in which no iteration takes an attached context back, no record is of a block above the
current one of its context, and every context can be detached. -/
theorem detach_succeeds (hreach : Reached (fun db call ↦ call.NoStepBack db) db)
    (hc : c ∈ db.contexts) :
    (∀ t ∈ c.tables, ∀ st ∈ t.shadow, st.hiveBlockNum ≤ c.currentBlockNum) ∧
      ∃ c', contextDetach db.toHafd c = .ok c' :=
  ⟨(hreach.safeDb.covered c hc).records,
    (hreach.safeDb.covered c hc).exists_detach hreach.safeDb.full⟩

/-- An application that iterates once and then asks for the next block twice. Its loop still knows
the block after its first batch. -/
def mixedState : Db ℕ := runCalls
  [.hived (.pushBlock (emptyBlock 1 1 0)), .hived (.pushBlock (emptyBlock 2 2 1)),
    .hived (.pushBlock (emptyBlock 3 3 2)), .hived (.setIrreversible 3 true),
    .createContext (.ready 0) "app" true true none 1,
    .nextIteration (.ready 0) ["app"] false none none,
    .nextBlock (.ready 0) ["app"] false none, .nextBlock (.ready 0) ["app"] false none,
    .table "app" (.statement 0 (.insert [3]))]
  { Db.initial ℕ with hiveState := { state := .live } }

theorem mixedState_detach : ∃ c ∈ mixedState.contexts, c.isAttached = true ∧
    c.tables.map (fun t ↦ t.shadow.map ShadowRow.hiveBlockNum) = [[3]] ∧
    ∃ c', contextDetach mixedState.toHafd c = .ok c' := by
  have hreach : Reached (fun db call ↦ call.NoStepBack db) mixedState :=
    (Reached.initial rfl).runCalls (by decide +kernel)
  have hshadow : ∃ c ∈ mixedState.contexts, c.isAttached = true ∧
      c.tables.map (fun t ↦ t.shadow.map ShadowRow.hiveBlockNum) = [[3]] := by decide +kernel
  obtain ⟨c, hc, hattached, hrecords⟩ := hshadow
  exact ⟨c, hc, hattached, hrecords, (detach_succeeds hreach hc).2⟩

def backState : Db ℕ :=
  ContextCall.step mixedState (.nextIteration (.ready 0) ["app"] false none none)

theorem iteration_below_record : ∃ c ∈ backState.contexts, c.isAttached = true ∧
    c.isForking = true ∧ c.currentBlockNum = 2 ∧
    c.tables.map (fun t ↦ t.shadow.map ShadowRow.hiveBlockNum) = [[3]] ∧
    contextDetach backState.toHafd c =
      .error (.raiseException "Cannot detach a table. Shadow table is not empty") := by
  decide +kernel

end Runs

end HiveForkManager.DetachSafety
