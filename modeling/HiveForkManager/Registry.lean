import HiveForkManager.Lib.Reach
import HiveForkManager.AppRegistry

namespace HiveForkManager

open Reach

/-- A row of `hafd.applications`. -/
structure ApplicationRow extends Application where
  processProcedure : Option String
  completedBlockFunction : Option String
  deriving DecidableEq, Repr

structure Registry where
  /-- The names in `hafd.contexts`. -/
  contexts : List ContextName
  applications : List ApplicationRow
  /-- `hafd.application_dependencies`: an application and the one it depends on. -/
  dependencies : List (String × String)
  deriving DecidableEq, Repr

/-- The caller of `app_register`, and the functions it can name. -/
structure RegistryEnv where
  currentUser : String
  /-- `hive.can_impersonate` for the owner of a context. -/
  canImpersonate : ContextName → Bool
  /-- `to_regprocedure` finds the function. -/
  isProcedure : String → Bool

namespace Registry

def names (r : Registry) : List String := r.applications.map (fun a ↦ a.name)

def takenContext (name : String) (contexts : List ContextName) (r : Registry) :
    Option (String × ContextName) :=
  (r.applications.filter (fun a ↦ decide (a.name ≠ name))).findSome? fun a ↦
    (contexts.find? (fun c ↦ decide (c ∈ a.contexts))).map (a.name, ·)

/-- `INSERT … ON CONFLICT ( name ) DO UPDATE`, which keeps `paused`. -/
def upsert (name : String) (contexts : List ContextName)
    (processProcedure completedBlockFunction : Option String) (r : Registry) : Registry :=
  if name ∈ r.names then
    { r with applications := r.applications.map fun a ↦
        if a.name = name then { a with contexts, processProcedure, completedBlockFunction } else a }
  else
    { r with applications := r.applications ++
        [{ name, contexts, paused := false, processProcedure, completedBlockFunction }] }

def appRegister (env : RegistryEnv) (name : String) (contexts : List ContextName)
    (processProcedure completedBlockFunction : Option String) (r : Registry) :
    Except Error Registry :=
  let cannot (why : String) : Except Error Registry :=
    .error (.raiseException ("Cannot register application " ++ name ++ ": " ++ why))
  if contexts = [] then
    .error (.raiseException "value for domain hive.contexts_group violates non_empty_contexts_group")
  else match contexts.find? (fun c ↦ decide (c ∉ r.contexts)) with
  | some missing => cannot ("context " ++ missing ++ " does not exist")
  | none =>
    if contexts.any (fun c ↦ !env.canImpersonate c) then
      cannot ("role " ++ env.currentUser ++ " does not own all of its contexts")
    else if r.applications.any (fun a ↦ decide (a.name ≠ name ∧ contexts ⊆ a.contexts)) then .ok r
    else match r.takenContext name contexts with
    | some (takenBy, taken) =>
      cannot ("context " ++ taken ++ " already belongs to application " ++ takenBy)
    | none =>
      if processProcedure.any (fun p ↦ !env.isProcedure (p ++ "( hive.blocks_range )")) then
        cannot ("procedure " ++ processProcedure.getD "" ++ "( hive.blocks_range ) does not exist")
      else if completedBlockFunction.any (fun f ↦ !env.isProcedure (f ++ "()")) then
        cannot ("function " ++ completedBlockFunction.getD "" ++ "() does not exist")
      else if name = "" then
        .error (.raiseException "violates chk_hive_applications_name")
      else
        .ok (r.upsert name contexts processProcedure completedBlockFunction)

/-- The dependencies go with the application (`ON DELETE CASCADE`). -/
def appUnregister (name : String) (r : Registry) : Except Error Registry :=
  if name ∉ r.names then
    .error (.raiseException ("Application " ++ name ++ " is not registered"))
  else
    .ok { r with
      applications := r.applications.filter (fun a ↦ decide (a.name ≠ name))
      dependencies := r.dependencies.filter (fun d ↦ decide (d.1 ≠ name ∧ d.2 ≠ name)) }

local instance : LawfulBEq (String × String) := Prod.instLawfulBEq

def appAddDependency (name dependsOn : String) (r : Registry) : Except Error Registry :=
  if name ∉ r.names then
    .error (.raiseException ("Application " ++ name ++ " is not registered"))
  else if dependsOn ∉ r.names then
    .error (.raiseException ("Application " ++ dependsOn ++ " is not registered"))
  else if name = dependsOn then
    .error (.raiseException ("Application " ++ name ++ " cannot depend on itself"))
  else if name ∈ reach r.dependencies dependsOn then
    .error (.raiseException ("Cannot make application " ++ name ++ " depend on " ++ dependsOn ++
      ": it would create a dependency cycle"))
  else if (name, dependsOn) ∈ r.dependencies then .ok r
  else .ok { r with dependencies := r.dependencies ++ [(name, dependsOn)] }

def appRemoveDependency (name dependsOn : String) (r : Registry) : Except Error Registry :=
  if (name, dependsOn) ∉ r.dependencies then
    .error (.raiseException ("Application " ++ name ++ " does not depend on " ++ dependsOn))
  else
    .ok { r with dependencies := r.dependencies.filter (fun d ↦ decide (d ≠ (name, dependsOn))) }

def appSetPaused (paused : Bool) (name : String) (r : Registry) : Except Error Registry :=
  if name ∉ r.names then
    .error (.raiseException ("Application " ++ name ++ " is not registered"))
  else
    .ok { r with applications := r.applications.map fun a ↦
      if a.name = name then { a with paused } else a }

/-- `SELECT … INTO` takes one application of the context. -/
def appRegistryContextRemoved (context : ContextName) (r : Registry) : Except Error Registry :=
  match r.applications.find? (fun a ↦ decide (context ∈ a.contexts)) with
  | none => .ok r
  | some app =>
    let contexts := app.contexts.filter (fun c ↦ decide (c ≠ context))
    if contexts = [] then r.appUnregister app.name
    else .ok { r with applications := r.applications.map fun a ↦
      if a.name = app.name then { a with contexts } else a }

def contextCreate (name : ContextName) (r : Registry) : Except Error Registry :=
  if name ∈ r.contexts then .error (.uniqueViolation "uq_hive_context_name")
  else .ok { r with contexts := r.contexts ++ [name] }

/-- What `hive.context_remove` does to the registry. -/
def contextRemove (name : ContextName) (r : Registry) : Except Error Registry :=
  if name ∉ r.contexts then
    .error (.raiseException ("Context " ++ name ++ " does not exist"))
  else do
    let r ← r.appRegistryContextRemoved name
    pure { r with contexts := r.contexts.filter (fun c ↦ decide (c ≠ name)) }

inductive Call where
  | register (env : RegistryEnv) (name : String) (contexts : List ContextName)
      (processProcedure completedBlockFunction : Option String)
  | unregister (name : String)
  | addDependency (name dependsOn : String)
  | removeDependency (name dependsOn : String)
  | setPaused (paused : Bool) (name : String)
  | contextCreate (name : ContextName)
  | contextRemove (name : ContextName)

def Call.execute (r : Registry) : Call → Except Error Registry
  | register env name contexts procedure function =>
    r.appRegister env name contexts procedure function
  | unregister name => r.appUnregister name
  | addDependency name dependsOn => r.appAddDependency name dependsOn
  | removeDependency name dependsOn => r.appRemoveDependency name dependsOn
  | setPaused paused name => r.appSetPaused paused name
  | contextCreate name => r.contextCreate name
  | contextRemove name => r.contextRemove name

def step (r : Registry) (call : Call) : Registry :=
  match call.execute r with
  | .error _ => r
  | .ok r' => r'

def run (r : Registry) (calls : List Call) : Registry := calls.foldl step r

def empty (contexts : List ContextName) : Registry := ⟨contexts, [], []⟩

structure Valid (r : Registry) : Prop where
  names : r.names.Nodup
  acyclic : Acyclic r.dependencies
  registered : ∀ d ∈ r.dependencies, d.1 ∈ r.names ∧ d.2 ∈ r.names
  existing : ∀ a ∈ r.applications, ∀ c ∈ a.contexts, c ∈ r.contexts
  owner : ∀ a ∈ r.applications, ∀ a' ∈ r.applications, ∀ c ∈ a.contexts, c ∈ a'.contexts →
    a.name = a'.name

theorem Valid.empty (contexts : List ContextName) : (empty contexts).Valid where
  names := List.nodup_nil
  acyclic _ h := by
    obtain ⟨c, -, h⟩ := Relation.TransGen.tail'_iff.mp h
    cases h
  registered _ h := by cases h
  existing _ h := by cases h
  owner _ h := by cases h

variable {r r' : Registry} {name dependsOn : String} {contexts : List ContextName}

theorem takenContext_eq_none (h : r.takenContext name contexts = none) {a : ApplicationRow}
    (ha : a ∈ r.applications) (hname : a.name ≠ name) {c : ContextName} (hc : c ∈ contexts) :
    c ∉ a.contexts := by
  have hfind := List.findSome?_eq_none_iff.mp h a
    (List.mem_filter.mpr ⟨ha, by simpa using hname⟩)
  rw [Option.map_eq_none_iff, List.find?_eq_none] at hfind
  simpa using hfind c hc

theorem Valid.mapApplications (h : r.Valid) {f : ApplicationRow → ApplicationRow}
    (hname : ∀ a, (f a).name = a.name)
    (hexisting : ∀ a ∈ r.applications, ∀ c ∈ (f a).contexts, c ∈ r.contexts)
    (howner : ∀ a ∈ r.applications, ∀ a' ∈ r.applications, ∀ c ∈ (f a).contexts,
      c ∈ (f a').contexts → a.name = a'.name) :
    Valid { r with applications := r.applications.map f } := by
  have hnames : Registry.names { r with applications := r.applications.map f } = r.names := by
    simp [Registry.names, hname]
  refine ⟨hnames ▸ h.names, h.acyclic, hnames ▸ h.registered, ?_, ?_⟩
  · exact List.forall_mem_map.mpr hexisting
  · refine List.forall_mem_map.mpr fun a ha ↦ List.forall_mem_map.mpr fun a' ha' c hc hc' ↦ ?_
    rw [hname, hname]
    exact howner a ha a' ha' c hc hc'

theorem Valid.upsert (h : r.Valid) (hexisting : ∀ c ∈ contexts, c ∈ r.contexts)
    (hfree : ∀ a ∈ r.applications, a.name ≠ name → ∀ c ∈ contexts, c ∉ a.contexts)
    (procedure function : Option String) : (r.upsert name contexts procedure function).Valid := by
  rw [Registry.upsert]
  split
  · refine h.mapApplications (fun a ↦ by split <;> rfl) ?_ ?_
    · intro a ha c hc
      split at hc
      · exact hexisting c hc
      · exact h.existing a ha c hc
    · intro a ha a' ha' c hc hc'
      split at hc <;> split at hc' <;> rename_i hname hname'
      · rw [hname, hname']
      · exact absurd hc' (hfree a' ha' hname' c hc)
      · exact absurd hc (hfree a ha hname c hc')
      · exact h.owner a ha a' ha' c hc hc'
  · rename_i hnew
    have hne : ∀ a ∈ r.applications, a.name ≠ name := by
      rintro a ha rfl
      exact hnew (List.mem_map_of_mem ha)
    have hnames : ∀ a : ApplicationRow, a.name = name →
        Registry.names { r with applications := r.applications ++ [a] } = r.names ++ [name] := by
      rintro a rfl
      simp [Registry.names]
    refine ⟨?_, h.acyclic, ?_, ?_, ?_⟩
    · rw [hnames _ rfl]
      refine List.Nodup.append h.names (List.nodup_singleton _) ?_
      simpa using hnew
    · intro d hd
      rw [hnames _ rfl]
      exact ⟨List.mem_append_left _ (h.registered d hd).1,
        List.mem_append_left _ (h.registered d hd).2⟩
    · refine List.forall_mem_append.mpr ⟨h.existing, ?_⟩
      simpa using hexisting
    · intro a ha a' ha' c hc hc'
      rcases List.mem_append.mp ha with ha | ha <;> rcases List.mem_append.mp ha' with ha' | ha'
      · exact h.owner a ha a' ha' c hc hc'
      · rw [List.mem_singleton.mp ha'] at hc'
        exact absurd hc (hfree a ha (hne a ha) c hc')
      · rw [List.mem_singleton.mp ha] at hc
        exact absurd hc' (hfree a' ha' (hne a' ha') c hc)
      · rw [List.mem_singleton.mp ha, List.mem_singleton.mp ha']

theorem Valid.appRegister (h : r.Valid) {env : RegistryEnv} {procedure function : Option String}
    (hok : r.appRegister env name contexts procedure function = .ok r') : r'.Valid := by
  simp only [Registry.appRegister] at hok
  split at hok
  · cases hok
  split at hok
  · cases hok
  rename_i hmissing
  split at hok
  · cases hok
  split at hok
  · cases hok
    exact h
  split at hok
  · cases hok
  rename_i htaken
  split at hok
  · cases hok
  split at hok
  · cases hok
  split at hok
  · cases hok
  cases hok
  refine h.upsert ?_ (fun a ha hname c hc ↦ takenContext_eq_none htaken ha hname hc) _ _
  intro c hc
  simpa using List.find?_eq_none.mp hmissing c hc

theorem Valid.appUnregister (h : r.Valid) (hok : r.appUnregister name = .ok r') : r'.Valid := by
  rw [Registry.appUnregister] at hok
  split at hok
  · cases hok
  cases hok
  have hkept : ∀ n ∈ r.names, n ≠ name → n ∈ Registry.names { r with
      applications := r.applications.filter (fun a ↦ decide (a.name ≠ name)) } := by
    intro n hn hne
    obtain ⟨a, ha, rfl⟩ := List.mem_map.mp hn
    exact List.mem_map_of_mem (List.mem_filter.mpr ⟨ha, by simpa using hne⟩)
  refine ⟨?_, ?_, ?_, ?_, ?_⟩
  · exact h.names.sublist (List.filter_sublist.map _)
  · exact h.acyclic.mono fun e he ↦ (List.mem_filter.mp he).1
  · intro d hd
    obtain ⟨hd, hne⟩ := List.mem_filter.mp hd
    rw [decide_eq_true_eq] at hne
    obtain ⟨h₁, h₂⟩ := h.registered d hd
    exact ⟨hkept _ h₁ hne.1, hkept _ h₂ hne.2⟩
  · exact fun a ha ↦ h.existing a (List.mem_filter.mp ha).1
  · exact fun a ha a' ha' ↦ h.owner a (List.mem_filter.mp ha).1 a' (List.mem_filter.mp ha').1

theorem Valid.appAddDependency (h : r.Valid) (hok : r.appAddDependency name dependsOn = .ok r') :
    r'.Valid := by
  rw [Registry.appAddDependency] at hok
  split at hok
  · cases hok
  rename_i hname
  split at hok
  · cases hok
  rename_i hdependsOn
  split at hok
  · cases hok
  split at hok
  · cases hok
  rename_i hreach
  split at hok
  · cases hok
    exact h
  cases hok
  refine ⟨h.names, ?_, ?_, h.existing, h.owner⟩
  · exact (acyclic_append_iff h.acyclic).mpr fun hpath ↦ hreach (mem_reach.mpr hpath)
  · refine List.forall_mem_append.mpr ⟨h.registered, ?_⟩
    rintro d hd
    rw [List.mem_singleton.mp hd]
    exact ⟨not_not.mp hname, not_not.mp hdependsOn⟩

theorem Valid.appRemoveDependency (h : r.Valid)
    (hok : r.appRemoveDependency name dependsOn = .ok r') : r'.Valid := by
  rw [Registry.appRemoveDependency] at hok
  split at hok
  · cases hok
  cases hok
  exact ⟨h.names, h.acyclic.mono fun e he ↦ (List.mem_filter.mp he).1,
    fun d hd ↦ h.registered d (List.mem_filter.mp hd).1, h.existing, h.owner⟩

theorem Valid.appSetPaused (h : r.Valid) {paused : Bool}
    (hok : r.appSetPaused paused name = .ok r') : r'.Valid := by
  rw [Registry.appSetPaused] at hok
  split at hok
  · cases hok
  cases hok
  have hcontexts : ∀ a : ApplicationRow,
      (if a.name = name then { a with paused } else a).contexts = a.contexts := by
    intro a
    split <;> rfl
  refine h.mapApplications (fun a ↦ by split <;> rfl) ?_ ?_
  · intro a ha c hc
    rw [hcontexts] at hc
    exact h.existing a ha c hc
  · intro a ha a' ha' c hc hc'
    rw [hcontexts] at hc hc'
    exact h.owner a ha a' ha' c hc hc'

theorem Valid.contextRemoved (h : r.Valid) {context : ContextName}
    (hok : r.appRegistryContextRemoved context = .ok r') :
    r'.Valid ∧ r'.contexts = r.contexts ∧ ∀ a ∈ r'.applications, context ∉ a.contexts := by
  rw [appRegistryContextRemoved] at hok
  split at hok
  · rename_i hnone
    cases hok
    exact ⟨h, rfl, fun a ha ↦ by simpa using List.find?_eq_none.mp hnone a ha⟩
  rename_i app hsome
  have happ := List.mem_of_find?_eq_some hsome
  have hmem : context ∈ app.contexts := by simpa using List.find?_some hsome
  have hone : ∀ a ∈ r.applications, a.name ≠ app.name → context ∉ a.contexts :=
    fun a ha hne hc ↦ hne (h.owner a ha app happ context hc hmem)
  dsimp only at hok
  split at hok
  · refine ⟨h.appUnregister hok, ?_⟩
    rw [Registry.appUnregister] at hok
    split at hok
    · cases hok
    cases hok
    refine ⟨rfl, fun a ha ↦ ?_⟩
    obtain ⟨ha, hne⟩ := List.mem_filter.mp ha
    exact hone a ha (by simpa using hne)
  · cases hok
    have hpart : ∀ a ∈ r.applications, ∀ c,
        c ∈ (if a.name = app.name then
          ({ a with contexts := app.contexts.filter (fun c ↦ decide (c ≠ context)) } :
            ApplicationRow) else a).contexts →
        c ∈ a.contexts ∧ c ≠ context := by
      intro a ha c hc
      split at hc
      · rename_i hname
        obtain rfl : a = app := List.inj_on_of_nodup_map h.names ha happ hname
        simpa using hc
      · exact ⟨hc, fun hcontext ↦ hone a ha ‹_› (hcontext ▸ hc)⟩
    refine ⟨h.mapApplications (fun a ↦ by split <;> rfl) ?_ ?_, rfl, ?_⟩
    · exact fun a ha c hc ↦ h.existing a ha c (hpart a ha c hc).1
    · exact fun a ha a' ha' c hc hc' ↦
        h.owner a ha a' ha' c (hpart a ha c hc).1 (hpart a' ha' c hc').1
    · exact List.forall_mem_map.mpr fun a ha hc ↦ (hpart a ha context hc).2 rfl

theorem Valid.contextCreate (h : r.Valid) (hok : r.contextCreate name = .ok r') : r'.Valid := by
  rw [Registry.contextCreate] at hok
  split at hok
  · cases hok
  cases hok
  exact ⟨h.names, h.acyclic, h.registered,
    fun a ha c hc ↦ List.mem_append_left _ (h.existing a ha c hc), h.owner⟩

theorem Valid.contextRemove (h : r.Valid) (hok : r.contextRemove name = .ok r') : r'.Valid := by
  rw [Registry.contextRemove] at hok
  split at hok
  · cases hok
  obtain ⟨removed, hremoved, hok⟩ := ExceptList.bind_eq_ok.mp hok
  cases hok
  obtain ⟨hvalid, -, hgone⟩ := h.contextRemoved hremoved
  refine ⟨hvalid.names, hvalid.acyclic, hvalid.registered, ?_, hvalid.owner⟩
  intro a ha c hc
  refine List.mem_filter.mpr ⟨hvalid.existing a ha c hc, ?_⟩
  rw [decide_eq_true_eq]
  rintro rfl
  exact hgone a ha hc

theorem Valid.step (h : r.Valid) (call : Call) : (r.step call).Valid := by
  rw [Registry.step]
  split
  · exact h
  · rename_i r' hok
    cases call with
    | register env name contexts procedure function => exact h.appRegister hok
    | unregister name => exact h.appUnregister hok
    | addDependency name dependsOn => exact h.appAddDependency hok
    | removeDependency name dependsOn => exact h.appRemoveDependency hok
    | setPaused paused name => exact h.appSetPaused hok
    | contextCreate name => exact h.contextCreate hok
    | contextRemove name => exact h.contextRemove hok

theorem Valid.run (h : r.Valid) (calls : List Call) : (r.run calls).Valid := by
  induction calls generalizing r with
  | nil => exact h
  | cons call calls ih => exact ih (h.step call)

theorem Valid.appAddDependency_error_iff (h : r.Valid) (hname : name ∈ r.names)
    (hdependsOn : dependsOn ∈ r.names) :
    (∃ e, r.appAddDependency name dependsOn = .error e) ↔
      ¬ Acyclic (r.dependencies ++ [(name, dependsOn)]) := by
  rw [acyclic_append_iff h.acyclic, not_not, ← mem_reach, Registry.appAddDependency,
    if_neg (not_not.mpr hname), if_neg (not_not.mpr hdependsOn)]
  by_cases heq : name = dependsOn
  · rw [if_pos heq, heq]
    exact ⟨fun _ ↦ mem_reach.mpr .refl, fun _ ↦ ⟨_, rfl⟩⟩
  · rw [if_neg heq]
    by_cases hreach : name ∈ reach r.dependencies dependsOn
    · rw [if_pos hreach]
      exact ⟨fun _ ↦ hreach, fun _ ↦ ⟨_, rfl⟩⟩
    · rw [if_neg hreach]
      refine ⟨?_, fun hin ↦ absurd hin hreach⟩
      rintro ⟨e, he⟩
      split at he <;> cases he

/-- The registry after any calls: dependencies are between registered applications and have no
cycle, a listed context exists and is part of one application only, and a dependency between
registered applications is refused exactly when it would close a cycle. -/
theorem registry_invariants (contexts : List ContextName) (calls : List Call) :
    (∀ app, ¬ Relation.TransGen (Edge ((empty contexts).run calls).dependencies) app app) ∧
    (∀ d ∈ ((empty contexts).run calls).dependencies,
      d.1 ∈ ((empty contexts).run calls).names ∧ d.2 ∈ ((empty contexts).run calls).names) ∧
    (∀ a ∈ ((empty contexts).run calls).applications, ∀ c ∈ a.contexts,
      c ∈ ((empty contexts).run calls).contexts ∧
      ∀ a' ∈ ((empty contexts).run calls).applications, c ∈ a'.contexts → a' = a) ∧
    ∀ name ∈ ((empty contexts).run calls).names,
      ∀ dependsOn ∈ ((empty contexts).run calls).names,
        ((∃ e, ((empty contexts).run calls).appAddDependency name dependsOn = .error e) ↔
          ∃ app, Relation.TransGen
            (Edge (((empty contexts).run calls).dependencies ++ [(name, dependsOn)])) app app) := by
  have h : ((empty contexts).run calls).Valid := (Valid.empty contexts).run calls
  refine ⟨h.acyclic, h.registered, fun a ha c hc ↦ ⟨h.existing a ha c hc, ?_⟩, ?_⟩
  · exact fun a' ha' hc' ↦ List.inj_on_of_nodup_map h.names ha' ha (h.owner a' ha' a ha c hc' hc)
  · intro name hname dependsOn hdependsOn
    rw [h.appAddDependency_error_iff hname hdependsOn, Acyclic]
    simp only [not_forall, not_not]

def twoApplications : List Call :=
  let env : RegistryEnv := ⟨"owner", fun _ ↦ true, fun _ ↦ true⟩
  [.contextCreate "z", .register env "a" ["x"] none none, .register env "b" ["y"] none none,
    .addDependency "a" "b", .register env "b" ["z"] none none, .contextRemove "y"]

theorem twoApplications_refuse_cycle :
    (∃ e, ((empty ["x", "y"]).run twoApplications).appAddDependency "b" "a" = .error e) ∧
      ∃ app, Relation.TransGen (Edge
        (((empty ["x", "y"]).run twoApplications).dependencies ++ [("b", "a")])) app app := by
  have hrefused : ∃ e, ((empty ["x", "y"]).run twoApplications).appAddDependency "b" "a" =
      .error e := ⟨_, rfl⟩
  exact ⟨hrefused, ((registry_invariants ["x", "y"] twoApplications).2.2.2 "b" (by decide +kernel)
    "a" (by decide +kernel)).mp hrefused⟩

end Registry

end HiveForkManager
