import HiveForkManager.GroupClimb

namespace HiveForkManager

variable {ρ : Type}

/-- A row of `hafd.applications` without a `completed_block_function`. -/
structure Application where
  name : String
  contexts : List ContextName
  paused : Bool
  deriving DecidableEq, Repr

structure AppRegistry where
  applications : List Application
  /-- `hafd.application_dependencies`: an application and the one it depends on. -/
  dependencies : List (String × String)
  deriving DecidableEq, Repr

def Application.overlaps (contexts : List ContextName) (a : Application) : Bool :=
  a.contexts.any (· ∈ contexts)

namespace AppRegistry

def appIsPaused (r : AppRegistry) (contexts : List ContextName) : Bool :=
  r.applications.any fun a ↦ a.paused && a.overlaps contexts

def directDependencies (r : AppRegistry) (contexts : List ContextName) : List Application :=
  (r.applications.filter (·.overlaps contexts)).flatMap fun a ↦
    (r.dependencies.filter (·.1 = a.name)).flatMap fun d ↦
      r.applications.filter (·.name = d.2)

def completedBlock (a : Application) (db : Db ρ) : ℕ :=
  ((db.group a.contexts).map Context.currentBlockNum).min?.getD 0

def appDependenciesBlockLimit (r : AppRegistry) (contexts : List ContextName) (db : Db ρ) :
    Option ℕ :=
  (r.directDependencies contexts).foldl
    (fun limit dep ↦ some (leastLimit (completedBlock dep db) limit)) none

def callEnv (r : AppRegistry) (contexts : List ContextName) (env : CallEnv) (db : Db ρ) :
    CallEnv :=
  { env with
    isPaused := r.appIsPaused contexts
    dependenciesBlockLimit := r.appDependenciesBlockLimit contexts db }

def setPaused (name : String) (paused : Bool) (r : AppRegistry) : AppRegistry :=
  { r with applications := r.applications.map fun a ↦
      if a.name = name then { a with paused } else a }

end AppRegistry

structure RegistryState (ρ : Type) where
  db : Db ρ
  registry : AppRegistry
  deriving DecidableEq, Repr

namespace RegistryState

inductive Step where
  | nextBlock (env : CallEnv) (contexts : List ContextName) (wait : Bool) (blockLimit : Option ℕ)
  | nextIteration (env : CallEnv) (contexts : List ContextName) (wait : Bool)
      (overrideMaxBatch limit : Option ℕ)
  | pause (name : String)
  | resume (name : String)
  /-- Anything hived does to its own tables. -/
  | hived (h : Hafd)
  deriving DecidableEq, Repr

def step (s : RegistryState ρ) : Step → RegistryState ρ
  | .nextBlock env contexts wait blockLimit =>
    match appNextBlock (s.registry.callEnv contexts env s.db) contexts wait blockLimit s.db with
    | .ok (db, _) => { s with db := db }
    | .error _ => s
  | .nextIteration env contexts wait overrideMaxBatch limit =>
    match appNextIteration (s.registry.callEnv contexts env s.db) contexts wait overrideMaxBatch
        limit s.db with
    | .ok (db, _) => { s with db := db }
    | .error _ => s
  | .pause name => { s with registry := s.registry.setPaused name true }
  | .resume name => { s with registry := s.registry.setPaused name false }
  | .hived h => { s with db := { s.db with toHafd := h } }

/-- No explicit limit is above that of the dependencies. The contexts of the group are in step,
their block is irreversible for the first one, and an iteration goes on from it. -/
def Respects (s : RegistryState ρ) : Step → Prop
  | .nextBlock _ contexts _ blockLimit =>
    (∀ b ∈ blockLimit, ∀ l ∈ s.registry.appDependenciesBlockLimit contexts s.db, b ≤ l) ∧
      s.db.InStep contexts ∧ ∃ lead, s.db.leadContext contexts = some lead ∧
        lead.currentBlockNum ≤ lead.irreversibleBlock
  | .nextIteration env contexts _ _ _ =>
    s.db.InStep contexts ∧ ∃ lead, s.db.leadContext contexts = some lead ∧
      lead.GoesOn env s.db.toHafd
  | .pause _ | .resume _ | .hived _ => True

/-- Registered applications have contexts, and these start non-forking at block 0. -/
structure Initial (s : RegistryState ρ) : Prop where
  inhabited : ∀ a ∈ s.registry.applications, ∃ c ∈ s.db.contexts, c.name ∈ a.contexts
  start : ∀ c ∈ s.db.contexts, c.currentBlockNum = 0 ∧ c.isForking = false

def run (s : RegistryState ρ) (steps : List Step) : RegistryState ρ := steps.foldl step s

inductive Reachable (s₀ : RegistryState ρ) : RegistryState ρ → Prop
  | initial : Reachable s₀ s₀
  | step {s : RegistryState ρ} (st : Step) (hs : Reachable s₀ s) (hrespects : s.Respects st) :
      Reachable s₀ (s.step st)

end RegistryState

def AppRegistry.DependsOn (r : AppRegistry) (a d : Application) : Prop :=
  a ∈ r.applications ∧ d ∈ r.applications ∧ (a.name, d.name) ∈ r.dependencies

def Db.NotAhead (db : Db ρ) (a d : Application) : Prop :=
  ∀ c ∈ db.contexts, c.name ∈ a.contexts → ∀ c' ∈ db.contexts, c'.name ∈ d.contexts →
    c.currentBlockNum ≤ c'.currentBlockNum

variable {db : Db ρ}

theorem foldl_leastLimit_le {deps : List Application} {limit : Option ℕ} {b : ℕ}
    (h : (∃ l, limit = some l ∧ l ≤ b) ∨
      ∃ d ∈ deps, AppRegistry.completedBlock d db ≤ b) :
    ∃ l, deps.foldl (fun limit dep ↦
      some (leastLimit (AppRegistry.completedBlock dep db) limit)) limit = some l ∧ l ≤ b := by
  induction deps generalizing limit with
  | nil =>
    rcases h with h | ⟨d, hd, -⟩
    · exact h
    · cases hd
  | cons d deps ih =>
    refine ih ?_
    rcases h with ⟨l, rfl, hl⟩ | ⟨d', hd', hle⟩
    · exact Or.inl ⟨_, rfl, (Nat.min_le_right _ _).trans hl⟩
    · rcases List.mem_cons.mp hd' with rfl | hd'
      · refine Or.inl ⟨_, rfl, le_trans ?_ hle⟩
        cases limit with
        | none => exact le_rfl
        | some l => exact Nat.min_le_left _ _
      · exact Or.inr ⟨d', hd', hle⟩

theorem completedBlock_le {d : Application} {c : Context ρ} (hc : c ∈ db.contexts)
    (hname : c.name ∈ d.contexts) : AppRegistry.completedBlock d db ≤ c.currentBlockNum := by
  have hmem : c.currentBlockNum ∈ (db.group d.contexts).map Context.currentBlockNum :=
    List.mem_map_of_mem (List.mem_filter.mpr ⟨hc, decide_eq_true hname⟩)
  rw [AppRegistry.completedBlock]
  cases hmin : ((db.group d.contexts).map Context.currentBlockNum).min? with
  | none => exact Nat.zero_le _
  | some m => exact (List.min?_eq_some_iff.mp hmin).2 _ hmem

theorem AppRegistry.DependsOn.exists_limit {r : AppRegistry} {a d : Application}
    (hdep : r.DependsOn a d) {contexts : List ContextName} {c c' : Context ρ}
    (hname : c.name ∈ a.contexts) (hgroup : c.name ∈ contexts) (hc' : c' ∈ db.contexts)
    (hname' : c'.name ∈ d.contexts) :
    ∃ l, r.appDependenciesBlockLimit contexts db = some l ∧ l ≤ c'.currentBlockNum := by
  refine foldl_leastLimit_le (Or.inr ⟨d, ?_, completedBlock_le hc' hname'⟩)
  obtain ⟨ha, hd, hdeps⟩ := hdep
  simp only [directDependencies, List.mem_flatMap, List.mem_filter, decide_eq_true_eq]
  refine ⟨a, ⟨ha, ?_⟩, (a.name, d.name), ⟨hdeps, rfl⟩, hd, rfl⟩
  exact List.any_eq_true.mpr ⟨c.name, hname, decide_eq_true hgroup⟩

namespace RegistryState

structure Inv (s : RegistryState ρ) : Prop where
  inhabited : ∀ a ∈ s.registry.applications, ∃ c ∈ s.db.contexts, c.name ∈ a.contexts
  nonForking : ∀ c ∈ s.db.contexts, c.isForking = false
  notAhead : ∀ a d, s.registry.DependsOn a d → s.db.NotAhead a d

variable {s : RegistryState ρ}

theorem Initial.inv (h : s.Initial) : s.Inv where
  inhabited := h.inhabited
  nonForking c hc := (h.start c hc).2
  notAhead a d _ c hc _ c' hc' _ := by rw [(h.start c hc).1, (h.start c' hc').1]

theorem inv_of_advances (hinv : s.Inv) {db' : Db ρ} {contexts : List ContextName}
    (hadv : s.db.Advances contexts (s.registry.appDependenciesBlockLimit contexts s.db) db')
    (hmono : s.db.Related (fun c c' ↦ c.currentBlockNum ≤ c'.currentBlockNum) db') :
    Inv { s with db := db' } := by
  have hback : ∀ c' ∈ db'.contexts, ∃ c ∈ s.db.contexts,
      Advances contexts (s.registry.appDependenciesBlockLimit contexts s.db) c c' ∧
        c.currentBlockNum ≤ c'.currentBlockNum := fun c' hc' ↦ by
    obtain ⟨i, hi, rfl⟩ := List.mem_iff_getElem.mp hc'
    have hi' : i < s.db.contexts.length := (List.Forall₂.length_eq hadv).symm ▸ hi
    exact ⟨_, List.get_mem _ ⟨i, hi'⟩, (List.forall₂_iff_get.mp hadv).2 i hi' hi,
      (List.forall₂_iff_get.mp hmono).2 i hi' hi⟩
  refine ⟨fun a ha ↦ ?_, fun c' hc' ↦ ?_, fun a d hdep c₁' hc₁' hn₁ c₂' hc₂' hn₂ ↦ ?_⟩
  · obtain ⟨c, hc, hname⟩ := hinv.inhabited a ha
    obtain ⟨i, hi, rfl⟩ := List.mem_iff_getElem.mp hc
    have hi' : i < db'.contexts.length := List.Forall₂.length_eq hadv ▸ hi
    have hrel := (List.forall₂_iff_get.mp hadv).2 i hi hi'
    exact ⟨_, List.get_mem _ ⟨i, hi'⟩, hrel.name ▸ hname⟩
  · obtain ⟨c, hc, hrel, -⟩ := hback c' hc'
    rw [hrel.isForking]
    exact hinv.nonForking c hc
  · obtain ⟨c₁, hc₁, hrel₁, -⟩ := hback c₁' hc₁'
    obtain ⟨c₂, hc₂, hrel₂, hle₂⟩ := hback c₂' hc₂'
    rw [hrel₁.name] at hn₁
    rw [hrel₂.name] at hn₂
    rcases hrel₁.moved with hle | ⟨hgroup, hle⟩
    · exact hle.trans ((hinv.notAhead a d hdep c₁ hc₁ hn₁ c₂ hc₂ hn₂).trans hle₂)
    · obtain ⟨l, hl, hlc⟩ := hdep.exists_limit hn₁ hgroup hc₂ hn₂
      exact (hle l hl).trans (hlc.trans hle₂)

theorem inv_setPaused (hinv : s.Inv) (name : String) (paused : Bool) :
    Inv { s with registry := s.registry.setPaused name paused } := by
  have hsame : ∀ a ∈ (s.registry.setPaused name paused).applications,
      ∃ a₀ ∈ s.registry.applications, a.name = a₀.name ∧ a.contexts = a₀.contexts := by
    intro a ha
    obtain ⟨a₀, ha₀, rfl⟩ := List.mem_map.mp ha
    refine ⟨a₀, ha₀, ?_⟩
    split <;> exact ⟨rfl, rfl⟩
  refine ⟨fun a ha ↦ ?_, hinv.nonForking, fun a d hdep ↦ ?_⟩
  · obtain ⟨a₀, ha₀, -, hcontexts⟩ := hsame a ha
    rw [hcontexts]
    exact hinv.inhabited a₀ ha₀
  · obtain ⟨ha, hd, hdeps⟩ := hdep
    obtain ⟨a₀, ha₀, hname, hcontexts⟩ := hsame a ha
    obtain ⟨d₀, hd₀, hname', hcontexts'⟩ := hsame d hd
    have := hinv.notAhead a₀ d₀ ⟨ha₀, hd₀, by rw [← hname, ← hname']; exact hdeps⟩
    rwa [Db.NotAhead, ← hcontexts, ← hcontexts'] at this

theorem inv_step (hinv : s.Inv) {st : Step} (hrespects : s.Respects st) : (s.step st).Inv := by
  cases st with
  | nextBlock env contexts wait blockLimit =>
    obtain ⟨hlimit, hstep, lead, hlead, hle⟩ := hrespects
    simp only [step]
    split
    case h_1 db _ hok =>
      have hnon : s.db.NonForking contexts := fun c hc _ ↦ hinv.nonForking c hc
      have hadv := appNextBlock_advances hnon hok
      suffices h : s.db.Advances contexts (s.registry.appDependenciesBlockLimit contexts s.db) db
        from inv_of_advances hinv h (appNextBlock_climbs hnon hstep hlead hle hok)
      cases blockLimit with
      | none => exact hadv
      | some b =>
        refine hadv.imp fun c _ c' hc ↦ ⟨hc.name, hc.isForking, hc.moved.imp_right ?_⟩
        exact fun ⟨hgroup, hle⟩ ↦ ⟨hgroup, fun l hl ↦ (hle b rfl).trans (hlimit b rfl l hl)⟩
    case h_2 => exact hinv
  | nextIteration env contexts wait overrideMaxBatch limit =>
    obtain ⟨hstep, lead, hlead, hgoes⟩ := hrespects
    simp only [step]
    split
    case h_1 db _ hok =>
      have hnon : s.db.NonForking contexts := fun c hc _ ↦ hinv.nonForking c hc
      have hgoes' : lead.GoesOn (s.registry.callEnv contexts env s.db) s.db.toHafd := hgoes
      exact inv_of_advances hinv (appNextIteration_advances hnon hok)
        (appNextIteration_climbs hnon hstep hlead hgoes' hok)
    case h_2 => exact hinv
  | pause name => exact inv_setPaused hinv name true
  | resume name => exact inv_setPaused hinv name false
  | hived h => exact ⟨hinv.inhabited, hinv.nonForking, hinv.notAhead⟩

theorem Reachable.inv {s₀ : RegistryState ρ} (h₀ : s₀.Initial) (h : Reachable s₀ s) : s.Inv := by
  induction h with
  | initial => exact h₀.inv
  | step st hs hrespects ih => exact inv_step ih hrespects

/-- No application is ahead of one it depends on, directly or through a chain. -/
theorem dependency_order {s₀ s : RegistryState ρ} (h₀ : s₀.Initial) (h : Reachable s₀ s)
    {a d : Application} (hdep : Relation.TransGen s.registry.DependsOn a d) : s.db.NotAhead a d := by
  have hinv := h.inv h₀
  induction hdep with
  | single hdep => exact hinv.notAhead a _ hdep
  | tail _ hdep ih =>
    obtain ⟨c, hc, hname⟩ := hinv.inhabited _ hdep.1
    exact fun c₁ hc₁ hn₁ c₂ hc₂ hn₂ ↦
      (ih c₁ hc₁ hn₁ c hc hname).trans (hinv.notAhead _ _ hdep c hc hname c₂ hc₂ hn₂)

/-- Three irreversible blocks and two applications, `A` depending on `D`. -/
def twoApplications : RegistryState ℕ where
  db := { Hafd.initial with
    hiveState := { consistentBlock := some 3, state := .live }
    irreversible := { blocks := [1, 2, 3].map fun n ↦ { (default : Block) with num := n } }
    contexts := ["a", "d"].map fun name ↦ ⟨name, 0, 3, 0, 1, false, false, 0, none, {}, []⟩ }
  registry := ⟨[⟨"A", ["a"], false⟩, ⟨"D", ["d"], false⟩], [("A", "D")]⟩

def someEnv : CallEnv := ⟨1000, true, true, false, none⟩

theorem dependency_order_of_two_calls :
    (twoApplications.run [.nextIteration someEnv ["d"] false (some 2) none,
      .nextBlock someEnv ["a"] false none]).db.NotAhead ⟨"A", ["a"], false⟩ ⟨"D", ["d"], false⟩ := by
  have hinitial : twoApplications.Initial := ⟨by decide, by decide⟩
  have hrun : Reachable twoApplications (twoApplications.run
      [.nextIteration someEnv ["d"] false (some 2) none, .nextBlock someEnv ["a"] false none]) := by
    refine .step (.nextBlock someEnv ["a"] false none)
      (.step (.nextIteration someEnv ["d"] false (some 2) none) .initial ⟨?_, _, rfl, ?_⟩)
      ⟨by decide, ?_, _, rfl, by decide +kernel⟩
    · unfold Db.InStep
      decide +kernel
    · rw [Context.GoesOn, if_pos (by decide +kernel)]
      decide +kernel
    · unfold Db.InStep
      decide +kernel
  exact dependency_order hinitial hrun (.single (by unfold AppRegistry.DependsOn; decide +kernel))

/-- An explicit limit replaces that of the dependencies: `A` is given block 1 while `D` is at block
0. And an iteration goes on from the end of its last batch, also when `app_next_block` has moved
the context further: `D` falls back behind `A`. -/
theorem dependency_overtaken :
    ((twoApplications.run [.nextBlock someEnv ["a"] false (some 1)]).db.contexts.map fun c ↦
      (c.name, c.currentBlockNum)) = [("a", 1), ("d", 0)] ∧
    ((twoApplications.run [.nextIteration someEnv ["d"] false (some 1) none,
        .nextBlock someEnv ["d"] false none, .nextBlock someEnv ["d"] false none,
        .nextBlock someEnv ["a"] false none, .nextBlock someEnv ["a"] false none,
        .nextBlock someEnv ["a"] false none,
        .nextIteration someEnv ["d"] false (some 1) none]).db.contexts.map fun c ↦
      (c.name, c.currentBlockNum)) = [("a", 3), ("d", 2)] := by
  decide +kernel

end RegistryState

end HiveForkManager
