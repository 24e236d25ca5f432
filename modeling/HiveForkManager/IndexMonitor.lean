import HiveForkManager.IndexText
import HiveForkManager.Indexes

namespace HiveForkManager

open ExceptList IndexState

/-- What PostgreSQL makes of a character under `lower` and of a stored command: the name of what it
creates, and whether it says `IF NOT EXISTS`. -/
structure CommandReader where
  lower : Char → Char
  objectName : String → String
  ifNotExists : String → Bool

def CommandReader.parse (reader : CommandReader) (text : String) : Option CreateIndex :=
  (IndexText.parseCreateIndexCommand reader.lower text.toList).map fun p ↦
    { indexName := String.ofList p.indexName
      tableName := String.ofList p.tableName
      command := ⟨String.ofList p.canonicalizedCommand,
        reader.ifNotExists (String.ofList p.canonicalizedCommand)⟩ }

inductive BuildPhase where
  | connecting
  | idle
  /-- The status is about to be set to `creating`. -/
  | marking (x : IndexRow)
  /-- The command is about to be executed. -/
  | marked (x : IndexRow)
  | building (x : IndexRow)
  /-- The command ended, the status is about to be set to `created`. -/
  | built (x : IndexRow)
  | done (x : IndexRow)
  /-- `reset_failed_index` is about to drop the index. -/
  | failed (x : IndexRow)
  /-- `reset_failed_index` is about to set the status to `missing`. -/
  | dropped (x : IndexRow)
  deriving DecidableEq, Repr

/-- A thread that runs `build_missing_indexes`. -/
structure Build where
  tableName : String
  pending : List IndexRow
  phase : BuildPhase
  deriving DecidableEq, Repr

def BuildPhase.statement : BuildPhase → Option IndexRow
  | .marking x | .marked x | .building x | .built x | .done x => some x
  | .connecting | .idle | .failed _ | .dropped _ => none

def BuildPhase.current : BuildPhase → Option IndexRow
  | .connecting | .idle => none
  | .marking x | .marked x | .building x | .built x | .done x | .failed x | .dropped x => some x

theorem current_of_statement {phase : BuildPhase} {x : IndexRow} (h : phase.statement = some x) :
    phase.current = some x := by
  cases phase <;> first | exact h | cases h

def Build.items (b : Build) : List IndexRow := b.phase.current.toList ++ b.pending

def IndexState.markByName (status : IndexStatus) (name : String) (s : IndexState) : IndexState :=
  s.setStatus status (fun r ↦ decide (r.name = name))

def IndexState.validate (name : String) (s : IndexState) : IndexState :=
  { s with pg := s.pg.map fun p ↦ if p.name = name then { p with valid := true } else p }

def IndexState.beginBuild (name : String) (x : IndexRow) (s : IndexState) : IndexState :=
  { s with pg := s.pg ++ [⟨x.tableName, name, x.isConstraint, x.command.text, false⟩] }

inductive Build.Step (objectName : String → String) : Build → IndexState → Build → IndexState → Prop
  | select {t s} : Step objectName ⟨t, [], .connecting⟩ s ⟨t, s.missingRows t, .idle⟩ s
  | next {t x xs s} : Step objectName ⟨t, x :: xs, .idle⟩ s ⟨t, xs, .marking x⟩ s
  | nextDone {t x xs y s} : Step objectName ⟨t, x :: xs, .done y⟩ s ⟨t, xs, .marking x⟩ s
  | mark {t xs x s} :
      Step objectName ⟨t, xs, .marking x⟩ s ⟨t, xs, .marked x⟩ (s.markByName .creating x.name)
  | create {t xs x s} : (∀ p ∈ s.pg, p.name ≠ objectName x.command.text) →
      Step objectName ⟨t, xs, .marked x⟩ s ⟨t, xs, .building x⟩
        (s.beginBuild (objectName x.command.text) x)
  | skip {t xs x s} : (∃ p ∈ s.pg, p.name = objectName x.command.text) →
      x.command.ifNotExists = true →
      Step objectName ⟨t, xs, .marked x⟩ s ⟨t, xs, .built x⟩ s
  | finish {t xs x s} :
      Step objectName ⟨t, xs, .building x⟩ s ⟨t, xs, .built x⟩
        (s.validate (objectName x.command.text))
  | markCreated {t xs x s} :
      Step objectName ⟨t, xs, .built x⟩ s ⟨t, xs, .done x⟩ (s.markByName .created x.name)
  | error {t xs x s} {phase : BuildPhase} : phase.statement = some x → phase ≠ .done x →
      Step objectName ⟨t, xs, phase⟩ s ⟨t, xs, .failed x⟩ s
  | drop {t xs x s pg} : dropIndexes [x.name] s.pg = .ok pg →
      Step objectName ⟨t, xs, .failed x⟩ s ⟨t, xs, .dropped x⟩ { s with pg }
  | markMissing {t xs x s} :
      Step objectName ⟨t, xs, .dropped x⟩ s ⟨t, xs, .idle⟩ (s.markByName .missing x.name)
  | dropError {t xs x s} : Step objectName ⟨t, xs, .failed x⟩ s ⟨t, xs, .idle⟩ s
  | markMissingError {t xs x s} : Step objectName ⟨t, xs, .dropped x⟩ s ⟨t, xs, .idle⟩ s

def Build.Ends (b : Build) : Prop :=
  b.phase = .connecting ∨ b.pending = [] ∧ (b.phase = .idle ∨ ∃ x, b.phase = .done x)

inductive HivedPhase where
  | down
  /-- `enable_indexes` has these tables to restore. -/
  | restoring (tables : List String)
  /-- The monitor is polling. -/
  | running
  deriving DecidableEq, Repr

/-- An entry of `indexes_to_reset`, and whether the monitor has just dropped the index. -/
structure LostBuild where
  name : String
  tableName : String
  dropped : Bool
  deriving DecidableEq, Repr

structure Monitor extends IndexState where
  phase : HivedPhase
  builds : List Build
  lost : List LostBuild
  deriving DecidableEq, Repr

namespace Monitor

def areAnyIndexesMissing (s : IndexState) : Bool :=
  s.rows.any (fun r ↦ r.isIndex && decide (r.status = .missing))

def addLost (name tableName : String) (lost : List LostBuild) : List LostBuild :=
  lost.filter (fun l ↦ decide (l.name ≠ name)) ++
    [⟨name, tableName, lost.any (fun l ↦ decide (l.name = name) && l.dropped)⟩]

inductive Action where
  | register (contextName command : String)
  | startBuild (tableName : String)
  | thread
  | resetLost
  | hived
  deriving DecidableEq, Repr

/-- One statement of an application, a build thread, the monitor or the start of hived. -/
inductive Step (reader : CommandReader) : Action → Monitor → Monitor → Prop
  | register {s : Monitor} {contextName command : String} {s' : IndexState} :
      s.toIndexState.registerIndexDependency contextName command (reader.parse command) = .ok s' →
      Step reader (.register contextName command) s { s with toIndexState := s' }
  | startBuild {s : Monitor} {t : String} : s.phase = .running →
      "hafd.".toList.isPrefixOf t.toList = true → s.missingRows t ≠ [] →
      (∀ r ∈ s.rows, r.tableName = t → r.status ≠ .creating) →
      (∀ b ∈ s.builds, b.tableName ≠ t) →
      Step reader (.startBuild t) s { s with builds := s.builds ++ [⟨t, [], .connecting⟩] }
  | build {s : Monitor} {front back : List Build} {b b' : Build} {s' : IndexState} :
      s.builds = front ++ b :: back → Build.Step reader.objectName b s.toIndexState b' s' →
      Step reader .thread s { s with toIndexState := s', builds := front ++ b' :: back }
  | buildEnds {s : Monitor} {front back : List Build} {b : Build} :
      s.builds = front ++ b :: back → b.Ends →
      Step reader .thread s { s with builds := front ++ back }
  | buildLost {s : Monitor} {front back : List Build} {b : Build} {x : IndexRow} :
      s.builds = front ++ b :: back → b.phase.statement = some x →
      Step reader .thread s { s with
        builds := front ++ back
        lost := addLost x.name b.tableName s.lost }
  | dropLost {s : Monitor} {front back : List LostBuild} {l : LostBuild} {pg : List PgIndex} :
      s.lost = front ++ l :: back → l.dropped = false → dropIndexes [l.name] s.pg = .ok pg →
      Step reader .resetLost s { s with pg, lost := front ++ { l with dropped := true } :: back }
  | markLost {s : Monitor} {front back : List LostBuild} {l : LostBuild} :
      s.lost = front ++ l :: back → l.dropped = true →
      Step reader .resetLost s { s with
        toIndexState := s.toIndexState.markByName .missing l.name
        lost := front ++ back }
  | markLostError {s : Monitor} {front back : List LostBuild} {l : LostBuild} :
      s.lost = front ++ l :: back → l.dropped = true →
      Step reader .resetLost s { s with lost := front ++ { l with dropped := false } :: back }
  | crash {s : Monitor} :
      Step reader .hived s { s with phase := .down, builds := [], lost := [] }
  | start {s : Monitor} : s.phase = .down →
      Step reader .hived s { s with
        phase := .restoring (if areAnyIndexesMissing s.toIndexState then restoredTables else []) }
  | restore {s : Monitor} {front back : List String} {t : String} {s' : IndexState} :
      s.phase = .restoring (front ++ t :: back) → s.toIndexState.restoreIndexes t = .ok s' →
      Step reader .hived s { s with toIndexState := s', phase := .restoring (front ++ back) }
  | startMonitor {s : Monitor} : s.phase = .restoring [] →
      Step reader .hived s { s with
        toIndexState := s.setStatus .missing (fun r ↦ decide (r.status = .creating))
        phase := .running }
  | startMonitorError {s : Monitor} : s.phase = .restoring [] →
      Step reader .hived s { s with phase := .running }

end Monitor

/-- The rows have commands for their names and without `IF NOT EXISTS`. -/
def IndexState.Commands (reader : CommandReader) (s : IndexState) : Prop :=
  ∀ r ∈ s.rows, r.command.ifNotExists = false ∧ reader.objectName r.command.text = r.name

namespace Monitor

/-- A database before the first start: each index is valid, and a name is used for one table. -/
structure Installed (reader : CommandReader) (s : Monitor) : Prop where
  names : (s.rows.map IndexRow.name).Nodup
  commands : s.Commands reader
  valid : ∀ p ∈ s.pg, p.valid = true
  down : s.phase = .down
  builds : s.builds = []
  lost : s.lost = []

/-- A registered command does not say `IF NOT EXISTS`, PostgreSQL gives its index the recorded name,
a name is registered for one table only, and no build of a table is started while another one of the
table waits to be reset. -/
def Careful (reader : CommandReader) (s : Monitor) : Action → Prop
  | .register _ command => ∀ c, reader.parse command = some c →
      (c.command.ifNotExists = false ∧ reader.objectName c.command.text = c.indexName) ∧
      ∀ r ∈ s.rows, r.name = c.indexName → r.tableName = c.tableName
  | .startBuild t => ∀ l ∈ s.lost, l.tableName ≠ t
  | .thread | .resetLost | .hived => True

inductive Run (reader : CommandReader) (allowed : Monitor → Action → Prop) : Monitor → Prop
  | installed {s : Monitor} : Installed reader s → Run reader allowed s
  | step {a : Action} {s s' : Monitor} : Run reader allowed s → allowed s a → Step reader a s s' →
      Run reader allowed s'

end Monitor

def IndexRow.ident (r : IndexRow) : (String × String) × IndexCommand := (r.key, r.command)

namespace IndexState

variable {s s' s'' : IndexState}

def SameRows (s s' : IndexState) : Prop :=
  s'.rows.map IndexRow.ident = s.rows.map IndexRow.ident

theorem SameRows.names (h : SameRows s s') :
    s'.rows.map IndexRow.name = s.rows.map IndexRow.name := by
  have hnames := congrArg (List.map fun i : (String × String) × IndexCommand ↦ i.1.2) h
  rwa [List.map_map, List.map_map] at hnames

variable {r r' : IndexRow}

theorem SameRows.exists (h : SameRows s s') (hr : r ∈ s.rows) :
    ∃ r' ∈ s'.rows, r'.ident = r.ident :=
  List.mem_map.mp (h ▸ List.mem_map_of_mem hr)

theorem SameRows.exists_old (h : SameRows s s') (hr' : r' ∈ s'.rows) :
    ∃ r ∈ s.rows, r.ident = r'.ident :=
  SameRows.exists h.symm hr'

theorem key_of_ident (h : r.ident = r'.ident) : r.key = r'.key :=
  congrArg Prod.fst h

theorem name_of_ident (h : r.ident = r'.ident) : r.name = r'.name :=
  congrArg (fun i ↦ i.1.2) h

theorem sameRows_setStatus (status : IndexStatus) (which : IndexRow → Bool) :
    SameRows s (s.setStatus status which) := by
  rw [SameRows, setStatus, List.map_map]
  refine List.map_congr_left fun r _ ↦ ?_
  rw [Function.comp_apply]
  split <;> rfl

theorem setStatus_created {status : IndexStatus} {which : IndexRow → Bool}
    (hr' : r' ∈ (s.setStatus status which).rows) (hcreated : r'.status = .created) :
    (∃ r ∈ s.rows, r.key = r'.key ∧ r.status = .created) ∨
      status = .created ∧ ∃ r ∈ s.rows, which r = true ∧ r.ident = r'.ident := by
  obtain ⟨r, hr, rfl⟩ := List.mem_map.mp hr'
  split at hcreated
  · next hwhich =>
    rw [if_pos hwhich]
    exact Or.inr ⟨hcreated, r, hr, hwhich, rfl⟩
  · next hwhich =>
    rw [if_neg hwhich]
    exact Or.inl ⟨r, hr, rfl, hcreated⟩

end IndexState

namespace Build

variable {b b' : Build} {s s' : IndexState}

structure Advanced (b : Build) (s : IndexState) (b' : Build) (s' : IndexState) : Prop where
  tableName : b'.tableName = b.tableName
  rows : SameRows s s'
  items : ∀ x ∈ b'.items, x ∈ b.items ∨ x ∈ s.missingRows b.tableName
  invalid : ∀ p ∈ s'.pg, p.valid = false → p ∈ s.pg ∨ ∃ x ∈ b.items, x.name = p.name
  other : ∀ p ∈ s.pg, (∀ x ∈ b.items, x.name ≠ p.name) → p ∈ s'.pg
  building : ∀ x, b'.phase = .building x → ∃ p ∈ s'.pg, p.name = x.name
  built : ∀ x, b'.phase = .built x → x.command.ifNotExists = true ∨ b.phase = .building x ∧
    s' = s.validate x.name
  created : ∀ r' ∈ s'.rows, r'.status = .created →
    (∃ r ∈ s.rows, r.key = r'.key ∧ r.status = .created) ∨
      ∃ x, b.phase = .built x ∧ x.name = r'.name ∧ s'.pg = s.pg

theorem Advanced.of_eq (htable : b'.tableName = b.tableName)
    (hitems : ∀ x ∈ b'.items, x ∈ b.items ∨ x ∈ s.missingRows b.tableName)
    (hbuilding : ∀ x, b'.phase ≠ .building x)
    (hbuilt : ∀ x, b'.phase = .built x → x.command.ifNotExists = true) : Advanced b s b' s where
  tableName := htable
  rows := rfl
  items := hitems
  invalid _ hp _ := Or.inl hp
  other _ hp _ := hp
  building x h := absurd h (hbuilding x)
  built x h := Or.inl (hbuilt x h)
  created r hr h := Or.inl ⟨r, hr, rfl, h⟩

theorem Advanced.of_mark {status : IndexStatus} {name : String}
    (htable : b'.tableName = b.tableName) (hitems : ∀ x ∈ b'.items, x ∈ b.items)
    (hbuilding : ∀ x, b'.phase ≠ .building x) (hbuilt : ∀ x, b'.phase ≠ .built x)
    (hcreated : status = .created → ∃ x, b.phase = .built x ∧ x.name = name) :
    Advanced b s b' (s.markByName status name) where
  tableName := htable
  rows := sameRows_setStatus _ _
  items x hx := Or.inl (hitems x hx)
  invalid p hp _ := Or.inl hp
  other p hp _ := hp
  building x h := absurd h (hbuilding x)
  built x h := absurd h (hbuilt x)
  created r' hr' h := by
    refine (setStatus_created hr' h).imp id ?_
    rintro ⟨hstatus, r, -, hname, hident⟩
    obtain ⟨x, hphase, hx⟩ := hcreated hstatus
    exact ⟨x, hphase, hx.trans ((of_decide_eq_true hname).symm.trans (name_of_ident hident)), rfl⟩

variable {t : String} {xs : List IndexRow} {x : IndexRow}

theorem Advanced.of_begin :
    Advanced ⟨t, xs, .marked x⟩ s ⟨t, xs, .building x⟩ (s.beginBuild x.name x) where
  tableName := rfl
  rows := rfl
  items y hy := Or.inl hy
  invalid p hp _ := by
    refine (List.mem_append.mp hp).imp id fun hp ↦ ⟨x, List.mem_cons_self, ?_⟩
    rw [List.mem_singleton.mp hp]
  other p hp _ := List.mem_append_left _ hp
  building y h := by
    cases h
    exact ⟨_, List.mem_append_right _ List.mem_cons_self, rfl⟩
  built y h := nomatch h
  created r hr h := Or.inl ⟨r, hr, rfl, h⟩

theorem Advanced.of_validate :
    Advanced ⟨t, xs, .building x⟩ s ⟨t, xs, .built x⟩ (s.validate x.name) where
  tableName := rfl
  rows := rfl
  items y hy := Or.inl hy
  invalid p' hp' hvalid := by
    obtain ⟨p, hp, rfl⟩ := List.mem_map.mp hp'
    split at hvalid
    · cases hvalid
    · next hne =>
      rw [if_neg hne]
      exact Or.inl hp
  other p hp hne := List.mem_map.mpr ⟨p, hp, if_neg (hne x List.mem_cons_self).symm⟩
  building y h := nomatch h
  built y h := by
    cases h
    exact Or.inr ⟨rfl, rfl⟩
  created r hr h := Or.inl ⟨r, hr, rfl, h⟩

theorem Advanced.of_drop {pg : List PgIndex} (hpg : dropIndexes [x.name] s.pg = .ok pg) :
    Advanced ⟨t, xs, .failed x⟩ s ⟨t, xs, .dropped x⟩ { s with pg } where
  tableName := rfl
  rows := rfl
  items y hy := Or.inl hy
  invalid p hp _ := by
    rw [dropIndexes_eq hpg] at hp
    exact Or.inl (List.mem_of_mem_filter hp)
  other p hp hne := by
    rw [dropIndexes_eq hpg]
    refine List.mem_filter.mpr ⟨hp, decide_eq_true fun h ↦ ?_⟩
    exact hne x List.mem_cons_self (List.mem_singleton.mp h).symm
  building y h := nomatch h
  built y h := nomatch h
  created r hr h := Or.inl ⟨r, hr, rfl, h⟩

theorem Step.advanced {objectName : String → String}
    (hobject : ∀ x ∈ b.items, objectName x.command.text = x.name) (h : Step objectName b s b' s') :
    Advanced b s b' s' := by
  cases h with
  | select => exact .of_eq rfl (fun x hx ↦ Or.inr hx) (by simp) (by simp)
  | next => exact .of_eq rfl (fun x hx ↦ Or.inl hx) (by simp) (by simp)
  | nextDone => exact .of_eq rfl (fun x hx ↦ Or.inl (List.mem_cons_of_mem _ hx)) (by simp) (by simp)
  | mark => exact .of_mark rfl (fun x hx ↦ hx) (by simp) (by simp) (by simp)
  | create _ =>
    rw [hobject _ List.mem_cons_self]
    exact .of_begin
  | skip _ hskip =>
    refine .of_eq rfl (fun x hx ↦ Or.inl hx) (by simp) fun x h ↦ ?_
    cases h
    exact hskip
  | finish =>
    rw [hobject _ List.mem_cons_self]
    exact .of_validate
  | markCreated => exact .of_mark rfl (fun x hx ↦ hx) (by simp) (by simp) fun _ ↦ ⟨_, rfl, rfl⟩
  | @error t xs x _ phase hphase _ =>
    refine .of_eq rfl (fun y hy ↦ Or.inl ?_) (by simp) (by simp)
    rwa [items, current_of_statement hphase]
  | drop hpg => exact .of_drop hpg
  | markMissing =>
    exact .of_mark rfl (fun x hx ↦ List.mem_cons_of_mem _ hx) (by simp) (by simp) (by simp)
  | dropError =>
    exact .of_eq rfl (fun x hx ↦ Or.inl (List.mem_cons_of_mem _ hx)) (by simp) (by simp)
  | markMissingError =>
    exact .of_eq rfl (fun x hx ↦ Or.inl (List.mem_cons_of_mem _ hx)) (by simp) (by simp)

end Build

namespace IndexState

variable {s s' s'' : IndexState} {reader : CommandReader}

theorem SameRows.commands (h : SameRows s s') (hs : s.Commands reader) : s'.Commands reader := by
  intro r' hr'
  obtain ⟨r, hr, hident⟩ := h.exists_old hr'
  have hcommand : r.command = r'.command := congrArg Prod.snd hident
  rw [← hcommand, ← name_of_ident hident]
  exact hs r hr

structure RestoreStep (s s' : IndexState) : Prop where
  rows : SameRows s s'
  invalid : ∀ p ∈ s'.pg, p.valid = false → p ∈ s.pg
  created : ∀ r' ∈ s'.rows, r'.status = .created →
    (∃ r ∈ s.rows, r.key = r'.key ∧ r.status = .created) ∨
      ∃ p ∈ s'.pg, p.name = r'.name ∧ p.valid = true
  stays : ∀ r ∈ s.rows, r.status = .created → ∃ r' ∈ s'.rows, r'.key = r.key ∧ r'.status = .created
  kept : ∀ r ∈ s.rows, r.status = .created → ∀ p ∈ s.pg, p.name = r.name → p ∈ s'.pg

theorem RestoreStep.refl (s : IndexState) : RestoreStep s s :=
  ⟨rfl, fun _ hp _ ↦ hp, fun r hr h ↦ Or.inl ⟨r, hr, rfl, h⟩, fun r hr h ↦ ⟨r, hr, rfl, h⟩,
    fun _ _ _ _ hp _ ↦ hp⟩

theorem name_of_key {r r' : IndexRow} (h : r.key = r'.key) : r.name = r'.name :=
  congrArg Prod.snd h

theorem RestoreStep.trans (h : RestoreStep s s') (h' : RestoreStep s' s'') : RestoreStep s s'' where
  rows := Eq.trans h'.rows h.rows
  invalid p hp hvalid := h.invalid p (h'.invalid p hp hvalid) hvalid
  created r₂ hr₂ hcreated₂ := by
    rcases h'.created r₂ hr₂ hcreated₂ with ⟨r₁, hr₁, hkey₁, hcreated₁⟩ | hp
    · rcases h.created r₁ hr₁ hcreated₁ with ⟨r, hr, hkey, hcreated⟩ | ⟨p, hp, hname, hvalid⟩
      · exact Or.inl ⟨r, hr, hkey.trans hkey₁, hcreated⟩
      · have hp := h'.kept r₁ hr₁ hcreated₁ p hp hname
        exact Or.inr ⟨p, hp, hname.trans (name_of_key hkey₁), hvalid⟩
    · exact Or.inr hp
  stays r hr hcreated := by
    obtain ⟨r₁, hr₁, hkey₁, hcreated₁⟩ := h.stays r hr hcreated
    obtain ⟨r₂, hr₂, hkey₂, hcreated₂⟩ := h'.stays r₁ hr₁ hcreated₁
    exact ⟨r₂, hr₂, hkey₂.trans hkey₁, hcreated₂⟩
  kept r hr hcreated p hp hname := by
    obtain ⟨r₁, hr₁, hkey₁, hcreated₁⟩ := h.stays r hr hcreated
    exact h'.kept r₁ hr₁ hcreated₁ p (h.kept r hr hcreated p hp hname)
      (hname.trans (name_of_key hkey₁).symm)

theorem restoreStep_restoreRow (hs : s.Commands reader) {r : IndexRow}
    (hexists : r.command.ifNotExists = false) (hcommand : reader.objectName r.command.text = r.name)
    (h : s.restoreRow r = .ok s') : RestoreStep s s' := by
  obtain ⟨hrows, -, ⟨hskip, -⟩ | ⟨-, hpg⟩⟩ := restoreRow_cases h
  · rw [hexists] at hskip
    cases hskip
  refine ⟨?_, fun p hp hvalid ↦ ?_, fun r' hr' hcreated ↦ ?_, fun r₀ hr₀ hcreated ↦ ?_,
    fun _ _ _ p hp _ ↦ hpg ▸ List.mem_append_left _ hp⟩
  · rw [SameRows, hrows]
    exact sameRows_setStatus _ _
  · rw [hpg] at hp
    rcases List.mem_append.mp hp with hp | hp
    · exact hp
    · rw [List.mem_singleton.mp hp] at hvalid
      cases hvalid
  · rw [hrows] at hr'
    refine (setStatus_created hr' hcreated).imp id ?_
    rintro ⟨-, r₀, hr₀, hsame, hident⟩
    refine ⟨_, hpg ▸ List.mem_append_right _ List.mem_cons_self, ?_, rfl⟩
    rw [← name_of_ident hident, ← (hs r₀ hr₀).2, of_decide_eq_true hsame, hcommand]
  · rw [hrows]
    refine ⟨_, List.mem_map_of_mem hr₀, ?_⟩
    split
    · exact ⟨rfl, rfl⟩
    · exact ⟨rfl, hcreated⟩

variable {t : String}

theorem restoreStep_resetCreating (hnames : (s.rows.map IndexRow.name).Nodup)
    (h : s.resetCreating t = .ok s') : RestoreStep s s' := by
  rw [resetCreating_eq h]
  refine ⟨sameRows_setStatus _ _, fun p hp _ ↦ List.mem_of_mem_filter hp,
    fun r' hr' hcreated ↦ ?_, fun r hr hcreated ↦ ?_, fun r hr hcreated p hp hname ↦ ?_⟩
  · refine (setStatus_created hr' hcreated).imp id fun h ↦ ?_
    cases h.1
  · refine ⟨r, List.mem_map.mpr ⟨r, hr, if_neg ?_⟩, rfl, hcreated⟩
    simp [hcreated]
  · refine List.mem_filter.mpr ⟨hp, decide_eq_true fun hin ↦ ?_⟩
    obtain ⟨r₀, hr₀, hname₀⟩ := List.mem_map.mp hin
    obtain ⟨hr₀, hstuck⟩ := List.mem_filter.mp hr₀
    have hcreating := (of_decide_eq_true hstuck).2
    rw [List.inj_on_of_nodup_map hnames hr₀ hr (hname₀.trans hname), hcreated] at hcreating
    cases hcreating

theorem restoreStep_restoreRows (rows : List IndexRow)
    (hrows : ∀ r ∈ rows,
      r.command.ifNotExists = false ∧ reader.objectName r.command.text = r.name) :
    ∀ {s : IndexState}, s.Commands reader →
      rows.foldlM (fun s r ↦ s.restoreRow r) s = .ok s' → RestoreStep s s' := by
  induction rows with
  | nil =>
    intro s _ h
    cases h
    exact .refl _
  | cons r rows ih =>
    intro s hs h
    obtain ⟨s₁, hstep, hrun⟩ := bind_eq_ok.mp h
    obtain ⟨hr, hrows⟩ := List.forall_mem_cons.mp hrows
    have h₁ := restoreStep_restoreRow hs hr.1 hr.2 hstep
    exact h₁.trans (ih hrows (h₁.rows.commands hs) hrun)

theorem restoreStep_recluster (hs : s.Commands reader)
    (h : s.recluster t = .ok s') : RestoreStep s s' := by
  simp only [recluster] at h
  split at h
  · cases h
    exact .refl s
  · split at h
    · cases h
      exact .refl s
    · next r hfind =>
      have hr := hs r (List.mem_of_mem_filter (List.mem_of_find?_eq_some hfind))
      exact restoreStep_restoreRow hs hr.1 hr.2 h

theorem restoreStep_restoreIndexes (hs : s.Commands reader)
    (hnames : (s.rows.map IndexRow.name).Nodup)
    (h : s.restoreIndexes t = .ok s') : RestoreStep s s' := by
  obtain ⟨s₁, h₁, h⟩ := bind_eq_ok.mp h
  obtain ⟨s₂, h₂, h⟩ := bind_eq_ok.mp h
  have hs₁ := restoreStep_recluster hs h₁
  have hs₂ := restoreStep_resetCreating (hs₁.rows.names.symm ▸ hnames) h₂
  have hcommands := hs₂.rows.commands (hs₁.rows.commands hs)
  refine (hs₁.trans hs₂).trans (restoreStep_restoreRows _ (fun r hr ↦ ?_) hcommands h)
  exact hcommands r (List.mem_of_mem_filter hr)

end IndexState

namespace Monitor

variable {s s' : Monitor} {reader : CommandReader}

structure Inv (reader : CommandReader) (s : Monitor) : Prop where
  names : (s.rows.map IndexRow.name).Nodup
  commands : s.Commands reader
  invalid : ∀ p ∈ s.pg, p.valid = false → ∃ r ∈ s.rows, r.name = p.name
  threads : (s.builds.map Build.tableName).Nodup
  items : ∀ b ∈ s.builds, ∀ x ∈ b.items,
    (x.command.ifNotExists = false ∧ reader.objectName x.command.text = x.name) ∧
    ∃ r ∈ s.rows, r.key = (b.tableName, x.name)
  building : ∀ b ∈ s.builds, ∀ x, b.phase = .building x → ∃ p ∈ s.pg, p.name = x.name
  built : ∀ b ∈ s.builds, ∀ x, b.phase = .built x → ∃ p ∈ s.pg, p.name = x.name ∧ p.valid = true
  lost : ∀ l ∈ s.lost, (∃ r ∈ s.rows, r.key = (l.tableName, l.name)) ∧
    ∀ b ∈ s.builds, b.tableName ≠ l.tableName
  stopped : s.phase ≠ .running → s.builds = [] ∧ s.lost = []

theorem Installed.inv (h : s.Installed reader) : s.Inv reader where
  names := h.names
  commands := h.commands
  invalid p hp hvalid := by simp [h.valid p hp] at hvalid
  threads := by simp [h.builds]
  items := by simp [h.builds]
  building := by simp [h.builds]
  built := by simp [h.builds]
  lost := by simp [h.lost]
  stopped _ := ⟨h.builds, h.lost⟩

theorem Inv.table_eq (inv : s.Inv reader) {t t' name : String}
    (h : ∃ r ∈ s.rows, r.key = (t, name)) (h' : ∃ r ∈ s.rows, r.key = (t', name)) : t = t' := by
  obtain ⟨r, hr, hkey⟩ := h
  obtain ⟨r', hr', hkey'⟩ := h'
  have hname : r.name = r'.name := (congrArg Prod.snd hkey).trans (congrArg Prod.snd hkey').symm
  obtain rfl := List.inj_on_of_nodup_map inv.names hr hr' hname
  exact congrArg Prod.fst (hkey.symm.trans hkey')

variable {b : Build} {t : IndexState} {front back : List Build}

theorem current_mem_items {x : IndexRow} (h : b.phase.current = some x) :
    x ∈ b.items := by
  rw [Build.items, h]
  exact List.mem_cons_self

theorem Inv.running_of_build (inv : s.Inv reader) (hb : b ∈ s.builds) :
    s.phase = .running := by
  by_contra hphase
  rw [(inv.stopped hphase).1] at hb
  cases hb

theorem Inv.running_of_lost (inv : s.Inv reader) {l : LostBuild} (hl : l ∈ s.lost) :
    s.phase = .running := by
  by_contra hphase
  rw [(inv.stopped hphase).2] at hl
  cases hl

theorem Inv.transport (inv : s.Inv reader) {phase : HivedPhase}
    {builds : List Build} {lost : List LostBuild} (hrows : SameRows s.toIndexState t)
    (hinvalid : ∀ p ∈ t.pg, p.valid = false → p ∈ s.pg) (hbuilds : builds.Sublist s.builds)
    (hkept : ∀ b ∈ builds, ∀ x ∈ b.items, ∀ p ∈ s.pg, p.name = x.name → p ∈ t.pg)
    (hlost : ∀ l ∈ lost, (∃ r ∈ s.rows, r.key = (l.tableName, l.name)) ∧
      ∀ b ∈ builds, b.tableName ≠ l.tableName)
    (hstopped : phase ≠ .running → builds = [] ∧ lost = []) :
    Inv reader ⟨t, phase, builds, lost⟩ := by
  have hkey : ∀ {k}, (∃ r ∈ s.rows, r.key = k) → ∃ r ∈ t.rows, r.key = k := by
    rintro k ⟨r, hr, rfl⟩
    obtain ⟨r', hr', hident⟩ := hrows.exists hr
    exact ⟨r', hr', key_of_ident hident⟩
  refine ⟨hrows.names ▸ inv.names, hrows.commands inv.commands, fun p hp hvalid ↦ ?_,
    inv.threads.sublist (hbuilds.map _), fun b hb x hx ↦ ?_, fun b hb x hphase ↦ ?_,
    fun b hb x hphase ↦ ?_, fun l hl ↦ ⟨hkey (hlost l hl).1, (hlost l hl).2⟩, hstopped⟩
  · obtain ⟨r, hr, hname⟩ := inv.invalid p (hinvalid p hp hvalid) hvalid
    obtain ⟨r', hr', hident⟩ := hrows.exists hr
    exact ⟨r', hr', (name_of_ident hident).trans hname⟩
  · obtain ⟨hexists, hrow⟩ := inv.items b (hbuilds.subset hb) x hx
    exact ⟨hexists, hkey hrow⟩
  · obtain ⟨p, hp, hname⟩ := inv.building b (hbuilds.subset hb) x hphase
    exact ⟨p, hkept b hb x (current_mem_items (by rw [hphase]; rfl)) p hp hname, hname⟩
  · obtain ⟨p, hp, hname, hvalid⟩ := inv.built b (hbuilds.subset hb) x hphase
    exact ⟨p, hkept b hb x (current_mem_items (by rw [hphase]; rfl)) p hp hname, hname, hvalid⟩

theorem sublist_builds
    (hbuilds : s.builds = front ++ b :: back) : (front ++ back).Sublist s.builds := by
  rw [hbuilds]
  exact (List.sublist_cons_self b back).append_left front

theorem Inv.others (inv : s.Inv reader) (hbuilds : s.builds = front ++ b :: back) :
    ∀ b₀ ∈ front ++ back, b₀ ∈ s.builds ∧ b₀.tableName ≠ b.tableName := by
  have hnodup := inv.threads
  rw [hbuilds, List.map_append, List.map_cons, List.nodup_middle, ← List.map_append] at hnodup
  exact fun b₀ hb₀ ↦ ⟨(sublist_builds hbuilds).subset hb₀,
    fun h ↦ (List.nodup_cons.mp hnodup).1 (h ▸ List.mem_map_of_mem hb₀)⟩

theorem Inv.build (inv : s.Inv reader) {b' : Build}
    (hbuilds : s.builds = front ++ b :: back)
    (h : Build.Step reader.objectName b s.toIndexState b' t) :
    Inv reader { s with toIndexState := t, builds := front ++ b' :: back } := by
  have hb : b ∈ s.builds := hbuilds ▸ List.mem_append_right _ List.mem_cons_self
  have adv := h.advanced fun x hx ↦ (inv.items b hb x hx).1.2
  have hrow : ∀ {k}, (∃ r ∈ s.rows, r.key = k) → ∃ r ∈ t.rows, r.key = k := by
    rintro k ⟨r, hr, rfl⟩
    obtain ⟨r', hr', hident⟩ := adv.rows.exists hr
    exact ⟨r', hr', key_of_ident hident⟩
  have htables : (front ++ b' :: back).map Build.tableName = s.builds.map Build.tableName := by
    simp [hbuilds, adv.tableName]
  have hcases : ∀ {b₀}, b₀ ∈ front ++ b' :: back →
      b₀ = b' ∨ b₀ ∈ s.builds ∧ b₀.tableName ≠ b.tableName := by
    intro b₀ hb₀
    rcases List.mem_cons.mp (List.perm_middle.mem_iff.mp hb₀) with h | h
    · exact Or.inl h
    · exact Or.inr (inv.others hbuilds b₀ h)
  have hother : ∀ {b₀ x}, b₀ ∈ s.builds → b₀.tableName ≠ b.tableName →
      b₀.phase.current = some x → ∀ p ∈ s.pg, p.name = x.name → p ∈ t.pg := by
    intro b₀ x hb₀ hne hx p hp hname
    refine adv.other p hp fun y hy hyname ↦ hne ?_
    refine inv.table_eq (inv.items b₀ hb₀ x (current_mem_items hx)).2 ?_
    rw [← hname, ← hyname]
    exact (inv.items b hb y hy).2
  have hitems : ∀ x ∈ b'.items,
      (x.command.ifNotExists = false ∧ reader.objectName x.command.text = x.name) ∧
      ∃ r ∈ t.rows, r.key = (b'.tableName, x.name) := by
    intro x hx
    rw [adv.tableName]
    rcases adv.items x hx with hx | hx
    · exact ⟨(inv.items b hb x hx).1, hrow (inv.items b hb x hx).2⟩
    · obtain ⟨hx, hmissing⟩ := List.mem_filter.mp hx
      refine ⟨inv.commands x hx, hrow ⟨x, hx, ?_⟩⟩
      rw [IndexRow.key, (of_decide_eq_true hmissing).1]
  refine ⟨adv.rows.names ▸ inv.names, adv.rows.commands inv.commands, ?_, htables ▸ inv.threads,
    ?_, ?_, ?_, ?_, fun hphase ↦ absurd (inv.running_of_build hb) hphase⟩
  · intro p hp hvalid
    rcases adv.invalid p hp hvalid with hp | ⟨x, hx, hname⟩
    · obtain ⟨r, hr, hname⟩ := inv.invalid p hp hvalid
      obtain ⟨r', hr', hident⟩ := adv.rows.exists hr
      exact ⟨r', hr', (name_of_ident hident).trans hname⟩
    · obtain ⟨r, hr, hkey⟩ := hrow (inv.items b hb x hx).2
      exact ⟨r, hr, (congrArg Prod.snd hkey).trans hname⟩
  · intro b₀ hb₀ x hx
    rcases hcases hb₀ with rfl | ⟨hb₀, -⟩
    · exact hitems x hx
    · exact ⟨(inv.items b₀ hb₀ x hx).1, hrow (inv.items b₀ hb₀ x hx).2⟩
  · intro b₀ hb₀ x hphase
    rcases hcases hb₀ with rfl | ⟨hb₀, hne⟩
    · exact adv.building x hphase
    · obtain ⟨p, hp, hname⟩ := inv.building b₀ hb₀ x hphase
      exact ⟨p, hother hb₀ hne (by rw [hphase]; rfl) p hp hname, hname⟩
  · intro b₀ hb₀ x hphase
    rcases hcases hb₀ with rfl | ⟨hb₀, hne⟩
    · rcases adv.built x hphase with hskip | ⟨hbuilding, ht⟩
      · have hexists := (hitems x (current_mem_items (by rw [hphase]; rfl))).1
        rw [hexists.1] at hskip
        cases hskip
      · obtain ⟨p, hp, hname⟩ := inv.building b hb x hbuilding
        subst ht
        refine ⟨_, List.mem_map_of_mem hp, ?_⟩
        rw [if_pos hname]
        exact ⟨hname, rfl⟩
    · obtain ⟨p, hp, hname, hvalid⟩ := inv.built b₀ hb₀ x hphase
      exact ⟨p, hother hb₀ hne (by rw [hphase]; rfl) p hp hname, hname, hvalid⟩
  · intro l hl
    obtain ⟨hrow', hne⟩ := inv.lost l hl
    refine ⟨hrow hrow', fun b₀ hb₀ ↦ ?_⟩
    rcases hcases hb₀ with rfl | ⟨hb₀, -⟩
    · rw [adv.tableName]
      exact hne b hb
    · exact hne b₀ hb₀

theorem Inv.register (inv : s.Inv reader) {contextName command : String}
    (hcareful : s.Careful reader (.register contextName command))
    (h : s.toIndexState.registerIndexDependency contextName command (reader.parse command) =
      .ok t) :
    Inv reader { s with toIndexState := t } := by
  obtain ⟨id, -, h⟩ := bind_eq_ok.mp h
  cases hparse : reader.parse command with
  | none =>
    rw [hparse] at h
    cases h
  | some c =>
    rw [hparse] at h
    obtain ⟨hexists, htable⟩ := hcareful c hparse
    simp only at h
    split at h
    · cases h
      refine inv.transport ?_ (fun _ hp _ ↦ hp) (List.Sublist.refl _) (fun _ _ _ _ _ hp _ ↦ hp)
        inv.lost inv.stopped
      rw [SameRows, List.map_map]
      refine List.map_congr_left fun r _ ↦ ?_
      rw [Function.comp_apply]
      split <;> rfl
    · next hnew =>
      cases h
      have hmono : ∀ {P : IndexRow → Prop} {row},
          (∃ r ∈ s.rows, P r) → ∃ r ∈ s.rows ++ [row], P r :=
        fun ⟨r, hr, h⟩ ↦ ⟨r, List.mem_append_left _ hr, h⟩
      refine ⟨?_, ?_, fun p hp hvalid ↦ hmono (inv.invalid p hp hvalid), inv.threads,
        fun b hb x hx ↦ ⟨(inv.items b hb x hx).1, hmono (inv.items b hb x hx).2⟩, inv.building,
        inv.built, fun l hl ↦ ⟨hmono (inv.lost l hl).1, (inv.lost l hl).2⟩, inv.stopped⟩
      · rw [List.map_append]
        refine List.Nodup.append inv.names (List.nodup_singleton _) fun n hn hn' ↦ hnew ?_
        obtain ⟨r, hr, rfl⟩ := List.mem_map.mp hn
        have hname := List.mem_singleton.mp hn'
        refine List.mem_map.mpr ⟨r, hr, ?_⟩
        rw [IndexRow.key, hname, htable r hr hname]
      · refine List.forall_mem_append.mpr ⟨inv.commands, fun r hr ↦ ?_⟩
        rw [List.mem_singleton.mp hr]
        exact hexists

theorem Inv.startBuild (inv : s.Inv reader) {t : String}
    (hcareful : s.Careful reader (.startBuild t)) (hphase : s.phase = .running)
    (hbuilds : ∀ b ∈ s.builds, b.tableName ≠ t) :
    Inv reader { s with builds := s.builds ++ [⟨t, [], .connecting⟩] } where
  names := inv.names
  commands := inv.commands
  invalid := inv.invalid
  threads := by
    rw [List.map_append]
    refine List.Nodup.append inv.threads (List.nodup_singleton _) ?_
    simpa using hbuilds
  items := List.forall_mem_append.mpr ⟨inv.items, by simp [Build.items, BuildPhase.current]⟩
  building := List.forall_mem_append.mpr ⟨inv.building, by simp⟩
  built := List.forall_mem_append.mpr ⟨inv.built, by simp⟩
  lost l hl := by
    refine ⟨(inv.lost l hl).1, List.forall_mem_append.mpr ⟨(inv.lost l hl).2, ?_⟩⟩
    simpa using (hcareful l hl).symm
  stopped h := absurd hphase h

theorem Inv.lost_update (inv : s.Inv reader) {front back : List LostBuild} {l : LostBuild}
    (l₁ : LostBuild) (hlost : s.lost = front ++ l :: back) (hname : l₁.name = l.name)
    (htable : l₁.tableName = l.tableName) : ∀ l' ∈ front ++ l₁ :: back,
      (∃ r ∈ s.rows, r.key = (l'.tableName, l'.name)) ∧
        ∀ b ∈ s.builds, b.tableName ≠ l'.tableName := by
  have hold := inv.lost
  rw [hlost] at hold
  intro l' hl'
  rcases List.mem_cons.mp (List.perm_middle.mem_iff.mp hl') with rfl | hl'
  · rw [hname, htable]
    exact hold l (List.mem_append_right _ List.mem_cons_self)
  · exact hold l' (List.perm_middle.mem_iff.mpr (List.mem_cons_of_mem _ hl'))

theorem Inv.step (inv : s.Inv reader) {a : Action} (hcareful : s.Careful reader a)
    (h : Step reader a s s') : s'.Inv reader := by
  cases h with
  | register h => exact inv.register hcareful h
  | startBuild hphase _ _ _ hbuilds => exact inv.startBuild hcareful hphase hbuilds
  | build hbuilds h => exact inv.build hbuilds h
  | @buildEnds _ front back b hbuilds _ =>
    have hsub := sublist_builds hbuilds
    have hrunning := inv.running_of_build (hbuilds ▸ List.mem_append_right _ List.mem_cons_self)
    refine inv.transport rfl (fun _ hp _ ↦ hp) hsub (fun _ _ _ _ _ hp _ ↦ hp) (fun l hl ↦ ?_)
      fun h ↦ absurd hrunning h
    exact ⟨(inv.lost l hl).1, fun b₀ hb₀ ↦ (inv.lost l hl).2 b₀ (hsub.subset hb₀)⟩
  | @buildLost _ front back b x hbuilds hstatement =>
    have hsub := sublist_builds hbuilds
    have hb : b ∈ s.builds := hbuilds ▸ List.mem_append_right _ List.mem_cons_self
    refine inv.transport rfl (fun _ hp _ ↦ hp) hsub (fun _ _ _ _ _ hp _ ↦ hp) (fun l hl ↦ ?_)
      fun h ↦ absurd (inv.running_of_build hb) h
    rcases List.mem_append.mp hl with hl | hl
    · have hl := inv.lost l (List.mem_of_mem_filter hl)
      exact ⟨hl.1, fun b₀ hb₀ ↦ hl.2 b₀ (hsub.subset hb₀)⟩
    · rw [List.mem_singleton.mp hl]
      have hx := current_mem_items (current_of_statement hstatement)
      exact ⟨(inv.items b hb x hx).2, fun b₀ hb₀ ↦ (inv.others hbuilds b₀ hb₀).2⟩
  | @dropLost _ front back l pg hlost _ hpg =>
    have hl : l ∈ s.lost := hlost ▸ List.mem_append_right _ List.mem_cons_self
    rw [dropIndexes_eq hpg]
    refine inv.transport rfl (fun _ hp _ ↦ List.mem_of_mem_filter hp) (List.Sublist.refl _) ?_
      (fun l' hl' ↦ ?_) fun h ↦ absurd (inv.running_of_lost hl) h
    · -- a thread that builds an index of the dropped name would be one of the same table
      intro b hb x hx p hp hname
      refine List.mem_filter.mpr ⟨hp, decide_eq_true fun hin ↦ (inv.lost l hl).2 b hb ?_⟩
      refine inv.table_eq (inv.items b hb x hx).2 ?_
      rw [← hname, List.mem_singleton.mp hin]
      exact (inv.lost l hl).1
    · exact inv.lost_update ⟨l.name, l.tableName, true⟩ hlost rfl rfl l' hl'
  | @markLost _ front back l hlost _ =>
    have hl : l ∈ s.lost := hlost ▸ List.mem_append_right _ List.mem_cons_self
    refine inv.transport (sameRows_setStatus _ _) (fun _ hp _ ↦ hp) (List.Sublist.refl _)
      (fun _ _ _ _ _ hp _ ↦ hp) (fun l' hl' ↦ inv.lost l' ?_)
      fun h ↦ absurd (inv.running_of_lost hl) h
    rw [hlost]
    exact ((List.sublist_cons_self l back).append_left front).subset hl'
  | @markLostError _ front back l hlost _ =>
    have hl : l ∈ s.lost := hlost ▸ List.mem_append_right _ List.mem_cons_self
    exact inv.transport rfl (fun _ hp _ ↦ hp) (List.Sublist.refl _)
      (fun _ _ _ _ _ hp _ ↦ hp) (inv.lost_update _ hlost rfl rfl)
      fun h ↦ absurd (inv.running_of_lost hl) h
  | crash =>
    exact inv.transport rfl (fun _ hp _ ↦ hp) (List.nil_sublist _) (by simp) (by simp)
      fun _ ↦ ⟨rfl, rfl⟩
  | start hphase =>
    obtain ⟨hbuilds, hlost⟩ := inv.stopped (by simp [hphase])
    exact inv.transport rfl (fun _ hp _ ↦ hp) (List.Sublist.refl _) (fun _ _ _ _ _ hp _ ↦ hp)
      inv.lost fun _ ↦ ⟨hbuilds, hlost⟩
  | restore hphase h =>
    obtain ⟨hbuilds, hlost⟩ := inv.stopped (by simp [hphase])
    have hs' := restoreStep_restoreIndexes inv.commands inv.names h
    exact inv.transport hs'.rows hs'.invalid (List.Sublist.refl _) (by simp [hbuilds]) inv.lost
      fun _ ↦ ⟨hbuilds, hlost⟩
  | startMonitor hphase =>
    exact inv.transport (sameRows_setStatus _ _) (fun _ hp _ ↦ hp) (List.Sublist.refl _)
      (fun _ _ _ _ _ hp _ ↦ hp) inv.lost fun h ↦ absurd rfl h
  | startMonitorError hphase =>
    exact inv.transport rfl (fun _ hp _ ↦ hp) (List.Sublist.refl _)
      (fun _ _ _ _ _ hp _ ↦ hp) inv.lost fun h ↦ absurd rfl h

theorem Run.inv (h : Run reader (Careful reader) s) : s.Inv reader := by
  induction h with
  | installed h => exact h.inv
  | step _ hcareful h ih => exact ih.step hcareful h

/-- A row becomes created only while a valid index of its name exists. -/
theorem created_index_valid (reader : CommandReader) (s s' : Monitor) (a : Action)
    (hrun : Run reader (Careful reader) s) (hcareful : s.Careful reader a)
    (hstep : Step reader a s s') :
    ∀ r' ∈ s'.rows, r'.status = .created →
      (∀ r ∈ s.rows, r.key = r'.key → r.status ≠ .created) →
      ∃ p ∈ s'.pg, p.name = r'.name ∧ p.valid = true := by
  intro r' hr' hcreated hnew
  have inv := hrun.inv
  have hold : ¬ ∃ r ∈ s.rows, r.key = r'.key ∧ r.status = .created :=
    fun ⟨r, hr, hkey, h⟩ ↦ hnew r hr hkey h
  cases hstep with
  | register h =>
    obtain ⟨id, -, h⟩ := bind_eq_ok.mp h
    cases hparse : reader.parse _ with
    | none =>
      rw [hparse] at h
      cases h
    | some c =>
      rw [hparse] at h
      simp only at h
      split at h
      · cases h
        obtain ⟨r, hr, rfl⟩ := List.mem_map.mp hr'
        refine absurd ⟨r, hr, ?_⟩ hold
        split at hcreated
        · next hif =>
          rw [if_pos hif]
          exact ⟨rfl, hcreated⟩
        · next hif =>
          rw [if_neg hif]
          exact ⟨rfl, hcreated⟩
      · next hkey =>
        cases h
        rcases List.mem_append.mp hr' with hr' | hr'
        · exact absurd ⟨r', hr', rfl, hcreated⟩ hold
        · -- an invalid index of the name would have a row, and then for this table
          rw [List.mem_singleton.mp hr'] at hcreated ⊢
          split at hcreated
          · next hany =>
            obtain ⟨p, hp, hname⟩ := List.any_eq_true.mp hany
            refine ⟨p, hp, of_decide_eq_true hname, ?_⟩
            by_contra hvalid
            obtain ⟨r, hr, hrname⟩ := inv.invalid p hp (by simpa using hvalid)
            have hrname := hrname.trans (of_decide_eq_true hname)
            refine hkey (List.mem_map.mpr ⟨r, hr, ?_⟩)
            rw [IndexRow.key, hrname, (hcareful c hparse).2 r hr hrname]
          · cases hcreated
  | build hbuilds h =>
    have hb := hbuilds ▸ List.mem_append_right _ List.mem_cons_self
    have adv := h.advanced fun x hx ↦ (inv.items _ hb x hx).1.2
    rcases adv.created r' hr' hcreated with h | ⟨x, hphase, hname, hpg⟩
    · exact absurd h hold
    · rw [hpg, ← hname]
      exact inv.built _ (hbuilds ▸ List.mem_append_right _ List.mem_cons_self) x hphase
  | restore _ h =>
    have hs' := restoreStep_restoreIndexes inv.commands inv.names h
    exact (hs'.created r' hr' hcreated).resolve_left hold
  | markLost _ _ | startMonitor _ =>
    rcases setStatus_created hr' hcreated with h | ⟨h, -⟩
    · exact absurd h hold
    · cases h
  | startBuild _ _ _ _ _ | buildEnds _ _ | buildLost _ _ | dropLost _ _ _ | markLostError _ _
  | crash | start _ | startMonitorError _ =>
    exact absurd ⟨r', hr', rfl, hcreated⟩ hold

theorem Run.step_eq {allowed : Monitor → Action → Prop} {a : Action} {s₁ : Monitor}
    (h : Run reader allowed s) (ha : allowed s a) (hstep : Step reader a s s₁) (heq : s₁ = s') :
    Run reader allowed s' :=
  heq ▸ h.step ha hstep

def exampleCommand (ifNotExists : Bool) : IndexCommand :=
  if ifNotExists then ⟨"create index if not exists foo on hafd.blocks (hash)", true⟩
  else ⟨"create index foo on hafd.blocks (hash)", false⟩

def exampleText (ifNotExists : Bool) : String :=
  if ifNotExists then "CREATE INDEX IF NOT EXISTS foo ON hafd.blocks (hash)"
  else "CREATE INDEX foo ON hafd.blocks (hash)"

def lexemesOf (text : String) : List IndexText.Lexeme :=
  ((IndexText.itemsOf text.toList).getD []).map IndexText.Item.lexeme

def exampleReader : CommandReader where
  lower := Char.toLower
  objectName text := String.ofList ((IndexText.createdIndex (lexemesOf text)).elim [] (·.index))
  ifNotExists text := decide (IndexText.dropIfNotExists ((lexemesOf text).drop 2) ≠
    (lexemesOf text).drop 2)

theorem example_parse (ifNotExists : Bool) : exampleReader.parse (exampleText ifNotExists) =
    some ⟨"foo", "hafd.blocks", exampleCommand ifNotExists⟩ := by
  cases ifNotExists <;> decide +kernel

theorem example_objectName (ifNotExists : Bool) :
    exampleReader.objectName (exampleCommand ifNotExists).text = "foo" := by
  cases ifNotExists <;> decide +kernel

def exampleRow (ifNotExists : Bool) (status : IndexStatus) : IndexRow :=
  ⟨"hafd.blocks", "foo", exampleCommand ifNotExists, false, true, [1], status, none⟩

def exampleIndex (ifNotExists valid : Bool) : PgIndex :=
  ⟨"hafd.blocks", "foo", false, (exampleCommand ifNotExists).text, valid⟩

def exampleState (rows : List IndexRow) (pg : List PgIndex) (phase : HivedPhase)
    (builds : List Build) : Monitor :=
  ⟨⟨[("app", 1)], rows, pg⟩, phase, builds, []⟩

def exampleBuild (pending : List IndexRow) (phase : BuildPhase) : List Build :=
  [⟨"hafd.blocks", pending, phase⟩]

section ExampleRun

variable {allowed : Monitor → Action → Prop} {ifNotExists : Bool} {pg : List PgIndex}

theorem example_registered (hhived : ∀ s, allowed s .hived)
    (hregister : allowed (exampleState [] [] .running [])
      (.register "app" (exampleText ifNotExists))) :
    Run exampleReader allowed
      (exampleState [exampleRow ifNotExists .missing] [] .running []) := by
  have h₀ : Run exampleReader allowed (exampleState [] [] .down []) :=
    .installed ⟨List.nodup_nil, nofun, nofun, rfl, rfl, rfl⟩
  have h₁ := h₀.step (hhived _) (.start rfl)
  have h₂ : Run exampleReader allowed (exampleState [] [] .running []) :=
    h₁.step (hhived _) (.startMonitor rfl)
  refine h₂.step hregister
    (@Step.register _ _ _ _ ⟨[("app", 1)], [exampleRow ifNotExists .missing], []⟩ ?_)
  rw [example_parse]
  cases ifNotExists <;> decide +kernel

theorem example_missingRows : missingRows "hafd.blocks"
    ⟨[("app", 1)], [exampleRow ifNotExists .missing], pg⟩ = [exampleRow ifNotExists .missing] := by
  cases ifNotExists <;> rfl

theorem example_marked (hthread : ∀ s, allowed s .thread)
    (hstart : ∀ s t, s.lost = [] → allowed s (.startBuild t))
    (h : Run exampleReader allowed
      (exampleState [exampleRow ifNotExists .missing] pg .running [])) :
    Run exampleReader allowed (exampleState [exampleRow ifNotExists .creating] pg
      .running (exampleBuild [] (.marked (exampleRow ifNotExists .missing)))) := by
  have h₁ : Run exampleReader allowed
      (exampleState [exampleRow ifNotExists .missing] pg .running
        (exampleBuild [] .connecting)) := by
    refine h.step (hstart _ "hafd.blocks" rfl) (.startBuild rfl (by decide +kernel) ?_ ?_
      fun _ hb ↦ absurd hb List.not_mem_nil)
    · rw [exampleState, example_missingRows]
      exact List.cons_ne_nil _ _
    · intro r hr _ hcreating
      rw [List.mem_singleton.mp hr] at hcreating
      cases hcreating
  have h₂ : Run exampleReader allowed (exampleState [exampleRow ifNotExists .missing]
      pg .running (exampleBuild [exampleRow ifNotExists .missing] .idle)) := by
    refine h₁.step_eq (hthread _) (@Step.build _ _ [] [] _ _ _ rfl .select) ?_
    simp only [exampleState, exampleBuild, example_missingRows, List.nil_append]
  have h₃ := h₂.step (hthread _) (@Step.build _ _ [] [] _ _ _ rfl .next)
  refine h₃.step_eq (hthread _) (@Step.build _ _ [] [] _ _ _ rfl .mark) ?_
  cases ifNotExists <;> rfl

theorem example_building (hhived : ∀ s, allowed s .hived) (hthread : ∀ s, allowed s .thread)
    (hstart : ∀ s t, s.lost = [] → allowed s (.startBuild t))
    (hregister : allowed (exampleState [] [] .running [])
      (.register "app" (exampleText ifNotExists))) :
    Run exampleReader allowed (exampleState [exampleRow ifNotExists .creating]
      [exampleIndex ifNotExists false] .running
        (exampleBuild [] (.building (exampleRow ifNotExists .missing)))) := by
  refine (example_marked hthread hstart (example_registered hhived hregister)).step_eq (hthread _)
    (@Step.build _ _ [] [] _ _ _ rfl (.create nofun)) ?_
  simp only [exampleRow, example_objectName]
  rfl

end ExampleRun

/-- The index of a registered command becomes valid and its row created. -/
theorem example_created : ∃ s s', Run exampleReader (Careful exampleReader) s ∧
    Step exampleReader .thread s s' ∧ exampleRow false .created ∈ s'.rows ∧
      ∃ p ∈ s'.pg, p.name = "foo" ∧ p.valid = true := by
  have hregister : Careful exampleReader (exampleState [] [] .running [])
      (.register "app" (exampleText false)) := by
    intro c hc
    obtain rfl := Option.some.inj ((example_parse false).symm.trans hc)
    exact ⟨⟨rfl, example_objectName false⟩, nofun⟩
  have hbuilding : Run exampleReader (Careful exampleReader) _ :=
    example_building (fun _ ↦ trivial) (fun _ ↦ trivial)
      (fun s t hs ↦ by rw [Careful, hs]; exact nofun) hregister
  have hrun : Run exampleReader (Careful exampleReader)
      (exampleState [exampleRow false .creating] [exampleIndex false true] .running
        (exampleBuild [] (.built (exampleRow false .missing)))) :=
    hbuilding.step_eq (a := .thread) trivial (@Step.build _ _ [] [] _ _ _ rfl .finish)
      (by decide +kernel)
  have hstep := @Step.build exampleReader (exampleState [exampleRow false .creating]
    [exampleIndex false true] .running (exampleBuild [] (.built (exampleRow false .missing))))
    [] [] _ _ _ rfl .markCreated
  refine ⟨_, _, hrun, hstep, ?_, ?_⟩
  · decide +kernel
  · refine created_index_valid _ _ _ .thread hrun trivial hstep (exampleRow false .created) ?_
      rfl ?_
    · decide +kernel
    · decide +kernel

/-- hived crashes while the index is built. The restart finds no missing index to restore, the
monitor sets the status back without dropping the index, and the command is skipped. -/
theorem if_not_exists_keeps_invalid : ∃ s s',
    Run exampleReader (fun _ _ ↦ True) s ∧ Step exampleReader .thread s s' ∧
      (∀ r ∈ s.rows, r.status ≠ .created) ∧ (∃ r ∈ s'.rows, r.name = "foo" ∧ r.status = .created) ∧
      ∀ p ∈ s'.pg, p.name = "foo" → p.valid = false := by
  have hbuilding : Run exampleReader (fun _ _ ↦ True) _ :=
    @example_building _ true (fun _ ↦ trivial) (fun _ ↦ trivial) (fun _ _ _ ↦ trivial) trivial
  have hcrash := (hbuilding.step trivial .crash).step trivial (.start rfl)
  have hreset : Run exampleReader (fun _ _ ↦ True) (exampleState [exampleRow true .missing]
      [exampleIndex true false] .running []) := hcrash.step trivial (.startMonitor rfl)
  have hrun := (example_marked (fun _ ↦ trivial) (fun _ _ _ ↦ trivial) hreset).step trivial
    (@Step.build _ _ [] [] _ _ _ rfl
      (.skip ⟨_, List.mem_cons_self, (example_objectName true).symm⟩ rfl))
  refine ⟨_, _, hrun, @Step.build exampleReader _ [] [] _ _ _ rfl .markCreated, ?_, ?_, ?_⟩
  · decide +kernel
  · decide +kernel
  · decide +kernel

end Monitor

end HiveForkManager
