import HiveForkManager.Lib.ExceptList
import HiveForkManager.RegisteredTable

namespace HiveForkManager

open ExceptList

variable {ρ : Type}

abbrev ContextName := String

inductive SyncState where
  | start
  | wait
  | reindexWait
  | reindex
  | p2p
  | live
  deriving DecidableEq, Repr

structure HiveState where
  consistentBlock : Option ℕ := none
  state : SyncState := .start
  pruning : ℕ := 0
  liteMode : Bool := false
  deriving DecidableEq, Repr

abbrev BlocksCount := { n : ℕ // 0 < n }

structure ApplicationStage where
  name : String
  minHeadBlockDistance : ℕ
  blocksLimitInGroup : BlocksCount
  processingAlarmThreshold : ℕ
  deriving DecidableEq, Repr

structure ApplicationLoopState where
  lastAnalyzeDistanceToHeadBlock : Option ℤ := none
  currentStage : Option ApplicationStage := none
  endBlockRange : Option ℕ := none
  sizeOfBlocksBatch : Option ℕ := none
  currentBatchEnd : Option ℕ := none
  deriving DecidableEq, Repr

/-- A row of `hafd.contexts` with its row of `hafd.contexts_attachment` and the tables registered
in it. -/
structure Context (ρ : Type) where
  name : ContextName
  currentBlockNum : ℕ
  irreversibleBlock : ℕ
  eventsId : ℕ
  forkId : ℕ
  isForking : Bool
  isAttached : Bool
  lastActiveAt : ℕ
  stages : Option (List ApplicationStage)
  loop : ApplicationLoopState
  tables : List (RegisteredTable ρ)
  deriving DecidableEq, Repr

structure Hafd where
  eventsQueue : List Event
  eventsIdSeq : ℕ
  forks : List Fork
  hiveState : HiveState
  irreversible : IrreversibleTables
  reversible : ReversibleTables
  deriving DecidableEq, Repr

structure Db (ρ : Type) extends Hafd where
  contexts : List (Context ρ)
  deriving DecidableEq, Repr

/-- `hive.initialize_extension_data` on an empty database. -/
def Hafd.initial : Hafd where
  eventsQueue := [⟨0, .newIrreversible, 0⟩]
  eventsIdSeq := 1
  forks := [⟨1, 1⟩]
  hiveState := {}
  irreversible := {}
  reversible := {}

def Db.initial (ρ : Type) : Db ρ := { Hafd.initial with contexts := [] }

def Hafd.consistentBlock (h : Hafd) : Option ℕ := h.hiveState.consistentBlock

def Hafd.irreversibleHead (h : Hafd) : ℕ := h.hiveState.consistentBlock.getD 0

def Db.context? (db : Db ρ) (name : ContextName) : Option (Context ρ) :=
  db.contexts.find? (fun c ↦ c.name = name)

/-- `UPDATE hafd.contexts SET … WHERE name = ANY( names )`. -/
def Db.updateContexts (names : List ContextName) (f : Context ρ → Context ρ) (db : Db ρ) : Db ρ :=
  { db with contexts := db.contexts.map (fun c ↦ if c.name ∈ names then f c else c) }

def Db.withContext (name : ContextName) (f : Context ρ → Except Error (Context ρ)) (db : Db ρ) :
    Except Error (Db ρ) := do
  let contexts ← db.contexts.mapM (fun c ↦ if c.name = name then f c else pure c)
  pure { db with contexts }

/-- `PERFORM f( context ) FROM unnest( names ) AS context`. -/
def Db.forEachContext (names : List ContextName) (f : Context ρ → Except Error (Context ρ))
    (db : Db ρ) : Except Error (Db ρ) :=
  names.foldlM (fun db name ↦ db.withContext name f) db

@[simp] theorem Db.updateContexts_toHafd (names : List ContextName) (f : Context ρ → Context ρ)
    (db : Db ρ) : (db.updateContexts names f).toHafd = db.toHafd := rfl

section ForEachContext

variable {names : List ContextName} {f : Context ρ → Except Error (Context ρ)}
  {g : Context ρ → Context ρ} {db db' : Db ρ}

theorem Db.withContext_eq {name : ContextName}
    (hf : ∀ c ∈ db.contexts, c.name = name → f c = .ok (g c)) :
    db.withContext name f = .ok (db.updateContexts [name] g) := by
  have hmap : db.contexts.mapM (fun c ↦ if c.name = name then f c else pure c) =
      .ok (db.contexts.map (fun c ↦ if c.name = name then g c else c)) := by
    apply mapM_ok
    intro c hc
    by_cases hcn : c.name = name
    · simpa only [hcn, if_true] using hf c hc hcn
    · simp only [hcn, if_false]
      rfl
  rw [withContext, hmap]
  simp [updateContexts]

theorem Db.updateContexts_cons {name : ContextName} (hname : ∀ c, (g c).name = c.name)
    (hnotin : name ∉ names) :
    (db.updateContexts [name] g).updateContexts names g = db.updateContexts (name :: names) g := by
  simp only [updateContexts, List.map_map]
  congr 1
  apply List.map_congr_left
  intro c _
  by_cases h0 : c.name = name
  · simp [h0, hname, hnotin]
  · simp [h0]

theorem Db.forEachContext_eq (hnames : names.Nodup) (hname : ∀ c, (g c).name = c.name)
    (hf : ∀ c ∈ db.contexts, c.name ∈ names → f c = .ok (g c)) :
    db.forEachContext names f = .ok (db.updateContexts names g) := by
  induction names generalizing db with
  | nil => simp [forEachContext, updateContexts]; rfl
  | cons name names ih =>
    rw [List.nodup_cons] at hnames
    have hrest : (db.updateContexts [name] g).forEachContext names f =
        .ok ((db.updateContexts [name] g).updateContexts names g) := by
      refine ih hnames.2 fun c hc hcn ↦ ?_
      obtain ⟨c₀, hc₀, rfl⟩ := List.mem_map.mp hc
      by_cases h0 : c₀.name = name
      · have : name ∈ names := by simpa [h0, hname] using hcn
        exact absurd this hnames.1
      · simp only [List.mem_singleton, h0, if_false] at hcn ⊢
        exact hf c₀ hc₀ (List.mem_cons_of_mem _ hcn)
    rw [forEachContext, List.foldlM_cons,
      withContext_eq fun c hc hcn ↦ hf c hc (hcn ▸ List.mem_cons_self)]
    exact hrest.trans (by rw [updateContexts_cons hname hnames.1])

end ForEachContext

end HiveForkManager
