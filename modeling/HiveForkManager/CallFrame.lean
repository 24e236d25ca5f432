import HiveForkManager.AppFrame
import HiveForkManager.System

namespace HiveForkManager

open ExceptList

variable {ρ : Type} {h : Hafd} {names : List ContextName} {db db' : Db ρ}
  {contexts : List ContextName} {R : ℕ → Prop}

section Functions

variable (frame : EventFrame h R)

include frame

theorem contextAttach_kept {n : ℕ} {c c' : Context ρ} (hok : contextAttach n c = .ok c') :
    ContextKept (Placed h R) c c' := by
  obtain ⟨-, rfl⟩ := contextAttach_eq_ok hok
  exact fun hc ↦ ⟨⟨frame.zero, hc.irr_le⟩, rfl⟩

theorem contextDetach_kept {c c' : Context ρ} (hok : contextDetach h c = .ok c') :
    ContextKept (Placed h R) c c' := by
  obtain ⟨tables, -, hok⟩ := bind_eq_ok.mp hok
  cases hok
  intro hc
  obtain ⟨hgrounded, hname⟩ := contextBackFromFork_kept (b := c.irreversibleBlock) c hc
  exact ⟨⟨frame.sink, hgrounded.irr_le⟩, hname⟩

variable {env : CallEnv} {lead : Context ρ} {wait : Bool} {overrideMaxBatch limit : Option ℕ}
variable {range : Option (ℕ × ℕ)}

theorem appContextAttach_kept (hkept : AppKept h (Placed h R) names db)
    (hok : appContextAttach env contexts db = .ok db') : AppKept h (Placed h R) names db' := by
  obtain ⟨-, -, hok⟩ := bind_eq_ok.mp hok
  split at hok
  · cases hok
  · split at hok
    · cases hok
    · refine AppKept.forEachContext ?_ (fun _ _ _ ↦ contextAttach_kept frame) hok
      refine hkept.updateContexts fun c _ _ ↦ ⟨⟨frame.zero, ?_⟩, rfl⟩
      rw [hkept.toHafd]

theorem appContextDetach_kept (hkept : AppKept h (Placed h R) names db)
    (hok : appContextDetach contexts db = .ok db') : AppKept h (Placed h R) names db' := by
  obtain ⟨-, -, hok⟩ := bind_eq_ok.mp hok
  rw [hkept.toHafd] at hok
  exact hkept.forEachContext (fun _ _ _ ↦ contextDetach_kept frame) hok

theorem appContextSetMode_kept {isForking : Bool} (hkept : AppKept h (Placed h R) names db)
    (hok : appContextSetMode env isForking contexts db = .ok db') :
    AppKept h (Placed h R) names db' := by
  rw [appContextSetMode] at hok
  split at hok
  · cases hok
    exact hkept
  · obtain ⟨-, -, hok⟩ := bind_eq_ok.mp hok
    obtain ⟨db₁, h₁, hok⟩ := bind_eq_ok.mp hok
    rw [hkept.toHafd] at h₁
    have hkept₁ := hkept.forEachContext (fun _ _ _ ↦ contextDetach_kept frame) h₁
    refine AppKept.forEachContext ?_ (fun _ _ _ ↦ contextAttach_kept frame) hok
    exact hkept₁.updateContexts fun _ _ ↦ .of_eq rfl rfl rfl

theorem autoDetachContext_kept {name : ContextName} (hkept : AppKept h (Placed h R) names db) :
    AppKept h (Placed h R) names (autoDetachContext name db) := by
  rw [autoDetachContext]
  split
  · exact hkept
  · split
    · exact hkept
    · rename_i hdetach
      refine (appContextDetach_kept frame hkept hdetach).updateContexts fun c _ ↦ ?_
      split <;> exact .of_eq rfl rfl rfl

theorem performDeadAppContextsAutoDetach_kept {timeout : ℕ}
    (hkept : AppKept h (Placed h R) names db) :
    AppKept h (Placed h R) names (performDeadAppContextsAutoDetach env timeout db) := by
  have hfold : ∀ (l : List ContextName) (db : Db ρ), AppKept h (Placed h R) names db →
      AppKept h (Placed h R) names (l.foldl (fun db name ↦ autoDetachContext name db) db) := by
    intro l
    induction l with
    | nil => exact fun _ hdb ↦ hdb
    | cons name l ih => exact fun _ hdb ↦ ih _ (autoDetachContext_kept frame hdb)
  rw [performDeadAppContextsAutoDetach]
  split
  · exact hfold _ _ hkept
  · exact hkept

theorem updateAttachment_kept (hkept : AppKept h (Placed h R) names db)
    (hok : updateAttachment env contexts db = .ok db') : AppKept h (Placed h R) names db' := by
  obtain ⟨attached, -, hok⟩ := bind_eq_ok.mp hok
  split at hok
  · split at hok
    · cases hok
      exact hkept
    · exact appContextAttach_kept frame hkept hok
  · split at hok
    · exact appContextDetach_kept frame hkept hok
    · cases hok
      exact hkept

theorem attachForAnalysis_kept (hkept : AppKept h (Placed h R) names db)
    (hok : attachForAnalysis env contexts lead db = .ok db') :
    AppKept h (Placed h R) names db' := by
  obtain ⟨forking, -, hok⟩ := bind_eq_ok.mp hok
  obtain ⟨attached, -, hok⟩ := bind_eq_ok.mp hok
  split at hok
  · exact appContextAttach_kept frame hkept hok
  · cases hok
    exact hkept

theorem nextAnalyzedRange_kept (hkept : AppKept h (Placed h R) names db)
    (hok : nextAnalyzedRange env contexts wait overrideMaxBatch limit lead db = .ok (db', range)) :
    AppKept h (Placed h R) names db' := by
  obtain ⟨db₁, h₁, hok⟩ := bind_eq_ok.mp hok
  obtain ⟨⟨db₂, range₂⟩, h₂, hok⟩ := bind_eq_ok.mp hok
  have hkept₂ := appNextBlock_kept frame (attachForAnalysis_kept frame hkept h₁) h₂
  cases range₂ with
  | none =>
    cases hok
    exact hkept₂
  | some r =>
    obtain ⟨db₃, h₃, hok⟩ := bind_eq_ok.mp hok
    cases hok
    obtain ⟨stages, -, h₃⟩ := bind_eq_ok.mp h₃
    cases h₃
    refine AppKept.updateContexts ?_ fun _ _ ↦ .of_eq rfl rfl rfl
    exact hkept₂.updateContexts fun _ _ ↦ .of_eq rfl rfl rfl

theorem finishIteration_kept {lastBlock : ℕ} {endBlockRange : Option ℕ}
    (hkept : AppKept h (Placed h R) names db)
    (hok : finishIteration env contexts lastBlock endBlockRange db = .ok db') :
    AppKept h (Placed h R) names db' := by
  obtain ⟨db₁, h₁, hok⟩ := bind_eq_ok.mp hok
  cases hok
  have hnoted : AppKept h (Placed h R) names (db.updateContexts contexts (fun c ↦
      { c with loop := { c.loop with currentBatchEnd := some lastBlock, endBlockRange } })) :=
    hkept.updateContexts fun _ _ ↦ .of_eq rfl rfl rfl
  exact (updateAttachment_kept frame hnoted h₁).updateContexts fun _ _ ↦ .of_eq rfl rfl rfl

theorem iterate_kept (hkept : AppKept h (Placed h R) names db)
    (hok : iterate env contexts wait overrideMaxBatch limit lead db = .ok (db', range)) :
    AppKept h (Placed h R) names db' := by
  obtain ⟨⟨db₁, range₁⟩, h₁, hok⟩ := bind_eq_ok.mp hok
  have hkept₁ : AppKept h (Placed h R) names db₁ := by
    rw [nextRange] at h₁
    split at h₁
    · exact nextAnalyzedRange_kept frame hkept h₁
    · cases h₁
      exact hkept
  cases range₁ with
  | none =>
    cases hok
    exact hkept₁
  | some r =>
    obtain ⟨db₂, h₂, hok⟩ := bind_eq_ok.mp hok
    cases hok
    exact finishIteration_kept frame hkept₁ h₂

theorem appNextIteration_kept (hkept : AppKept h (Placed h R) names db)
    (hok : appNextIteration env contexts wait overrideMaxBatch limit db = .ok (db', range)) :
    AppKept h (Placed h R) names db' := by
  obtain ⟨-, -, hok⟩ := bind_eq_ok.mp hok
  have hactive : AppKept h (Placed h R) names
      (db.updateContexts contexts (fun c ↦ { c with lastActiveAt := env.now })) :=
    hkept.updateContexts fun _ _ ↦ .of_eq rfl rfl rfl
  generalize hdb : db.updateContexts contexts (fun c ↦ { c with lastActiveAt := env.now }) = active
    at hok hactive
  cases hlead : active.leadContext contexts with
  | none =>
    simp only [hlead] at hok
    cases hok
  | some lead =>
    simp only [hlead] at hok
    split at hok
    · cases hok
      exact hactive
    · split at hok
      · cases hok
        exact hactive
      · split at hok
        · cases hok
          exact hactive.updateContexts fun _ _ ↦ .of_eq rfl rfl rfl
        · split at hok
          · cases hok
          · have hdefault :
                AppKept h (Placed h R) names (appContextSetDefaultStages contexts active) :=
              hactive.updateContexts fun _ _ ↦ .of_eq rfl rfl rfl
            exact iterate_kept frame hdefault hok

end Functions

theorem insertBlocks_kept {nums : List ℕ} {db db' : Db ℕ} (hkept : AppKept h (Placed h R) names db)
    (hok : insertBlocks contexts nums db = .ok db') : AppKept h (Placed h R) names db' := by
  refine hkept.forEachContext (fun c c' _ hc ↦ ?_) hok
  obtain ⟨tables, -, hc⟩ := bind_eq_ok.mp hc
  cases hc
  exact .of_eq rfl rfl rfl

theorem processNextBlock_kept (frame : EventFrame h R) {env : CallEnv} {limit : Option ℕ}
    {db db' : Db ℕ} (hkept : AppKept h (Placed h R) names db)
    (hok : processNextBlock env contexts limit db = .ok db') :
    AppKept h (Placed h R) names db' := by
  obtain ⟨⟨db₁, range⟩, h₁, hok⟩ := bind_eq_ok.mp hok
  have hkept₁ := appNextBlock_kept frame hkept h₁
  cases range with
  | none =>
    cases hok
    exact hkept₁
  | some r => exact insertBlocks_kept hkept₁ hok

theorem processNextIteration_kept (frame : EventFrame h R) {env : CallEnv}
    {overrideMaxBatch limit : Option ℕ} {db db' : Db ℕ}
    (hkept : AppKept h (Placed h R) names db)
    (hok : processNextIteration env contexts overrideMaxBatch limit db = .ok db') :
    AppKept h (Placed h R) names db' := by
  obtain ⟨⟨db₁, range⟩, h₁, hok⟩ := bind_eq_ok.mp hok
  have hkept₁ := appNextIteration_kept frame hkept h₁
  cases range with
  | none =>
    cases hok
    exact hkept₁
  | some r => exact insertBlocks_kept hkept₁ hok

section Calls

variable {w : World ℕ} {stored : List (Reversible BlockData)} {lo : ℕ}

theorem EventsInv.frame {history : List HistoryEntry} {chain : List BlockData}
    (inv : EventsInv h history lo chain) : EventFrame h (RefersTo history lo) where
  of_mem_queue _ := RefersTo.of_mem_queue inv
  zero := RefersTo.zero inv
  sink := RefersTo.sink inv
  blockNum_le _ := inv.blockNum_le

/-- What the calls of the applications keep of a world. -/
abbrev World.Kept (w : World ℕ) (lo : ℕ) (db : Db ℕ) : Prop :=
  AppKept w.db.toHafd (Placed w.db.toHafd (RefersTo w.history lo))
    (w.db.contexts.map Context.name) db

theorem WorldInv.appKept (inv : WorldInv w stored lo) : w.Kept lo w.db :=
  ⟨rfl, rfl, fun c hc ↦ ⟨(inv.contexts c hc).refersTo, (inv.contexts c hc).irr_le⟩⟩

theorem WorldInv.of_appKept (inv : WorldInv w stored lo) {db : Db ℕ}
    (hkept : w.Kept lo db) : WorldInv { w with db } stored lo := by
  obtain ⟨h, cs⟩ := db
  obtain ⟨rfl, hnames, hplaced⟩ := hkept
  exact ⟨inv.storage, inv.events, fun c hc ↦ ⟨(hplaced c hc).refersTo, (hplaced c hc).irr_le⟩,
    hnames ▸ inv.names, inv.notPruned⟩

theorem WorldInv.app (inv : WorldInv w stored lo) {call : Db ℕ → Except Error (Db ℕ)}
    (hcall : ∀ db, call w.db = .ok db → w.Kept lo db) :
    WorldInv (w.app call) stored lo := by
  rw [World.app]
  split
  · exact inv
  · rename_i db hok
    exact inv.of_appKept (hcall db hok)

theorem registerTable_iterate (n : ℕ) (c : Context ρ) :
    registerTable^[n] c =
      { c with tables := c.tables ++ List.replicate n ⟨[], [], 1, c.isAttached⟩ } := by
  induction n generalizing c with
  | zero => simp
  | succ n ih =>
    rw [Function.iterate_succ_apply, ih]
    simp [registerTable, List.replicate_succ]

theorem appCreateContext_eq_ok {env : CallEnv} {name : ContextName} {isForking isAttached : Bool}
    {stages : Option (List ApplicationStage)} {tables : ℕ}
    (hok : appCreateContext env name isForking isAttached stages tables db = .ok db') :
    (∀ c ∈ db.contexts, c.name ≠ name) ∧ db' = { db with contexts := db.contexts ++
      [registerTable^[tables] (db.newContext env name isForking isAttached stages)] } := by
  rw [appCreateContext] at hok
  split at hok
  · cases hok
  · split at hok
    · cases hok
    · rename_i hnew
      cases hok
      simpa using hnew

theorem WorldInv.createContext (inv : WorldInv w stored lo) (env : CallEnv) (name : ContextName)
    (isForking isAttached : Bool) (stages : Option (List ApplicationStage)) (tables : ℕ) :
    WorldInv (w.app (appCreateContext env name isForking isAttached stages tables)) stored lo := by
  rw [World.app]
  split
  · exact inv
  · rename_i db hok
    obtain ⟨hnew, rfl⟩ := appCreateContext_eq_ok hok
    refine ⟨inv.storage, inv.events, ?_, ?_, inv.notPruned⟩
    · intro c hc
      rcases List.mem_append.mp hc with hc | hc
      · exact inv.contexts c hc
      · rw [List.mem_singleton.mp hc, registerTable_iterate]
        refine ⟨?_, le_rfl⟩
        rw [Db.newContext, inv.events.min_id]
        exact RefersTo.zero inv.events
    · rw [List.map_append, List.nodup_append]
      refine ⟨inv.names, List.nodup_singleton _, ?_⟩
      intro a ha b hb
      obtain ⟨c, hc, rfl⟩ := List.mem_map.mp ha
      rw [List.map_singleton, List.mem_singleton, registerTable_iterate] at hb
      exact hb ▸ hnew c hc

theorem WorldInv.step (inv : WorldInv w stored lo) {call : Call} (hcall : call.Lawful w) :
    ∃ stored' lo', WorldInv (w.step call) stored' lo' := by
  cases call with
  | hived call => exact inv.hived hcall
  | createContext env name isForking isAttached stages tables =>
    exact ⟨stored, lo, inv.createContext ..⟩
  | nextBlock env contexts limit =>
    exact ⟨stored, lo, inv.app fun db ↦ processNextBlock_kept inv.events.frame inv.appKept⟩
  | nextIteration env contexts overrideMaxBatch limit =>
    exact ⟨stored, lo, inv.app fun db ↦ processNextIteration_kept inv.events.frame inv.appKept⟩
  | attach env contexts =>
    exact ⟨stored, lo, inv.app fun db ↦ appContextAttach_kept inv.events.frame inv.appKept⟩
  | detach contexts =>
    exact ⟨stored, lo, inv.app fun db ↦ appContextDetach_kept inv.events.frame inv.appKept⟩
  | setNonForking env contexts =>
    exact ⟨stored, lo, inv.app fun db ↦ appContextSetMode_kept inv.events.frame inv.appKept⟩
  | setForking env contexts =>
    refine ⟨stored, lo, inv.app fun db hok ↦ ?_⟩
    rw [appContextSetForking, inv.storage.full, if_neg Bool.false_ne_true] at hok
    exact appContextSetMode_kept inv.events.frame inv.appKept hok
  | autoDetach env timeout =>
    exact ⟨stored, lo, inv.of_appKept
      (performDeadAppContextsAutoDetach_kept inv.events.frame inv.appKept)⟩

theorem Reachable.worldInv {P : World ℕ → Call → Prop} (hP : ∀ w call, P w call → call.Lawful w)
    (h : Reachable P w) : ∃ stored lo, WorldInv w stored lo := by
  induction h with
  | initial state => exact ⟨[], 0, WorldInv.initial ℕ state⟩
  | step _ hcall ih =>
    obtain ⟨stored, lo, inv⟩ := ih
    exact inv.step (hP _ _ hcall)

end Calls

end HiveForkManager
