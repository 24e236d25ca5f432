import HiveForkManager.GappedQueue

namespace HiveForkManager

open ExceptList

variable {w : World ℕ} {stored : List (Reversible BlockData)} {lo : ℕ}

namespace GappedInv

theorem initial (state : SyncState) : GappedInv (World.initial ℕ state) [] 0 where
  storage := (WorldInv.initial ℕ state).storage
  queue := .initial ℕ state
  contexts := by simp [World.initial, Db.initial]

theorem rolledBack (inv : GappedInv w stored lo) : GappedInv w.rolledBack stored lo where
  storage := by
    have hstorage := inv.storage
    rw [World.rolledBack]
    split
    · exact hstorage
    · exact hstorage.events _ _
  queue := inv.queue.rolledBack
  contexts := by
    have hcontexts := inv.contexts
    rw [World.rolledBack]
    split
    · exact hcontexts
    · exact fun c hc ↦ ⟨(hcontexts c hc).refersTo, (hcontexts c hc).irr_le⟩

theorem appKept (inv : GappedInv w stored lo) :
    AppKept w.db.toHafd (Placed w.db.toHafd w.db.toHafd.Refers)
      (w.db.contexts.map Context.name) w.db :=
  ⟨rfl, rfl, inv.contexts⟩

theorem of_appKept (inv : GappedInv w stored lo) {names : List ContextName} {db : Db ℕ}
    (hkept : AppKept w.db.toHafd (Placed w.db.toHafd w.db.toHafd.Refers) names db) :
    GappedInv { w with db } stored lo ∧ db.toHafd = w.db.toHafd := by
  obtain ⟨h, cs⟩ := db
  obtain ⟨rfl, -, hplaced⟩ := hkept
  obtain ⟨h₁, h₂, h₃, h₄, h₅, h₆, h₇, h₈, h₉, h₁₀, h₁₁, h₁₂⟩ := inv.queue
  exact ⟨⟨inv.storage, ⟨h₁, h₂, h₃, h₄, h₅, h₆, h₇, h₈, h₉, h₁₀, h₁₁, h₁₂⟩, hplaced⟩, rfl⟩

theorem app (inv : GappedInv w stored lo) {call : Db ℕ → Except Error (Db ℕ)}
    (hcall : ∀ db, call w.db = .ok db → ∃ names,
      AppKept w.db.toHafd (Placed w.db.toHafd w.db.toHafd.Refers) names db) :
    GappedInv (w.app call) stored lo ∧ (w.app call).db.toHafd = w.db.toHafd := by
  rw [World.app]
  split
  · exact ⟨inv, rfl⟩
  · rename_i db hok
    obtain ⟨names, hkept⟩ := hcall db hok
    exact inv.of_appKept hkept

theorem newContext_placed (inv : GappedInv w stored lo) (env : CallEnv) (name : ContextName)
    (isForking isAttached : Bool) (stages : Option (List ApplicationStage)) (tables : ℕ) :
    Placed w.db.toHafd w.db.toHafd.Refers
      (registerTable^[tables] (w.db.newContext env name isForking isAttached stages)) := by
  have hmin : (w.db.eventsQueue.map Event.id).min? = some 0 := by
    rw [List.min?_eq_some_iff]
    exact ⟨List.mem_map.mpr ⟨_, inv.queue.origin_mem, rfl⟩, fun _ _ ↦ Nat.zero_le _⟩
  rw [registerTable_iterate]
  refine ⟨?_, le_rfl⟩
  rw [Db.newContext, hmin]
  exact inv.queue.frame.zero

theorem step_app (inv : GappedInv w stored lo) (call : Call) (hcall : ∀ c, call ≠ .hived c) :
    GappedInv (w.step call) stored lo ∧ (w.step call).db.toHafd = w.db.toHafd := by
  have frame := inv.queue.frame
  cases call with
  | hived c => exact absurd rfl (hcall c)
  | createContext env name isForking isAttached stages tables =>
    refine inv.app fun db hok ↦ ?_
    obtain ⟨-, rfl⟩ := appCreateContext_eq_ok hok
    refine ⟨_, rfl, rfl, fun c hc ↦ ?_⟩
    rcases List.mem_append.mp hc with hc | hc
    · exact inv.contexts c hc
    · rw [List.mem_singleton.mp hc]
      exact inv.newContext_placed ..
  | nextBlock env contexts limit =>
    exact inv.app fun db hok ↦ ⟨_, processNextBlock_kept frame inv.appKept hok⟩
  | nextIteration env contexts overrideMaxBatch limit =>
    exact inv.app fun db hok ↦ ⟨_, processNextIteration_kept frame inv.appKept hok⟩
  | attach env contexts =>
    exact inv.app fun db hok ↦ ⟨_, appContextAttach_kept frame inv.appKept hok⟩
  | detach contexts =>
    exact inv.app fun db hok ↦ ⟨_, appContextDetach_kept frame inv.appKept hok⟩
  | setNonForking env contexts =>
    exact inv.app fun db hok ↦ ⟨_, appContextSetMode_kept frame inv.appKept hok⟩
  | setForking env contexts =>
    refine inv.app fun db hok ↦ ?_
    rw [appContextSetForking, inv.storage.full, if_neg Bool.false_ne_true] at hok
    exact ⟨_, appContextSetMode_kept frame inv.appKept hok⟩
  | autoDetach env timeout =>
    exact inv.of_appKept (performDeadAppContextsAutoDetach_kept frame inv.appKept)

theorem step (inv : GappedInv w stored lo) {call : Call} (hcall : call.Lawful w) :
    ∃ stored' lo', GappedInv (w.step call) stored' lo' ∧ Removal w (w.step call) lo lo' := by
  by_cases hhived : ∃ c, call = .hived c
  · obtain ⟨c, rfl⟩ := hhived
    exact inv.hived hcall
  · exact ⟨stored, lo, (inv.step_app call fun c hc ↦ hhived ⟨c, hc⟩).1, .nothing⟩

end GappedInv

theorem GappedReachable.gappedInv {P : World ℕ → Call → Prop}
    (hP : ∀ w call, P w call → call.Lawful w) (h : GappedReachable P w) :
    ∃ stored lo, GappedInv w stored lo := by
  induction h with
  | initial state => exact ⟨[], 0, .initial state⟩
  | step _ hcall ih =>
    obtain ⟨stored, lo, inv⟩ := ih
    obtain ⟨stored', lo', inv', -⟩ := inv.step (hP _ _ hcall)
    exact ⟨stored', lo', inv'⟩
  | rolledBack _ ih =>
    obtain ⟨stored, lo, inv⟩ := ih
    exact ⟨stored, lo, inv.rolledBack⟩

structure World.ReferencesKept (w : World ℕ) : Prop where
  present : ∀ c ∈ w.db.contexts, w.db.toHafd.Refers c.eventsId
  squashed : ∀ contexts db, squashEvents contexts w.db = .ok db →
    ∀ c ∈ db.contexts, w.db.toHafd.Refers c.eventsId
  removed : ∀ call : Call, call.Lawful w → ∀ e ∈ w.db.eventsQueue,
    e ∉ (w.step call).db.eventsQueue → ∀ c ∈ (w.step call).db.contexts, e.id < c.eventsId
  above : ∀ a ∈ w.history, a.event.event = .newBlock →
    w.db.irreversibleHead < a.event.blockNum → a.event ∈ w.db.eventsQueue
  canonical : w.Published → ∀ k, w.db.irreversibleHead < k → k ≤ w.chain.length →
    ∃ a ∈ w.history, a.event.event = .newBlock ∧ a.event.blockNum = k ∧
      a.chain = w.chain.take k ∧ a.event ∈ w.db.eventsQueue

theorem GappedInv.referencesKept (inv : GappedInv w stored lo) : w.ReferencesKept where
  present c hc := (inv.contexts c hc).refersTo
  squashed contexts db hok c hc :=
    ((squashEvents_kept inv.queue.frame inv.appKept hok).contexts c hc).refersTo
  removed call hcall e he he' c hc := by
    by_cases hhived : ∃ c, call = .hived c
    · obtain ⟨hivedCall, rfl⟩ := hhived
      obtain ⟨stored', lo', inv', hremoval⟩ := inv.hived hcall
      have hresult := World.hivedResult inv.storage hcall
      exact inv.lt_eventsId_of_removed inv' hremoval hresult.history he he'
        (hresult.contexts ▸ hc)
    · rw [(inv.step_app call fun c hc ↦ hhived ⟨c, hc⟩).2] at he'
      exact absurd he he'
  above a ha hev hlt := inv.queue.mem_of_above ha hev hlt
  canonical hpub k hk hle := by
    obtain ⟨a, ha, hev, hnum, hchain⟩ := inv.queue.pushed hpub k hk hle
    exact ⟨a, ha, hev, hnum, hchain, inv.queue.mem_of_above ha hev (hnum ▸ hk)⟩

/-- References to events stay valid in every run, with gaps between the ids of the events. -/
theorem GappedReachable.referencesKept (hw : GappedReachable (fun w call ↦ call.Lawful w) w) :
    w.ReferencesKept := by
  obtain ⟨stored, lo, inv⟩ := hw.gappedInv fun _ _ h ↦ h
  exact inv.referencesKept

end HiveForkManager
