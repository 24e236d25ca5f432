import HiveForkManager.HivedSteps

namespace HiveForkManager

open ExceptList

variable {ρ : Type} {h : Hafd} {names : List ContextName} {db db' : Db ρ}
  {contexts : List ContextName} {P : Context ρ → Prop} {R : ℕ → Prop}

/-- What the calls of the applications keep, where `P` holds of every context. -/
structure AppKept (h : Hafd) (P : Context ρ → Prop) (names : List ContextName) (db : Db ρ) :
    Prop where
  toHafd : db.toHafd = h
  names : db.contexts.map Context.name = names
  contexts : ∀ c ∈ db.contexts, P c

def ContextKept (P : Context ρ → Prop) (c c' : Context ρ) : Prop := P c → P c' ∧ c'.name = c.name

theorem ContextKept.refl (c : Context ρ) : ContextKept P c c := fun hc ↦ ⟨hc, rfl⟩

structure EventFrame (h : Hafd) (R : ℕ → Prop) : Prop where
  of_mem_queue : ∀ e ∈ h.eventsQueue, R e.id
  zero : R 0
  sink : R unreachableEventId
  blockNum_le : ∀ e ∈ h.eventsQueue, e.event = .newIrreversible ∨ e.event = .massiveSync →
    e.blockNum ≤ h.irreversibleHead

/-- What holds of every context, where `R` holds of the events it may refer to. -/
structure Placed (h : Hafd) (R : ℕ → Prop) (c : Context ρ) : Prop where
  refersTo : R c.eventsId
  irr_le : c.irreversibleBlock ≤ h.irreversibleHead

variable {c c' : Context ρ} {range : Option BlocksRange}

theorem ContextKept.of_eq (hname : c'.name = c.name)
    (hid : c'.eventsId = c.eventsId) (hirr : c'.irreversibleBlock = c.irreversibleBlock) :
    ContextKept (Placed h R) c c' :=
  fun hc ↦ ⟨⟨hid ▸ hc.refersTo, hirr ▸ hc.irr_le⟩, hname⟩

theorem ContextKept.trans {c'' : Context ρ} (h₁ : ContextKept P c c')
    (h₂ : ContextKept P c' c'') : ContextKept P c c'' := fun hc ↦ by
  obtain ⟨hc', hname⟩ := h₁ hc
  obtain ⟨hc'', hname'⟩ := h₂ hc'
  exact ⟨hc'', hname'.trans hname⟩

theorem ContextKept.of_forall₂ {cs cs' : List (Context ρ)}
    (hrel : List.Forall₂ (ContextKept P) cs cs') (hg : ∀ c ∈ cs, P c) :
    cs'.map Context.name = cs.map Context.name ∧ ∀ c ∈ cs', P c := by
  induction hrel with
  | nil => exact ⟨rfl, hg⟩
  | cons hab _ ih =>
    obtain ⟨hb, hname⟩ := hab (hg _ List.mem_cons_self)
    obtain ⟨hnames, hrest⟩ := ih fun c hc ↦ hg c (List.mem_cons_of_mem _ hc)
    refine ⟨by rw [List.map_cons, List.map_cons, hname, hnames], ?_⟩
    intro c hc
    rcases List.mem_cons.mp hc with rfl | hc
    · exact hb
    · exact hrest c hc

namespace AppKept

theorem imp {Q : Context ρ → Prop} (hkept : AppKept h P names db)
    (hPQ : ∀ c ∈ db.contexts, P c → Q c) : AppKept h Q names db :=
  ⟨hkept.toHafd, hkept.names, fun c hc ↦ hPQ c hc (hkept.contexts c hc)⟩

theorem updateContexts {f : Context ρ → Context ρ} (hkept : AppKept h P names db)
    (hf : ∀ c, c.name ∈ contexts → ContextKept P c (f c)) :
    AppKept h P names (db.updateContexts contexts f) where
  toHafd := hkept.toHafd
  names := by
    rw [← hkept.names, Db.updateContexts, List.map_map]
    apply List.map_congr_left
    intro c hc
    by_cases hn : c.name ∈ contexts
    · simpa [hn] using (hf c hn (hkept.contexts c hc)).2
    · simp [hn]
  contexts c hc := by
    obtain ⟨c₀, hc₀, rfl⟩ := List.mem_map.mp hc
    by_cases hn : c₀.name ∈ contexts
    · simpa [hn] using (hf c₀ hn (hkept.contexts c₀ hc₀)).1
    · simpa [hn] using hkept.contexts c₀ hc₀

theorem withContext {f : Context ρ → Except Error (Context ρ)} {name : ContextName}
    (hkept : AppKept h P names db)
    (hf : ∀ c c', c.name = name → f c = .ok c' → ContextKept P c c')
    (hok : db.withContext name f = .ok db') : AppKept h P names db' := by
  obtain ⟨cs, hcs, hok⟩ := bind_eq_ok.mp hok
  cases hok
  have hrel := (forall₂_of_mapM_eq_ok hcs).imp (S := ContextKept P) fun c c' hc ↦ by
    split at hc
    · exact hf c c' ‹_› hc
    · cases hc
      exact .refl _
  obtain ⟨hnames, hcontexts⟩ := ContextKept.of_forall₂ hrel hkept.contexts
  exact ⟨hkept.toHafd, hnames.trans hkept.names, hcontexts⟩

theorem forEachContext {f : Context ρ → Except Error (Context ρ)} (hkept : AppKept h P names db)
    (hf : ∀ c c', c.name ∈ contexts → f c = .ok c' → ContextKept P c c')
    (hok : db.forEachContext contexts f = .ok db') : AppKept h P names db' := by
  induction contexts generalizing db with
  | nil =>
    cases hok
    exact hkept
  | cons name contexts ih =>
    rw [Db.forEachContext, List.foldlM_cons] at hok
    obtain ⟨db₁, h₁, hok⟩ := bind_eq_ok.mp hok
    refine ih (hkept.withContext (fun c c' hname ↦ hf c c' ?_) h₁)
      (fun c c' hname ↦ hf c c' (List.mem_cons_of_mem _ hname)) hok
    exact hname ▸ List.mem_cons_self

end AppKept

theorem processForContexts_kept
    {process : Context ρ → Except Error (Context ρ × Option BlocksRange)}
    (hprocess : ∀ c c' r, c.name ∈ contexts → process c = .ok (c', r) → ContextKept P c c')
    (hkept : AppKept h P names db)
    (hok : processForContexts contexts process db = .ok (db', range)) : AppKept h P names db' := by
  obtain ⟨db₁, h₁, hok⟩ := bind_eq_ok.mp hok
  have hkept₁ := hkept.forEachContext (fun c c' hname hc ↦ by
    cases hp : process c with
    | error e =>
      rw [hp] at hc
      cases hc
    | ok x =>
      rw [hp] at hc
      cases hc
      exact hprocess c x.1 x.2 hname hp) h₁
  split at hok
  · cases hok
    exact hkept₁
  · obtain ⟨x, -, hok⟩ := bind_eq_ok.mp hok
    cases hok
    exact hkept₁

theorem leastLimit_le (n : ℕ) (limit : Option ℕ) : leastLimit n limit ≤ n := by
  cases limit with
  | none => exact le_rfl
  | some l => exact Nat.min_le_left _ _

/-- What `hive.app_process_event` can do to a context. -/
inductive Processed (h : Hafd) (state : ContextState) (limit : Option ℕ) (c : Context ρ) :
    Context ρ → Option BlocksRange → Prop
  | forked {id forkId : ℕ} {hf : Fork} (hev : state.nextEvent = some ⟨id, .backFromFork, forkId⟩)
      (hfork : h.forks.find? (fun hf ↦ hf.id = forkId) = some hf) :
      Processed h state limit c { contextBackFromFork h hf.blockNum c with
        currentBlockNum := hf.blockNum, forkId := hf.id } none
  | refused {id num : ℕ} (hev : state.nextEvent = some ⟨id, .newBlock, num⟩)
      (hnum : state.currentBlockNum < num) (hlimit : aboveLimit limit num = true) :
      Processed h state limit c c (some .negative)
  | newBlock {id num : ℕ} (hev : state.nextEvent = some ⟨id, .newBlock, num⟩)
      (hnum : num = state.currentBlockNum + 1)
      (hlimit : aboveLimit limit num = false) :
      Processed h state limit c { c with currentBlockNum := num } (some ⟨num, num⟩)
  | overtaken {id num : ℕ} (head : ℕ) (hcons : h.consistentBlock = some head)
      (hev : state.nextEvent = some ⟨id, .newBlock, num⟩ ∧ state.currentBlockNum + 1 < num ∧
        state.irreversibleBlockNum < state.currentBlockNum) {c₁ c' : Context ρ}
      {range : Option BlocksRange} (hset : contextSetIrreversibleBlock head c = .ok c₁)
      (hrange : processIrreversibleRange h state.currentBlockNum
        (leastLimit c₁.irreversibleBlock limit) c₁ = (c', range)) :
      Processed h state limit c c' range
  | irreversible (hev : ∀ e, state.nextEvent = some e → e.event ≠ .backFromFork ∧
        (e.event = .newBlock → state.currentBlockNum + 1 < e.blockNum ∧
          state.currentBlockNum ≤ state.irreversibleBlockNum ∧
          aboveLimit limit e.blockNum = false))
      {c' : Context ρ} {range : Option BlocksRange}
      (hrange : processIrreversibleRange h state.currentBlockNum
        (leastLimit c.irreversibleBlock limit) c = (c', range)) :
      Processed h state limit c c' range

theorem processed_of_eq_ok {state : ContextState} {limit : Option ℕ}
    (hok : appProcessEvent h state limit c = .ok (c', range)) :
    Processed h state limit c c' range := by
  rw [appProcessEvent] at hok
  dsimp only at hok
  split at hok
  · rename_i hev
    split at hok
    · cases hok
    · rename_i hfork
      cases hok
      exact .forked hev hfork
  · rename_i num hev
    split at hok
    · cases hok
    · rename_i hlt
      rw [not_not] at hlt
      split at hok
      · rename_i hlimit
        cases hok
        exact .refused hev hlt hlimit
      · rename_i hlimit
        rw [Bool.not_eq_true] at hlimit
        split at hok
        · rename_i hnum
          cases hok
          exact .newBlock hev hnum hlimit
        · split at hok
          · split at hok
            · cases hok
            · rename_i head hcons
              split at hok
              · cases hset : contextSetIrreversibleBlock head c with
                | error e =>
                  rw [hset] at hok
                  cases hok
                | ok c₁ =>
                  rw [hset] at hok
                  exact .overtaken head hcons ⟨hev, by omega, by omega⟩ hset (Except.ok.inj hok)
              · cases hok
          · refine .irreversible (fun e he ↦ ?_) (Except.ok.inj hok)
            rw [hev, Option.some.injEq] at he
            subst he
            exact ⟨by simp, fun _ ↦ ⟨by dsimp only; omega, by omega, hlimit⟩⟩
  · rename_i hbff hnb
    refine .irreversible (fun e he ↦ ⟨fun hev ↦ ?_, fun hev ↦ ?_⟩) (Except.ok.inj hok)
    · obtain ⟨id, type, num⟩ := e
      exact hbff id num (by rw [he, ← hev])
    · obtain ⟨id, type, num⟩ := e
      exact absurd he (by rw [show type = .newBlock from hev]; exact hnb id num)

/-- What no call of `hive.app_next_block` changes of a context. -/
structure Settings where
  name : ContextName
  isForking : Bool
  isAttached : Bool
  stages : Option (List ApplicationStage)
  loop : ApplicationLoopState
  deriving DecidableEq, Repr

def Context.settings (c : Context ρ) : Settings where
  name := c.name
  isForking := c.isForking
  isAttached := c.isAttached
  stages := c.stages
  loop := c.loop

theorem contextBackFromFork_settings (b : ℕ) (c : Context ρ) :
    (contextBackFromFork h b c).settings = c.settings := by
  rw [contextBackFromFork, Context.backFromForkLite, Context.backFromFork]
  split <;> split <;> rfl

theorem processIrreversibleRange_settings {current n : ℕ}
    (hr : processIrreversibleRange h current n c = (c', range)) :
    c'.settings = c.settings := by
  rw [processIrreversibleRange] at hr
  split at hr <;> cases hr <;> rfl

theorem Processed.settings {state : ContextState} {limit : Option ℕ}
    (hp : Processed h state limit c c' range) :
    c'.settings = c.settings := by
  cases hp with
  | forked => exact contextBackFromFork_settings _ c
  | refused => rfl
  | newBlock => rfl
  | overtaken head hcons hev hset hrange =>
    obtain ⟨-, rfl⟩ := contextSetIrreversibleBlock_eq_ok hset
    have hsettings := processIrreversibleRange_settings hrange
    exact hsettings
  | irreversible hev hrange => exact processIrreversibleRange_settings hrange

section Functions

variable {n : ℕ} {c c' : Context ρ} {range : Option BlocksRange} {limit : Option ℕ}

theorem contextSetIrreversibleBlock_kept (hn : n ≤ h.irreversibleHead)
    (hok : contextSetIrreversibleBlock n c = .ok c') : ContextKept (Placed h R) c c' := by
  obtain ⟨-, rfl⟩ := contextSetIrreversibleBlock_eq_ok hok
  exact fun hc ↦ ⟨⟨hc.refersTo, hn⟩, rfl⟩

theorem contextBackFromFork_kept {b : ℕ} (c : Context ρ) :
    ContextKept (Placed h R) c (contextBackFromFork h b c) := by
  rw [contextBackFromFork]
  split
  · rw [Context.backFromForkLite]
    split <;> exact .of_eq rfl rfl rfl
  · exact .of_eq Context.backFromFork_name Context.backFromFork_eventsId
      Context.backFromFork_irreversibleBlock

theorem eventsId_kept (c : Context ρ) {i : ℕ} (hi : R i) :
    ContextKept (Placed h R) c { c with eventsId := i } :=
  fun hc ↦ ⟨⟨hi, hc.irr_le⟩, rfl⟩

theorem updateIrreversible_eq_ok (hok : updateIrreversible contexts db = .ok db') :
    db' = db ∨ ∃ n, db.forEachContext contexts (contextSetIrreversibleBlock n) = .ok db' ∧
      (n = db.irreversibleHead ∨ ∃ e ∈ db.eventsQueue,
        (e.event = .newIrreversible ∨ e.event = .massiveSync) ∧ n = e.blockNum) := by
  rw [updateIrreversible] at hok
  split at hok
  · exact .inl (Except.ok.inj hok).symm
  · split at hok
    · exact .inr ⟨_, hok, .inl rfl⟩
    · split at hok
      · exact .inl (Except.ok.inj hok).symm
      · rename_i heq hnext
        have hmem := List.argmax_mem hnext
        rw [List.mem_filter, decide_eq_true_eq] at hmem
        obtain ⟨he, -, htype, -⟩ := hmem
        exact .inr ⟨_, hok, .inr ⟨heq, he, htype.symm, rfl⟩⟩

variable (frame : EventFrame h R)

include frame

theorem AppKept.updateIrreversible {P : Context ρ → Prop}
    (hset : ∀ n c c', n ≤ h.irreversibleHead → contextSetIrreversibleBlock n c = .ok c' →
      ContextKept P c c')
    (hkept : AppKept h P names db) (hok : updateIrreversible contexts db = .ok db') :
    AppKept h P names db' := by
  rcases updateIrreversible_eq_ok hok with rfl | ⟨n, hok, hn⟩
  · exact hkept
  · have hle : n ≤ h.irreversibleHead := by
      rw [hkept.toHafd] at hn
      rcases hn with rfl | ⟨e, he, htype, rfl⟩
      · exact le_rfl
      · exact frame.blockNum_le e he htype
    exact hkept.forEachContext (fun c c' _ ↦ hset n c c' hle) hok

theorem setEventsId_kept {i : ℕ} (hkept : AppKept h (Placed h R) names db)
    (hok : db.setEventsId contexts i = .ok db') : AppKept h (Placed h R) names db' := by
  rw [Db.setEventsId] at hok
  split at hok
  · rename_i hany
    obtain ⟨e, he, hid⟩ := List.any_eq_true.mp hany
    cases hok
    have hi : R i :=
      decide_eq_true_eq.mp hid ▸ frame.of_mem_queue e (hkept.toHafd ▸ he)
    exact hkept.updateContexts fun c _ ↦ eventsId_kept c hi
  · cases hok

theorem squashForkEvents_kept (hkept : AppKept h (Placed h R) names db)
    (hok : squashForkEvents contexts db = .ok db') : AppKept h (Placed h R) names db' := by
  rw [squashForkEvents] at hok
  split at hok
  · cases hok
    exact hkept
  · split at hok
    · cases hok
      exact hkept
    · split at hok
      · cases hok
        exact hkept
      · exact setEventsId_kept frame hkept hok

theorem updateIrreversible_kept (hkept : AppKept h (Placed h R) names db)
    (hok : updateIrreversible contexts db = .ok db') : AppKept h (Placed h R) names db' :=
  hkept.updateIrreversible frame (fun _ _ _ ↦ contextSetIrreversibleBlock_kept) hok

theorem squashEndMassiveSyncEvents_kept {squashed : Bool} (hkept : AppKept h (Placed h R) names db)
    (hok : squashEndMassiveSyncEvents contexts db = .ok (db', squashed)) :
    AppKept h (Placed h R) names db' := by
  rw [squashEndMassiveSyncEvents] at hok
  split at hok
  · cases hok
    exact hkept
  · split at hok
    · cases hok
      exact hkept
    · cases hok
      apply AppKept.updateContexts
      · split
        · rw [hkept.toHafd]
          exact hkept.updateContexts fun c _ ↦ contextBackFromFork_kept c
        · exact hkept
      · rintro c -
        apply eventsId_kept
        rename_i heq hnext
        rw [Hafd.lastIdBefore]
        cases hmax : ((db.eventsQueue.filter (fun e ↦ decide (e.id < heq.id))).map
            Event.id).max? with
        | none => exact frame.zero
        | some i =>
          have hmem := (List.max?_eq_some_iff.mp hmax).1
          obtain ⟨e, he, rfl⟩ := List.mem_map.mp hmem
          exact frame.of_mem_queue e (hkept.toHafd ▸ List.mem_of_mem_filter he)

theorem squashEvents_kept (hkept : AppKept h (Placed h R) names db)
    (hok : squashEvents contexts db = .ok db') : AppKept h (Placed h R) names db' := by
  rw [squashEvents] at hok
  split at hok
  · cases hok
    exact hkept
  · split at hok
    · cases hok
      exact hkept
    · obtain ⟨db₁, h₁, hok⟩ := bind_eq_ok.mp hok
      obtain ⟨⟨db₂, squashed⟩, h₂, hok⟩ := bind_eq_ok.mp hok
      have hkept₁ := updateIrreversible_kept frame hkept h₁
      have hkept₂ := squashEndMassiveSyncEvents_kept frame hkept₁ h₂
      dsimp only at hok
      split at hok
      · cases hok
        exact hkept₂
      · exact squashForkEvents_kept frame hkept₂ hok

omit frame in
theorem takeOverFork_kept (hkept : AppKept h (Placed h R) names db) (hc : Context ρ) :
    AppKept h (Placed h R) names (takeOverFork contexts hc db) := by
  rw [takeOverFork]
  split
  · exact hkept.updateContexts fun _ _ ↦ .of_eq rfl rfl rfl
  · exact hkept

theorem findNextEvent_kept {event : Option Event} (hkept : AppKept h (Placed h R) names db)
    (hok : findNextEvent contexts db = .ok (db', event)) : AppKept h (Placed h R) names db' := by
  rw [findNextEvent] at hok
  split at hok
  · cases hok
    exact hkept
  · split at hok
    · cases hok
    · dsimp only at hok
      split at hok
      · cases hok
        exact takeOverFork_kept hkept _
      · obtain ⟨db₁, h₁, hok⟩ := bind_eq_ok.mp hok
        cases hok
        exact setEventsId_kept frame (takeOverFork_kept hkept _) h₁

theorem squashAndGetState_kept {state : ContextState} (hkept : AppKept h (Placed h R) names db)
    (hok : squashAndGetState contexts db = .ok (db', state)) :
    AppKept h (Placed h R) names db' := by
  obtain ⟨db₁, h₁, hok⟩ := bind_eq_ok.mp hok
  have hkept₁ := squashEvents_kept frame hkept h₁
  split at hok
  · cases hok
  · obtain ⟨⟨db₂, event⟩, h₂, hok⟩ := bind_eq_ok.mp hok
    cases hok
    exact findNextEvent_kept frame hkept₁ h₂

omit frame in
theorem processIrreversibleRange_kept {current : ℕ}
    (hr : processIrreversibleRange h current n c = (c', range)) :
    ContextKept (Placed h R) c c' := by
  rw [processIrreversibleRange] at hr
  split at hr <;> cases hr <;> exact .of_eq rfl rfl rfl

omit frame in
theorem appProcessEvent_kept {state : ContextState}
    (hok : appProcessEvent h state limit c = .ok (c', range)) :
    ContextKept (Placed h R) c c' := by
  cases processed_of_eq_ok hok with
  | forked => exact (contextBackFromFork_kept c).trans (.of_eq rfl rfl rfl)
  | refused => exact .of_eq rfl rfl rfl
  | newBlock => exact .of_eq rfl rfl rfl
  | overtaken head hcons _ hset hrange =>
    have hle : head ≤ h.irreversibleHead := by
      rw [Hafd.irreversibleHead, show h.hiveState.consistentBlock = some head from hcons,
        Option.getD_some]
    exact (contextSetIrreversibleBlock_kept hle hset).trans (processIrreversibleRange_kept hrange)
  | irreversible _ hrange => exact processIrreversibleRange_kept hrange

theorem appNextBlockForkingApp_kept (hkept : AppKept h (Placed h R) names db)
    (hok : appNextBlockForkingApp contexts limit db = .ok (db', range)) :
    AppKept h (Placed h R) names db' := by
  obtain ⟨⟨db₁, state⟩, h₁, hok⟩ := bind_eq_ok.mp hok
  obtain ⟨⟨db₂, range₂⟩, h₂, hok⟩ := bind_eq_ok.mp hok
  cases hok
  have hkept₁ := squashAndGetState_kept frame hkept h₁
  rw [hkept₁.toHafd] at h₂
  exact processForContexts_kept (fun _ _ _ _ ↦ appProcessEvent_kept) hkept₁ h₂

theorem appNextBlockNonForkingLoop_kept {wait : Bool} (hkept : AppKept h (Placed h R) names db)
    (hok : appNextBlockNonForkingLoop contexts wait limit n db = .ok (db', range)) :
    AppKept h (Placed h R) names db' := by
  induction n generalizing db with
  | zero =>
    cases hok
    exact hkept
  | succ n ih =>
    obtain ⟨⟨db₁, state⟩, h₁, hok⟩ := bind_eq_ok.mp hok
    obtain ⟨⟨db₂, range₂⟩, h₂, hok⟩ := bind_eq_ok.mp hok
    have hkept₁ := squashAndGetState_kept frame hkept h₁
    rw [hkept₁.toHafd] at h₂
    have hkept₂ := processForContexts_kept
      (fun c c' r _ hr ↦ processIrreversibleRange_kept (Except.ok.inj hr)) hkept₁ h₂
    dsimp only at hok
    split at hok
    · cases hok
      exact hkept₂
    · split at hok
      · cases hok
        exact hkept₂
      · exact ih hkept₂ hok

theorem appNextBlock_kept {env : CallEnv} {wait : Bool} (hkept : AppKept h (Placed h R) names db)
    (hok : appNextBlock env contexts wait limit db = .ok (db', range)) :
    AppKept h (Placed h R) names db' := by
  obtain ⟨-, -, hok⟩ := bind_eq_ok.mp hok
  have hactive : AppKept h (Placed h R) names
      (db.updateContexts contexts (fun c ↦ { c with lastActiveAt := env.now })) :=
    hkept.updateContexts fun _ _ ↦ .of_eq rfl rfl rfl
  split at hok
  · cases hok
    exact hactive
  · obtain ⟨forking, -, hok⟩ := bind_eq_ok.mp hok
    obtain ⟨attached, -, hok⟩ := bind_eq_ok.mp hok
    split at hok
    · exact appNextBlockForkingApp_kept frame hactive hok
    · exact appNextBlockNonForkingLoop_kept frame hactive hok

end Functions

end HiveForkManager
