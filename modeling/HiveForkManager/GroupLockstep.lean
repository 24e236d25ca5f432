import HiveForkManager.GroupFrame
import HiveForkManager.System

namespace HiveForkManager

open ExceptList

variable {ρ : Type} {h : Hafd} {db db' : Db ρ} {contexts : List ContextName} {limit : Option ℕ}

namespace Standing

def toRange (h : Hafd) (current irreversible : ℕ) (s : Standing) : Standing :=
  (((h.irreversible.blocks.map Block.num).filter (fun n ↦
    decide (current < n ∧ n ≤ irreversible))).min?).elim s s.movedTo

theorem toRange_toRange (current irreversible : ℕ) (s : Standing) :
    (s.toRange h current irreversible).toRange h current irreversible =
      s.toRange h current irreversible := by
  unfold toRange
  cases ((h.irreversible.blocks.map Block.num).filter (fun n ↦
    decide (current < n ∧ n ≤ irreversible))).min? <;> rfl

theorem toRange_irreversibleBlock (current irreversible : ℕ) (s : Standing) :
    (s.toRange h current irreversible).irreversibleBlock = s.irreversibleBlock := by
  unfold toRange
  cases ((h.irreversible.blocks.map Block.num).filter (fun n ↦
    decide (current < n ∧ n ≤ irreversible))).min? <;> rfl

def toOwnRange (h : Hafd) (current : ℕ) (limit : Option ℕ) (s : Standing) : Standing :=
  s.toRange h current (leastLimit s.irreversibleBlock limit)

theorem toOwnRange_toOwnRange (current : ℕ) (s : Standing) :
    (s.toOwnRange h current limit).toOwnRange h current limit = s.toOwnRange h current limit := by
  simp only [toOwnRange, toRange_irreversibleBlock, toRange_toRange]

def toConfirmedRange (h : Hafd) (current head : ℕ) (limit : Option ℕ) (s : Standing) : Standing :=
  (s.confirmedTo head).toOwnRange h current limit

theorem toConfirmedRange_toConfirmedRange (current head : ℕ) (s : Standing) :
    (s.toConfirmedRange h current head limit).toConfirmedRange h current head limit =
      s.toConfirmedRange h current head limit := by
  have hirr : (s.toConfirmedRange h current head limit).confirmedTo head =
      s.toConfirmedRange h current head limit := by
    unfold toConfirmedRange toOwnRange toRange
    cases ((h.irreversible.blocks.map Block.num).filter (fun n ↦ decide (current < n ∧
      n ≤ leastLimit (s.confirmedTo head).irreversibleBlock limit))).min? <;> rfl
  calc (s.toConfirmedRange h current head limit).toConfirmedRange h current head limit
      = (s.toConfirmedRange h current head limit).toOwnRange h current limit :=
        congrArg (toOwnRange h current limit) hirr
    _ = s.toConfirmedRange h current head limit := toOwnRange_toOwnRange current _

def processed (h : Hafd) (state : ContextState) (limit : Option ℕ) (s : Standing) : Standing :=
  match state.nextEvent with
  | some ⟨_, .backFromFork, forkId⟩ =>
    (h.forks.find? (fun hf ↦ hf.id = forkId)).elim s (fun hf ↦ s.movedTo hf.blockNum)
  | some ⟨_, .newBlock, num⟩ =>
    if aboveLimit limit num then s
    else if num = state.currentBlockNum + 1 then s.movedTo num
    else if state.irreversibleBlockNum < state.currentBlockNum then
      h.consistentBlock.elim s (fun head ↦ s.toConfirmedRange h state.currentBlockNum head limit)
    else s.toOwnRange h state.currentBlockNum limit
  | _ => s.toOwnRange h state.currentBlockNum limit

theorem processed_processed (state : ContextState) (s : Standing) :
    (s.processed h state limit).processed h state limit = s.processed h state limit := by
  cases he : state.nextEvent with
  | none => simp only [processed, he, toOwnRange_toOwnRange]
  | some e =>
    obtain ⟨id, type, num⟩ := e
    cases type with
    | backFromFork =>
      simp only [processed, he]
      cases h.forks.find? (fun hf ↦ hf.id = num) <;> rfl
    | newBlock =>
      simp only [processed, he]
      split
      · rfl
      · split
        · rfl
        · split
          · cases h.consistentBlock with
            | none => rfl
            | some head => exact toConfirmedRange_toConfirmedRange _ head s
          · exact toOwnRange_toOwnRange _ s
    | newIrreversible => simp only [processed, he, toOwnRange_toOwnRange]
    | massiveSync => simp only [processed, he, toOwnRange_toOwnRange]

end Standing

/-- What a context may go through without an iteration: its loop is kept, and the irreversible block
does not fall. -/
structure Kept (c c' : Context ρ) : Prop where
  loop : c'.loop = c.loop
  irreversibleBlock : c.irreversibleBlock ≤ c'.irreversibleBlock

theorem Kept.refl (c : Context ρ) : Kept c c := ⟨rfl, le_rfl⟩

theorem Kept.trans (c c' c'' : Context ρ) (h₁ : Kept c c') (h₂ : Kept c' c'') : Kept c c'' :=
  ⟨h₂.loop.trans h₁.loop, h₁.irreversibleBlock.trans h₂.irreversibleBlock⟩

/-- One function has moved all contexts of the group. -/
abbrev Db.MovesTogether (contexts : List ContextName) (db db' : Db ρ) : Prop :=
  db.MovesWithin (fun _ _ ↦ True) contexts db'

/-- One function has moved all contexts of the group and kept their loops. -/
abbrev Db.StepsTogether (contexts : List ContextName) (db db' : Db ρ) : Prop :=
  db.MovesWithin Kept contexts db'

namespace Db.MovesTogether

theorem refl (db : Db ρ) : db.MovesTogether contexts db := Db.MovesWithin.refl (fun _ ↦ trivial) db

theorem trans {db'' : Db ρ} (h₁ : db.MovesTogether contexts db')
    (h₂ : db'.MovesTogether contexts db'') : db.MovesTogether contexts db'' :=
  Db.MovesWithin.trans (fun _ _ _ _ _ ↦ trivial) h₁ h₂

theorem update {f : Context ρ → Context ρ} (move : Standing → Standing)
    (hf : ∀ c, (f c).name = c.name ∧ (f c).standing = move c.standing) :
    db.MovesTogether contexts (db.updateContexts contexts f) :=
  Db.MovesWithin.update (fun _ ↦ trivial) move hf fun _ _ ↦ trivial

theorem touch {f : Context ρ → Context ρ}
    (hf : ∀ c, (f c).name = c.name ∧ (f c).standing = c.standing) :
    db.MovesTogether contexts (db.updateContexts contexts f) :=
  update id hf

theorem forEach {f : Context ρ → Except Error (Context ρ)} (move : Standing → Standing)
    (hf : ∀ c c', f c = .ok c' → c'.name = c.name ∧ c'.standing = move c.standing)
    (hmove : ∀ s, move (move s) = move s) (hok : db.forEachContext contexts f = .ok db') :
    db.MovesTogether contexts db' :=
  ⟨move, Db.MovesWithin.related_forEach (fun _ ↦ trivial) (fun _ _ _ _ _ ↦ trivial) hf hmove
    (fun _ _ _ ↦ trivial) hok⟩

end Db.MovesTogether

namespace Db.StepsTogether

theorem refl (db : Db ρ) : db.StepsTogether contexts db := Db.MovesWithin.refl Kept.refl db

theorem trans {db'' : Db ρ} (h₁ : db.StepsTogether contexts db')
    (h₂ : db'.StepsTogether contexts db'') : db.StepsTogether contexts db'' :=
  Db.MovesWithin.trans Kept.trans h₁ h₂

theorem touch {f : Context ρ → Context ρ}
    (hf : ∀ c, (f c).name = c.name ∧ (f c).standing = c.standing) (hK : ∀ c, Kept c (f c)) :
    db.StepsTogether contexts (db.updateContexts contexts f) :=
  Db.MovesWithin.update Kept.refl id hf fun c _ ↦ hK c

theorem together (hsteps : db.StepsTogether contexts db') : db.MovesTogether contexts db' := by
  obtain ⟨move, hsteps⟩ := hsteps
  exact ⟨move, Db.Related.imp hsteps fun _ _ _ hc ↦ ⟨hc.1, trivial⟩⟩

end Db.StepsTogether

section Functions

theorem ok_of_map_fst_eq_ok {α β ε : Type} {x : Except ε (α × β)} {a : α}
    (hok : Prod.fst <$> x = .ok a) : ∃ b, x = .ok (a, b) := by
  cases x with
  | error e => cases hok
  | ok p =>
    cases hok
    exact ⟨p.2, rfl⟩

theorem contextBackFromFork_keeps (b : ℕ) (c : Context ρ) : Kept c (contextBackFromFork h b c) :=
  ⟨congrArg Settings.loop (contextBackFromFork_settings b c),
    (congrArg Standing.irreversibleBlock (contextBackFromFork_standing b c).2).ge⟩

variable {n : ℕ} {c c' : Context ρ} {range : Option BlocksRange} {wait : Bool} {env : CallEnv}

theorem contextSetIrreversibleBlock_keeps
    (hok : contextSetIrreversibleBlock n c = .ok c') : Kept c c' := by
  obtain ⟨hle, rfl⟩ := contextSetIrreversibleBlock_eq_ok hok
  exact ⟨rfl, hle⟩

theorem Kept.stepRule (liteMode : Bool) : StepRule (ρ := ρ) liteMode Kept where
  refl := Kept.refl
  trans := Kept.trans
  eventsId _ _ := ⟨rfl, le_rfl⟩
  forkId _ _ := ⟨rfl, le_rfl⟩
  backFromFork _ _ := contextBackFromFork_keeps
  setIrreversible _ _ _ := contextSetIrreversibleBlock_keeps

theorem squashAndGetState_steps {state : ContextState}
    (hok : squashAndGetState contexts db = .ok (db', state)) : db.StepsTogether contexts db' :=
  (squashAndGetState_within (Kept.stepRule _) rfl hok).within

theorem processIrreversibleRange_standing {current : ℕ}
    (hr : processIrreversibleRange h current n c = (c', range)) :
    c'.name = c.name ∧ c'.standing = c.standing.toRange h current n ∧ Kept c c' ∧
      ∀ r ∈ BlocksRange.toResult range, r.firstBlock = c'.currentBlockNum := by
  rw [processIrreversibleRange] at hr
  rw [Standing.toRange]
  split at hr
  case h_1 first last hfirst hlast =>
    cases hr
    rw [hfirst]
    refine ⟨rfl, rfl, ⟨rfl, le_rfl⟩, fun r hr ↦ ?_⟩
    obtain rfl := Option.some.inj (Option.filter_eq_some_iff.mp hr).1
    rfl
  case h_2 hnone =>
    cases hr
    refine ⟨rfl, ?_, .refl c, fun r hr ↦ by cases hr⟩
    cases hfirst : ((h.irreversible.blocks.map Block.num).filter (fun k ↦
        decide (current < k ∧ k ≤ n))).min? with
    | none => rfl
    | some first =>
      cases hlast : ((h.irreversible.blocks.map Block.num).filter (fun k ↦
          decide (current < k ∧ k ≤ n))).max? with
      | none =>
        rw [List.max?_eq_none_iff] at hlast
        rw [hlast] at hfirst
        cases hfirst
      | some last => exact absurd hlast (hnone first last hfirst)

theorem appProcessEvent_standing {state : ContextState}
    (hok : appProcessEvent h state limit c = .ok (c', range)) :
    c'.name = c.name ∧ c'.standing = c.standing.processed h state limit ∧ Kept c c' ∧
      ∀ r ∈ BlocksRange.toResult range, r.firstBlock = c'.currentBlockNum := by
  cases processed_of_eq_ok hok with
  | @forked id forkId hf hev hfork =>
    obtain ⟨hname, hstanding⟩ := contextBackFromFork_standing (h := h) hf.blockNum c
    refine ⟨hname, ?_, ?_, fun r hr ↦ by cases hr⟩
    · simp only [Standing.processed, hev, hfork, Option.elim_some]
      exact congrArg (Standing.movedTo hf.blockNum) hstanding
    · have hkept := contextBackFromFork_keeps (h := h) hf.blockNum c
      exact ⟨hkept.loop, hkept.irreversibleBlock⟩
  | refused hev hnum hlimit =>
    refine ⟨rfl, ?_, .refl c, fun r hr ↦ by cases hr⟩
    simp only [Standing.processed, hev, hlimit, if_true]
  | newBlock hev hnum hlimit =>
    refine ⟨rfl, ?_, ⟨rfl, le_rfl⟩, fun r hr ↦ ?_⟩
    · simp only [Standing.processed, hev, hlimit, Bool.false_eq_true, if_false, if_pos hnum]
      rfl
    · obtain rfl := Option.some.inj (Option.filter_eq_some_iff.mp hr).1
      rfl
  | @overtaken id num head hcons hev c₁ _ _ hset hrange =>
    obtain ⟨hev, hnum, hirr⟩ := hev
    by_cases hlimit : aboveLimit limit num = true
    · have hrefused : appProcessEvent h state limit c = .ok (c, some .negative) := by
        simp only [appProcessEvent, hev, hlimit, if_true]
        exact if_neg (by omega)
      rw [hrefused] at hok
      cases hok
      refine ⟨rfl, ?_, .refl c, fun r hr ↦ by cases hr⟩
      simp only [Standing.processed, hev, hlimit, if_true]
    · have hkept := contextSetIrreversibleBlock_keeps hset
      obtain ⟨hname, hset⟩ := contextSetIrreversibleBlock_standing hset
      obtain ⟨hname', hstanding, hkept', hfirst⟩ := processIrreversibleRange_standing hrange
      refine ⟨hname'.trans hname, ?_, hkept.trans _ _ _ hkept', hfirst⟩
      have hne : num ≠ state.currentBlockNum + 1 := by omega
      simp only [Standing.processed, hev, if_neg hlimit, if_neg hne, if_pos hirr, hcons,
        Option.elim_some, Standing.toConfirmedRange, ← hset]
      exact hstanding
  | irreversible hev hrange =>
    obtain ⟨hname, hstanding, hkept, hfirst⟩ := processIrreversibleRange_standing hrange
    refine ⟨hname, hstanding.trans ?_, hkept, hfirst⟩
    change c.standing.toOwnRange h state.currentBlockNum limit = _
    cases he : state.nextEvent with
    | none => simp only [Standing.processed, he]
    | some e =>
      obtain ⟨id, type, num⟩ := e
      obtain ⟨hbff, hnew⟩ := hev _ he
      cases type with
      | backFromFork => exact absurd rfl hbff
      | newBlock =>
        obtain ⟨hnum, hirr, hlimit⟩ := hnew rfl
        simp only [Standing.processed, he, hlimit, Bool.false_eq_true, if_false]
        rw [if_neg (by simpa using hnum.ne'), if_neg (not_lt.mpr hirr)]
      | newIrreversible => simp only [Standing.processed, he]
      | massiveSync => simp only [Standing.processed, he]

def Db.InStep (contexts : List ContextName) (db : Db ρ) : Prop :=
  ∀ c ∈ db.contexts, c.name ∈ contexts → ∀ c' ∈ db.contexts, c'.name ∈ contexts →
    c.standing = c'.standing

theorem Db.MovesTogether.inStep (hmoves : db.MovesTogether contexts db')
    (hstep : db.InStep contexts) : db'.InStep contexts := by
  obtain ⟨move, hmoves⟩ := hmoves
  intro d hd hdn d' hd' hdn'
  obtain ⟨c, hc, hcd, -⟩ := hmoves.exists_of_mem hd
  obtain ⟨c', hc', hcd', -⟩ := hmoves.exists_of_mem hd'
  have hn : c.name ∈ contexts := hcd.name ▸ hdn
  have hn' : c'.name ∈ contexts := hcd'.name ▸ hdn'
  rw [hcd.standing hn, hcd'.standing hn', hstep c hc hn c' hc' hn']

theorem processForContexts_steps {move : Standing → Standing}
    {process : Context ρ → Except Error (Context ρ × Option BlocksRange)}
    (hprocess : ∀ c c' range, process c = .ok (c', range) → c'.name = c.name ∧
      c'.standing = move c.standing ∧ Kept c c' ∧
        ∀ r ∈ BlocksRange.toResult range, r.firstBlock = c'.currentBlockNum)
    (hmove : ∀ s, move (move s) = move s)
    (hok : processForContexts contexts process db = .ok (db', range)) :
    db.StepsTogether contexts db' ∧ (db.InStep contexts →
      ∀ r ∈ BlocksRange.toResult range, ∀ c ∈ db'.contexts, c.name ∈ contexts →
        r.firstBlock = c.currentBlockNum) := by
  obtain ⟨db₁, h₁, hok⟩ := bind_eq_ok.mp hok
  have hmoved : ∀ c c', Prod.fst <$> process c = .ok c' →
      c'.name = c.name ∧ c'.standing = move c.standing ∧ Kept c c' := by
    intro c c' hc
    obtain ⟨range, hc⟩ := ok_of_map_fst_eq_ok hc
    obtain ⟨hname, hstanding, hkept, -⟩ := hprocess c c' range hc
    exact ⟨hname, hstanding, hkept⟩
  have hmoves : db.Related (fun c c' ↦ Moved contexts move c c' ∧ Kept c c') db₁ :=
    Db.MovesWithin.related_forEach Kept.refl Kept.trans
      (fun c c' hc ↦ ⟨(hmoved c c' hc).1, (hmoved c c' hc).2.1⟩) hmove
      (fun c c' hc ↦ (hmoved c c' hc).2.2) h₁
  split at hok
  · cases hok
    exact ⟨⟨move, hmoves⟩, fun _ r hr ↦ by cases hr⟩
  case _ lead hlead =>
    obtain ⟨⟨lead', range'⟩, hp, hok⟩ := bind_eq_ok.mp hok
    cases hok
    refine ⟨⟨move, hmoves⟩, fun hstep r hr d hd hdn ↦ ?_⟩
    obtain ⟨-, hstanding, -, hfirst⟩ := hprocess _ _ _ hp
    obtain ⟨hmem, hname⟩ := Db.leadContext_name_mem hlead
    obtain ⟨c, hc, hcd, -⟩ := hmoves.exists_of_mem hd
    have hn : c.name ∈ contexts := hcd.name ▸ hdn
    have hsame : d.standing = lead'.standing := by
      rw [hcd.standing hn, hstanding, hstep c hc hn lead hmem hname]
    rw [hfirst r hr]
    exact congrArg (fun s ↦ (s.key.currentBlockNum : ℤ)) hsame.symm

theorem appNextBlockForkingApp_steps
    (hok : appNextBlockForkingApp contexts limit db = .ok (db', range)) :
    db.StepsTogether contexts db' ∧ (db.InStep contexts → ∀ r ∈ range, ∀ c ∈ db'.contexts,
      c.name ∈ contexts → r.firstBlock = c.currentBlockNum) := by
  obtain ⟨⟨db₁, state⟩, h₁, hok⟩ := bind_eq_ok.mp hok
  obtain ⟨⟨db₂, range₂⟩, h₂, hok⟩ := bind_eq_ok.mp hok
  cases hok
  have hsquashed := squashAndGetState_steps h₁
  obtain ⟨hmoves, hfirst⟩ := processForContexts_steps
    (fun _ _ _ ↦ appProcessEvent_standing) (Standing.processed_processed state) h₂
  exact ⟨hsquashed.trans hmoves, fun hstep ↦ hfirst (hsquashed.together.inStep hstep)⟩

theorem appNextBlockNonForkingLoop_steps
    (hok : appNextBlockNonForkingLoop contexts wait limit n db = .ok (db', range)) :
    db.StepsTogether contexts db' ∧ (db.InStep contexts → ∀ r ∈ range, ∀ c ∈ db'.contexts,
      c.name ∈ contexts → r.firstBlock = c.currentBlockNum) := by
  induction n generalizing db with
  | zero =>
    cases hok
    exact ⟨.refl _, fun _ r hr ↦ by cases hr⟩
  | succ n ih =>
    obtain ⟨⟨db₁, state⟩, h₁, hok⟩ := bind_eq_ok.mp hok
    obtain ⟨⟨db₂, range₂⟩, h₂, hok⟩ := bind_eq_ok.mp hok
    have hsquashed := squashAndGetState_steps h₁
    obtain ⟨hmoves, hfirst⟩ := processForContexts_steps
      (fun c c' r hc ↦ processIrreversibleRange_standing (Except.ok.inj hc))
      (Standing.toRange_toRange _ _) h₂
    dsimp only at hok
    split at hok
    case h_1 hresult =>
      cases hok
      refine ⟨hsquashed.trans hmoves, fun hstep r hr ↦ ?_⟩
      exact hfirst (hsquashed.together.inStep hstep) r (hresult ▸ hr)
    case h_2 =>
      split at hok
      · cases hok
        exact ⟨hsquashed.trans hmoves, fun _ r hr ↦ by cases hr⟩
      · obtain ⟨hlater, hrange⟩ := ih hok
        have hboth := hsquashed.trans hmoves
        exact ⟨hboth.trans hlater, fun hstep ↦ hrange (hboth.together.inStep hstep)⟩

theorem appNextBlock_steps {blockLimit : Option ℕ}
    (hok : appNextBlock env contexts wait blockLimit db = .ok (db', range)) :
    db.StepsTogether contexts db' ∧ (db.InStep contexts → ∀ r ∈ range, ∀ c ∈ db'.contexts,
      c.name ∈ contexts → r.firstBlock = c.currentBlockNum) := by
  obtain ⟨-, -, hok⟩ := bind_eq_ok.mp hok
  have hactive : db.StepsTogether contexts
      (db.updateContexts contexts (fun c ↦ { c with lastActiveAt := env.now })) :=
    .touch (fun _ ↦ ⟨rfl, rfl⟩) fun _ ↦ ⟨rfl, le_rfl⟩
  split at hok
  · cases hok
    exact ⟨hactive, fun _ r hr ↦ by cases hr⟩
  · obtain ⟨forking, -, hok⟩ := bind_eq_ok.mp hok
    obtain ⟨attached, -, hok⟩ := bind_eq_ok.mp hok
    split at hok
    · obtain ⟨hmoves, hfirst⟩ := appNextBlockForkingApp_steps hok
      exact ⟨hactive.trans hmoves, fun hstep ↦ hfirst (hactive.together.inStep hstep)⟩
    · obtain ⟨hmoves, hfirst⟩ := appNextBlockNonForkingLoop_steps hok
      exact ⟨hactive.trans hmoves, fun hstep ↦ hfirst (hactive.together.inStep hstep)⟩

def Standing.attached (s : Standing) : Standing :=
  { s with key := { s.key with eventsId := 0, isAttached := true } }

/-- The move of `hive.context_detach`: back to the irreversible block of the context itself. -/
def Standing.detached (s : Standing) : Standing :=
  { s with key := { s.key with
    currentBlockNum := min s.key.currentBlockNum s.irreversibleBlock
    eventsId := unreachableEventId
    isAttached := false } }

theorem contextAttach_standing (hok : contextAttach n c = .ok c') :
    c'.name = c.name ∧ c'.standing = (c.standing.movedTo n).attached := by
  obtain ⟨-, rfl⟩ := contextAttach_eq_ok hok
  exact ⟨rfl, rfl⟩

theorem contextDetach_standing (hok : contextDetach h c = .ok c') :
    c'.name = c.name ∧ c'.standing = c.standing.detached := by
  obtain ⟨tables, -, hok⟩ := bind_eq_ok.mp hok
  cases hok
  obtain ⟨hname, hstanding⟩ := contextBackFromFork_standing (h := h) c.irreversibleBlock c
  exact ⟨hname, congrArg (fun s : Standing ↦ { s with key := { s.key with
    eventsId := unreachableEventId, isAttached := false } }) hstanding⟩

theorem Standing.detached_detached (s : Standing) : s.detached.detached = s.detached := by
  simp only [Standing.detached, min_assoc, min_self]

theorem appContextAttach_together (hok : appContextAttach env contexts db = .ok db') :
    db.MovesTogether contexts db' := by
  obtain ⟨-, -, hok⟩ := bind_eq_ok.mp hok
  split at hok
  · cases hok
  · split at hok
    · cases hok
    · dsimp only at hok
      refine Db.MovesTogether.trans ?_ (.forEach (fun s ↦ (s.movedTo _).attached)
        (fun _ _ ↦ contextAttach_standing) (fun _ ↦ rfl) hok)
      exact .update (fun s ↦ ⟨{ s.key with eventsId := 0 }, db.irreversibleHead⟩)
        fun _ ↦ ⟨rfl, rfl⟩

theorem forEach_contextDetach_together
    (hok : db.forEachContext contexts (contextDetach h) = .ok db') :
    db.MovesTogether contexts db' :=
  .forEach Standing.detached (fun _ _ ↦ contextDetach_standing) Standing.detached_detached hok

theorem appContextDetach_together (hok : appContextDetach contexts db = .ok db') :
    db.MovesTogether contexts db' := by
  obtain ⟨-, -, hok⟩ := bind_eq_ok.mp hok
  exact forEach_contextDetach_together hok

theorem appContextSetMode_together {isForking : Bool}
    (hok : appContextSetMode env isForking contexts db = .ok db') :
    db.MovesTogether contexts db' := by
  rw [appContextSetMode] at hok
  split at hok
  · cases hok
    exact .refl _
  · obtain ⟨-, -, hok⟩ := bind_eq_ok.mp hok
    obtain ⟨db₁, h₁, hok⟩ := bind_eq_ok.mp hok
    have hswitched : db₁.MovesTogether contexts (db₁.updateContexts contexts
        (fun c ↦ { c with isForking, lastActiveAt := env.now })) :=
      .update (fun s ↦ { s with key := { s.key with isForking } }) fun _ ↦ ⟨rfl, rfl⟩
    refine (forEach_contextDetach_together h₁).trans (hswitched.trans ?_)
    exact .forEach Standing.attached (fun _ _ ↦ contextAttach_standing) (fun _ ↦ rfl) hok

theorem updateAttachment_together
    (hok : updateAttachment env contexts db = .ok db') : db.MovesTogether contexts db' := by
  obtain ⟨attached, -, hok⟩ := bind_eq_ok.mp hok
  split at hok
  · split at hok
    · cases hok
      exact .refl _
    · exact appContextAttach_together hok
  · split at hok
    · exact appContextDetach_together hok
    · cases hok
      exact .refl _

theorem attachForAnalysis_together {lead : Context ρ}
    (hok : attachForAnalysis env contexts lead db = .ok db') : db.MovesTogether contexts db' := by
  obtain ⟨forking, -, hok⟩ := bind_eq_ok.mp hok
  obtain ⟨attached, -, hok⟩ := bind_eq_ok.mp hok
  split at hok
  · exact appContextAttach_together hok
  · cases hok
    exact .refl _

theorem analyzeStages_together {range : BlocksRange} {head : Option ℤ}
    (hok : analyzeStages env contexts range head db = .ok db') : db.MovesTogether contexts db' := by
  obtain ⟨stages, -, hok⟩ := bind_eq_ok.mp hok
  cases hok
  apply Db.MovesTogether.trans
  swap
  · exact .update (fun s ↦ { s with key := { s.key with
      sizeOfBlocksBatch := some (sizeOfBatch contexts _)
      endBlockRange := some (s.key.currentBlockNum +
        (range.lastBlock - range.firstBlock).toNat) } }) fun _ ↦ ⟨rfl, rfl⟩
  · exact .touch fun _ ↦ ⟨rfl, rfl⟩

theorem nextRange_together {overrideMaxBatch callLimit : Option ℕ}
    {lead : Context ρ} {range : Option (ℕ × ℕ)}
    (hok : nextRange env contexts wait overrideMaxBatch callLimit lead db = .ok (db', range)) :
    db.MovesTogether contexts db' := by
  rw [nextRange] at hok
  split at hok
  · obtain ⟨db₁, h₁, hok⟩ := bind_eq_ok.mp hok
    obtain ⟨⟨db₂, blocks⟩, h₂, hok⟩ := bind_eq_ok.mp hok
    have hnext := (attachForAnalysis_together h₁).trans (appNextBlock_steps h₂).1.together
    dsimp only at hok
    split at hok
    · cases hok
      exact hnext
    · obtain ⟨db₃, h₃, hok⟩ := bind_eq_ok.mp hok
      cases hok
      exact hnext.trans (analyzeStages_together h₃)
  · cases hok
    exact .refl _

theorem finishIteration_together {lastBlock : ℕ} {endBlockRange : Option ℕ}
    (hok : finishIteration env contexts lastBlock endBlockRange db = .ok db') :
    db.MovesTogether contexts db' ∧
      ∀ c ∈ db'.contexts, c.name ∈ contexts → c.currentBlockNum = lastBlock := by
  obtain ⟨db₁, h₁, hok⟩ := bind_eq_ok.mp hok
  cases hok
  have hnoted : db.MovesTogether contexts (db.updateContexts contexts (fun c ↦
      { c with loop := { c.loop with currentBatchEnd := some lastBlock, endBlockRange } })) :=
    .update (fun s ↦ { s with key := { s.key with
      currentBatchEnd := some lastBlock, endBlockRange } }) fun _ ↦ ⟨rfl, rfl⟩
  have hmoved : db₁.MovesTogether contexts
      (db₁.updateContexts contexts fun c ↦ { c with currentBlockNum := lastBlock }) :=
    .update (Standing.movedTo lastBlock) fun _ ↦ ⟨rfl, rfl⟩
  refine ⟨hnoted.trans ((updateAttachment_together h₁).trans hmoved), fun c hc hn ↦ ?_⟩
  obtain ⟨c₁, -, rfl⟩ := List.mem_map.mp hc
  by_cases hn₁ : c₁.name ∈ contexts
  · rw [if_pos hn₁]
  · rw [if_neg hn₁] at hn
    exact absurd hn hn₁

theorem appNextIteration_together {overrideMaxBatch callLimit : Option ℕ} {range : Option (ℕ × ℕ)}
    (hok : appNextIteration env contexts wait overrideMaxBatch callLimit db = .ok (db', range)) :
    db.MovesTogether contexts db' ∧ ∀ r ∈ range, ∀ c ∈ db'.contexts, c.name ∈ contexts →
      c.currentBlockNum = r.2 := by
  obtain ⟨-, -, hok⟩ := bind_eq_ok.mp hok
  have hactive : db.MovesTogether contexts
      (db.updateContexts contexts (fun c ↦ { c with lastActiveAt := env.now })) :=
    .touch fun _ ↦ ⟨rfl, rfl⟩
  dsimp only at hok
  generalize db.updateContexts contexts (fun c ↦ { c with lastActiveAt := env.now }) = db₀ at *
  have hnothing : ∀ r ∈ (none : Option (ℕ × ℕ)), ∀ c ∈ db'.contexts, c.name ∈ contexts →
      c.currentBlockNum = r.2 := fun r hr ↦ by cases hr
  split at hok
  · cases hok
  · split at hok
    · cases hok
      exact ⟨hactive, hnothing⟩
    · split at hok
      · cases hok
        exact ⟨hactive, hnothing⟩
      · split at hok
        · cases hok
          exact ⟨hactive.trans (.touch fun _ ↦ ⟨rfl, rfl⟩), hnothing⟩
        · split at hok
          · cases hok
          · have hstaged : db₀.MovesTogether contexts (appContextSetDefaultStages contexts db₀) :=
              .touch fun _ ↦ ⟨rfl, rfl⟩
            obtain ⟨⟨db₁, range₁⟩, h₁, hok⟩ := bind_eq_ok.mp hok
            have hranged := hactive.trans (hstaged.trans (nextRange_together h₁))
            dsimp only at hok
            split at hok
            · cases hok
              exact ⟨hranged, hnothing⟩
            · obtain ⟨db₂, h₂, hok⟩ := bind_eq_ok.mp hok
              cases hok
              obtain ⟨hfinished, hlast⟩ := finishIteration_together h₂
              refine ⟨hranged.trans hfinished, ?_⟩
              rintro r ⟨⟩
              exact hlast

theorem insertBlocks_together {nums : List ℕ} {db db' : Db ℕ}
    (hok : insertBlocks contexts nums db = .ok db') : db.MovesTogether contexts db' := by
  refine .forEach id (fun c c' hc ↦ ?_) (fun _ ↦ rfl) hok
  obtain ⟨tables, -, hc⟩ := bind_eq_ok.mp hc
  cases hc
  exact ⟨rfl, rfl⟩

theorem cleanup_contexts (n : ℕ) (lock : Bool) (db : Db ρ) :
    (cleanup n lock db).contexts = db.contexts := by
  cases lock <;> rfl

theorem HivedCall.run_contexts {call : HivedCall} (hok : call.run db = .ok db') :
    db'.contexts = db.contexts := by
  cases call with
  | pushBlock d =>
    simp only [HivedCall.run, HiveForkManager.pushBlock, pushBlockLite] at hok
    split at hok
    · split at hok
      · cases hok
        rfl
      · obtain ⟨h', -, hok⟩ := bind_eq_ok.mp hok
        cases hok
        rfl
    · obtain ⟨h', -, hok⟩ := bind_eq_ok.mp hok
      split at hok
      · cases hok
      · cases hok
        rfl
  | backFromFork k =>
    obtain ⟨h', -, hok⟩ := bind_eq_ok.mp hok
    cases hok
    rfl
  | setIrreversible n lock =>
    simp only [HivedCall.run, HiveForkManager.setIrreversible] at hok
    split at hok
    · obtain ⟨h', -, hok⟩ := bind_eq_ok.mp hok
      cases hok
      cases lock <;> rfl
    · split at hok
      · cases hok
        rfl
      · obtain ⟨h', -, hok⟩ := bind_eq_ok.mp hok
        cases hok
        exact cleanup_contexts n lock _
  | dump d =>
    cases hok
    rfl
  | endMassiveSync n lock =>
    obtain ⟨h', -, hok⟩ := bind_eq_ok.mp hok
    cases hok
    exact cleanup_contexts n lock db

end Functions

/-- The calls made on a whole group, the rows its application writes, and the calls of hived. -/
inductive GroupCall where
  | hived (call : HivedCall)
  | insertBlocks (nums : List ℕ)
  | nextBlock (env : CallEnv) (wait : Bool) (blockLimit : Option ℕ)
  | nextIteration (env : CallEnv) (wait : Bool) (overrideMaxBatch limit : Option ℕ)
  | attach (env : CallEnv)
  | detach
  | setForking (env : CallEnv)
  | setNonForking (env : CallEnv)
  deriving DecidableEq, Repr

def GroupCall.run (contexts : List ContextName) (db : Db ℕ) : GroupCall → Except Error (Db ℕ)
  | hived call => call.run db
  | insertBlocks nums => HiveForkManager.insertBlocks contexts nums db
  | nextBlock env wait blockLimit => Prod.fst <$> appNextBlock env contexts wait blockLimit db
  | nextIteration env wait overrideMaxBatch limit =>
    Prod.fst <$> appNextIteration env contexts wait overrideMaxBatch limit db
  | attach env => appContextAttach env contexts db
  | detach => appContextDetach contexts db
  | setForking env => appContextSetForking env contexts db
  | setNonForking env => appContextSetNonForking env contexts db

def Db.groupCall (contexts : List ContextName) (db : Db ℕ) (call : GroupCall) : Db ℕ :=
  (call.run contexts db).toOption.getD db

def Db.groupRun (contexts : List ContextName) (db : Db ℕ) (calls : List GroupCall) : Db ℕ :=
  calls.foldl (Db.groupCall contexts) db

section Run

variable {db db' : Db ℕ}

theorem GroupCall.run_together {call : GroupCall} (hok : call.run contexts db = .ok db') :
    db.MovesTogether contexts db' := by
  cases call with
  | hived call =>
    refine ⟨id, ?_⟩
    rw [Db.Related, HivedCall.run_contexts hok]
    exact List.forall₂_same.mpr fun c _ ↦ ⟨Moved.refl c, trivial⟩
  | insertBlocks nums => exact insertBlocks_together hok
  | nextBlock env wait blockLimit =>
    obtain ⟨range, hok⟩ := ok_of_map_fst_eq_ok hok
    exact (appNextBlock_steps hok).1.together
  | nextIteration env wait overrideMaxBatch limit =>
    obtain ⟨range, hok⟩ := ok_of_map_fst_eq_ok hok
    exact (appNextIteration_together hok).1
  | attach env => exact appContextAttach_together hok
  | detach => exact appContextDetach_together hok
  | setForking env =>
    simp only [GroupCall.run, appContextSetForking] at hok
    split at hok
    · cases hok
    · exact appContextSetMode_together hok
  | setNonForking env => exact appContextSetMode_together hok

theorem groupCall_together (db : Db ℕ) (call : GroupCall) :
    db.MovesTogether contexts (db.groupCall contexts call) := by
  rw [Db.groupCall]
  cases hok : call.run contexts db with
  | error e => exact .refl db
  | ok db' => exact GroupCall.run_together hok

theorem groupRun_together (db : Db ℕ) (calls : List GroupCall) :
    db.MovesTogether contexts (db.groupRun contexts calls) := by
  induction calls generalizing db with
  | nil => exact .refl db
  | cons call calls ih => exact (groupCall_together db call).trans (ih _)

theorem Db.MovesTogether.exists_mem (hmoves : db.MovesTogether contexts db')
    (hex : ∃ c ∈ db.contexts, c.name ∈ contexts) : ∃ c ∈ db'.contexts, c.name ∈ contexts := by
  obtain ⟨move, hmoves⟩ := hmoves
  obtain ⟨c, hc, hn⟩ := hex
  obtain ⟨i, hi, rfl⟩ := List.mem_iff_getElem.mp hc
  have hlen := List.Forall₂.length_eq hmoves
  have hmoved := (List.forall₂_iff_get.mp hmoves).2 i hi (hlen ▸ hi)
  exact ⟨_, List.get_mem _ _, hmoved.1.name ▸ hn⟩

end Run

/-- A group whose contexts also agree on the irreversible block passes the check after every call,
and a range moves all of its contexts to the block that is reported from the first one. -/
theorem group_stays_synchronized {db : Db ℕ} {contexts : List ContextName}
    (hsync : appCheckContextsSynchronized contexts db = .ok ())
    (hirr : ∀ c ∈ db.contexts, c.name ∈ contexts → ∀ c' ∈ db.contexts, c'.name ∈ contexts →
      c.irreversibleBlock = c'.irreversibleBlock) (calls : List GroupCall) :
    appCheckContextsSynchronized contexts (db.groupRun contexts calls) = .ok () ∧
      (∀ env wait blockLimit db' range,
        appNextBlock env contexts wait blockLimit (db.groupRun contexts calls) =
          .ok (db', some range) →
        ∀ c ∈ db'.contexts, c.name ∈ contexts → range.firstBlock = c.currentBlockNum) ∧
      ∀ env wait overrideMaxBatch limit db' range,
        appNextIteration env contexts wait overrideMaxBatch limit (db.groupRun contexts calls) =
          .ok (db', some range) →
        ∀ c ∈ db'.contexts, c.name ∈ contexts → c.currentBlockNum = range.2 := by
  obtain ⟨hex, hkeys⟩ := appCheckContextsSynchronized_eq_ok_iff.mp hsync
  have hmoves : db.MovesTogether contexts (db.groupRun contexts calls) := groupRun_together db calls
  have hstep : (db.groupRun contexts calls).InStep contexts := by
    refine hmoves.inStep fun c hc hn c' hc' hn' ↦ ?_
    rw [Context.standing, Context.standing, hkeys c hc hn c' hc' hn', hirr c hc hn c' hc' hn']
  refine ⟨appCheckContextsSynchronized_eq_ok_iff.mpr ⟨hmoves.exists_mem hex, ?_⟩, ?_, ?_⟩
  · exact fun c hc hn c' hc' hn' ↦ congrArg Standing.key (hstep c hc hn c' hc' hn')
  · exact fun _ _ _ _ range hok ↦ (appNextBlock_steps hok).2 hstep range rfl
  · exact fun _ _ _ _ _ range hok ↦ (appNextIteration_together hok).2 range rfl

section Contexts

/-- Two contexts, between whose creation hived announces its first block or has done so before. -/
def twoContexts (between : Bool) : World ℕ :=
  (World.initial ℕ .live).run (
    let create (name : ContextName) := Call.createContext (.ready 0) name true true none 1
    let confirm := Call.hived (.setIrreversible 1 true)
    if between then
      [.hived (.pushBlock (emptyBlock 1 1 0)), create "a", confirm, create "b"]
    else
      [.hived (.pushBlock (emptyBlock 1 1 0)), confirm, create "a", create "b"])

theorem twoContexts_stay_synchronized :
    appCheckContextsSynchronized ["a", "b"] ((twoContexts false).db.groupRun ["a", "b"]
      [.nextBlock (.ready 0) true none, .hived (.pushBlock (emptyBlock 2 2 1)), .detach]) =
        .ok () :=
  (group_stays_synchronized (by decide +kernel) (by decide +kernel) _).1

/-- The contexts pass the check, but each of them processes the blocks up to its own irreversible
block: the second is moved to block 1 while the first stays at block 0. -/
theorem irreversible_block_is_not_compared :
    Reachable (fun w call ↦ call.Lawful w) (twoContexts true) ∧
      appCheckContextsSynchronized ["a", "b"] (twoContexts true).db = .ok () ∧
      (((twoContexts true).db.groupRun ["a", "b"] [.nextBlock (.ready 0) true none]).contexts.map
        Context.currentBlockNum) = [0, 1] ∧
      appCheckContextsSynchronized ["a", "b"]
        ((twoContexts true).db.groupRun ["a", "b"] [.nextBlock (.ready 0) true none]) =
          .error (.raiseException "Contexts are not synchronized") := by
  refine ⟨(Reachable.initial .live).run ?_, by decide +kernel, by decide +kernel,
    by decide +kernel⟩
  decide +kernel

end Contexts

end HiveForkManager
