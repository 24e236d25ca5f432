import HiveForkManager.AppLoop
import HiveForkManager.GroupMoves

namespace HiveForkManager

open ExceptList

variable {ρ : Type} {h : Hafd} {db db' : Db ρ} {contexts : List ContextName} {limit : Option ℕ}

structure Advances (contexts : List ContextName) (limit : Option ℕ) (c c' : Context ρ) : Prop where
  name : c'.name = c.name
  isForking : c'.isForking = c.isForking
  moved : c'.currentBlockNum ≤ c.currentBlockNum ∨
    c.name ∈ contexts ∧ ∀ l ∈ limit, c'.currentBlockNum ≤ l

namespace Advances

theorem refl (c : Context ρ) : Advances contexts limit c c := ⟨rfl, rfl, Or.inl le_rfl⟩

theorem of_eq {c c' : Context ρ} (hname : c'.name = c.name) (hforking : c'.isForking = c.isForking)
    (hcur : c'.currentBlockNum = c.currentBlockNum) : Advances contexts limit c c' :=
  ⟨hname, hforking, Or.inl hcur.le⟩

theorem trans (c c' c'' : Context ρ) (h₁ : Advances contexts limit c c')
    (h₂ : Advances contexts limit c' c'') : Advances contexts limit c c'' := by
  refine ⟨h₂.name.trans h₁.name, h₂.isForking.trans h₁.isForking, ?_⟩
  rcases h₂.moved with hle | ⟨hmem, hle⟩
  · rcases h₁.moved with hle' | ⟨hmem, hle'⟩
    · exact Or.inl (hle.trans hle')
    · exact Or.inr ⟨hmem, fun l hl ↦ hle.trans (hle' l hl)⟩
  · exact Or.inr ⟨h₁.name ▸ hmem, hle⟩

end Advances

abbrev Db.Advances (contexts : List ContextName) (limit : Option ℕ) (db db' : Db ρ) : Prop :=
  db.Related (HiveForkManager.Advances contexts limit) db'

namespace Db.Advances

theorem refl (db : Db ρ) : db.Advances contexts limit db :=
  Db.Related.refl HiveForkManager.Advances.refl db

theorem trans {db'' : Db ρ} (h₁ : db.Advances contexts limit db')
    (h₂ : db'.Advances contexts limit db'') : db.Advances contexts limit db'' :=
  Db.Related.trans HiveForkManager.Advances.trans h₁ h₂

theorem update {f : Context ρ → Context ρ}
    (hf : ∀ c ∈ db.contexts, c.name ∈ contexts → HiveForkManager.Advances contexts limit c (f c)) :
    db.Advances contexts limit (db.updateContexts contexts f) :=
  Db.Related.updateContexts HiveForkManager.Advances.refl hf

theorem touch {f : Context ρ → Context ρ} (hname : ∀ c, (f c).name = c.name)
    (hforking : ∀ c, (f c).isForking = c.isForking)
    (hcur : ∀ c, (f c).currentBlockNum = c.currentBlockNum) :
    db.Advances contexts limit (db.updateContexts contexts f) :=
  update fun c _ _ ↦ .of_eq (hname c) (hforking c) (hcur c)

theorem forEach {f : Context ρ → Except Error (Context ρ)}
    (hf : ∀ c, c.name ∈ contexts → ∀ c', f c = .ok c' →
      HiveForkManager.Advances contexts limit c c')
    (hok : db.forEachContext contexts f = .ok db') : db.Advances contexts limit db' :=
  Db.Related.forEachContext HiveForkManager.Advances.refl HiveForkManager.Advances.trans hf hok

end Db.Advances

section Functions

theorem contextBackFromFork_currentBlockNum_le (b : ℕ) (c : Context ρ) :
    (contextBackFromFork h b c).currentBlockNum ≤ c.currentBlockNum := by
  rw [contextBackFromFork, Context.backFromForkLite, Context.backFromFork]
  split <;> split <;> simp only [le_refl] <;> omega

theorem contextBackFromFork_advances (b : ℕ) (c : Context ρ) :
    Advances contexts limit c (contextBackFromFork h b c) := by
  have hs := contextBackFromFork_settings (h := h) b c
  exact ⟨congrArg Settings.name hs, congrArg Settings.isForking hs,
    Or.inl (contextBackFromFork_currentBlockNum_le b c)⟩

variable {c lead : Context ρ} {wait : Bool} {env : CallEnv}

theorem contextSetIrreversibleBlock_advances {n : ℕ} {c' : Context ρ}
    (hok : contextSetIrreversibleBlock n c = .ok c') : Advances contexts limit c c' := by
  obtain ⟨-, rfl⟩ := contextSetIrreversibleBlock_eq_ok hok
  exact .of_eq rfl rfl rfl

theorem Advances.stepRule (liteMode : Bool) :
    StepRule (ρ := ρ) liteMode (Advances contexts limit) where
  refl := Advances.refl
  trans := Advances.trans
  eventsId _ _ := .of_eq rfl rfl rfl
  forkId _ _ := .of_eq rfl rfl rfl
  backFromFork _ _ := contextBackFromFork_advances
  setIrreversible _ _ _ := contextSetIrreversibleBlock_advances

theorem squashAndGetState_advances {state : ContextState}
    (hok : squashAndGetState contexts db = .ok (db', state)) : db.Advances contexts limit db' :=
  (squashAndGetState_within (Advances.stepRule _) rfl hok).within.related

theorem processIrreversibleRange_advances {current irreversible : ℕ}
    (hc : c.name ∈ contexts) : Advances contexts limit c
      (processIrreversibleRange h current (leastLimit irreversible limit) c).1 := by
  rw [processIrreversibleRange]
  split
  case h_1 first last hfirst _ =>
    refine ⟨rfl, rfl, Or.inr ⟨hc, ?_⟩⟩
    rintro l ⟨⟩
    have hmem := List.min?_mem hfirst
    have hle := (of_decide_eq_true (List.mem_filter.mp hmem).2).2
    exact hle.trans (Nat.min_le_right _ _)
  case h_2 => exact .refl c

theorem appNextBlockNonForkingLoop_advances {n : ℕ} {range : Option BlocksRange}
    (hok : appNextBlockNonForkingLoop contexts wait limit n db = .ok (db', range)) :
    db.Advances contexts limit db' := by
  induction n generalizing db with
  | zero =>
    cases hok
    exact .refl _
  | succ n ih =>
    obtain ⟨⟨db₁, state⟩, h₁, hok⟩ := bind_eq_ok.mp hok
    obtain ⟨⟨db₂, range₂⟩, h₂, hok⟩ := bind_eq_ok.mp hok
    have hsquashed : db.Advances contexts limit db₁ := squashAndGetState_advances h₁
    have hprocessed : db₁.Advances contexts limit db₂ := by
      obtain ⟨db₃, h₃, h₂⟩ := bind_eq_ok.mp h₂
      have hdb : db₂ = db₃ := by
        split at h₂
        · cases h₂
          rfl
        · obtain ⟨x, -, h₂⟩ := bind_eq_ok.mp h₂
          cases h₂
          rfl
      subst hdb
      refine .forEach (fun c hc c' hc' ↦ ?_) h₃
      cases hc'
      exact processIrreversibleRange_advances hc
    dsimp only at hok
    split at hok
    · cases hok
      exact hsquashed.trans hprocessed
    · split at hok
      · cases hok
        exact hsquashed.trans hprocessed
      · exact hsquashed.trans (hprocessed.trans (ih hok))

def Db.NonForking (contexts : List ContextName) (db : Db ρ) : Prop :=
  ∀ c ∈ db.contexts, c.name ∈ contexts → c.isForking = false

theorem Db.Advances.nonForking (hadv : db.Advances contexts limit db')
    (hnon : db.NonForking contexts) : db'.NonForking contexts := by
  intro c' hc' hname
  obtain ⟨c, hc, hrel⟩ := hadv.exists_of_mem hc'
  rw [hrel.isForking]
  exact hnon c hc (hrel.name ▸ hname)

theorem appAreForking_eq_false (hnon : db.NonForking contexts) {forking : Bool}
    (hok : appAreForking contexts db = .ok forking) : forking = false := by
  obtain ⟨-, -, hok⟩ := bind_eq_ok.mp hok
  have hempty : (db.group contexts).filter Context.isForking = [] := by
    refine List.filter_eq_nil_iff.mpr fun c hc ↦ ?_
    obtain ⟨hmem, hname⟩ := List.mem_filter.mp hc
    rw [hnon c hmem (of_decide_eq_true hname)]
    exact Bool.false_ne_true
  rw [hempty] at hok
  cases hok
  rfl

theorem appNextBlock_advances {blockLimit : Option ℕ}
    {range : Option BlocksRange} (hnon : db.NonForking contexts)
    (hok : appNextBlock env contexts wait blockLimit db = .ok (db', range)) :
    db.Advances contexts (blockLimit <|> env.dependenciesBlockLimit) db' := by
  obtain ⟨-, -, hok⟩ := bind_eq_ok.mp hok
  have hactive : db.Advances contexts (blockLimit <|> env.dependenciesBlockLimit)
      (db.updateContexts contexts (fun c ↦ { c with lastActiveAt := env.now })) :=
    .touch (fun _ ↦ rfl) (fun _ ↦ rfl) fun _ ↦ rfl
  split at hok
  · cases hok
    exact hactive
  · obtain ⟨forking, hforking, hok⟩ := bind_eq_ok.mp hok
    obtain ⟨attached, -, hok⟩ := bind_eq_ok.mp hok
    obtain rfl := appAreForking_eq_false (hactive.nonForking hnon) hforking
    rw [Bool.and_false, Bool.false_and, Bool.false_and, if_neg Bool.false_ne_true] at hok
    exact hactive.trans (appNextBlockNonForkingLoop_advances hok)

theorem appCheckContextsSynchronized_eq_ok_iff :
    appCheckContextsSynchronized contexts db = .ok () ↔
      (∃ c ∈ db.contexts, c.name ∈ contexts) ∧ ∀ c ∈ db.contexts, c.name ∈ contexts →
        ∀ c' ∈ db.contexts, c'.name ∈ contexts → c.syncKey = c'.syncKey := by
  have hmem : ∀ c, c ∈ db.group contexts ↔ c ∈ db.contexts ∧ c.name ∈ contexts := fun c ↦ by
    rw [Db.group, List.mem_filter, decide_eq_true_iff]
  rw [appCheckContextsSynchronized]
  constructor
  · intro hok
    split at hok
    · cases hok
    case isFalse hlen =>
      obtain ⟨key, hkey⟩ := List.length_eq_one_iff.mp (not_not.mp hlen)
      have hkeys : ∀ c ∈ db.contexts, c.name ∈ contexts → c.syncKey = key := fun c hc hname ↦ by
        have hin : c.syncKey ∈ ((db.group contexts).map Context.syncKey).dedup :=
          List.mem_dedup.mpr (List.mem_map_of_mem ((hmem c).mpr ⟨hc, hname⟩))
        rwa [hkey, List.mem_singleton] at hin
      refine ⟨?_, fun c hc hname c' hc' hname' ↦
        (hkeys c hc hname).trans (hkeys c' hc' hname').symm⟩
      have hin : key ∈ ((db.group contexts).map Context.syncKey).dedup := by simp [hkey]
      obtain ⟨c, hc, -⟩ := List.mem_map.mp (List.mem_dedup.mp hin)
      exact ⟨c, (hmem c).mp hc⟩
  · rintro ⟨⟨c, hc, hname⟩, hkeys⟩
    refine if_neg (not_not.mpr (List.length_eq_one_iff.mpr ⟨c.syncKey, ?_⟩))
    refine List.perm_singleton.mp ((List.perm_ext_iff_of_nodup (List.nodup_dedup _)
      (List.nodup_singleton _)).mpr fun key ↦ ?_)
    rw [List.mem_dedup, List.mem_map, List.mem_singleton]
    constructor
    · rintro ⟨c', hc', rfl⟩
      exact hkeys c' ((hmem c').mp hc').1 ((hmem c').mp hc').2 c hc hname
    · rintro rfl
      exact ⟨c, (hmem c).mpr ⟨hc, hname⟩, rfl⟩

theorem currentBlockNum_eq_of_synchronized (hok : appCheckContextsSynchronized contexts db = .ok ())
    {c' : Context ρ} (hc : c ∈ db.contexts) (hname : c.name ∈ contexts) (hc' : c' ∈ db.contexts)
    (hname' : c'.name ∈ contexts) : c.currentBlockNum = c'.currentBlockNum :=
  congrArg SyncKey.currentBlockNum
    ((appCheckContextsSynchronized_eq_ok_iff.mp hok).2 c hc hname c' hc' hname')

theorem Db.leadContext_name_mem (hlead : db.leadContext contexts = some lead) :
    lead ∈ db.contexts ∧ lead.name ∈ contexts := by
  obtain ⟨name, hname, hfind⟩ := Option.bind_eq_some_iff.mp hlead
  have heq : lead.name = name := by simpa using List.find?_some hfind
  exact ⟨List.mem_of_find?_eq_some hfind, heq ▸ List.mem_of_head? hname⟩

theorem appContextAttach_advances
    (hok : appContextAttach env contexts db = .ok db') : db.Advances contexts limit db' := by
  obtain ⟨⟨⟩, hsync, hok⟩ := bind_eq_ok.mp hok
  split at hok
  · cases hok
  case _ lead hlead =>
    obtain ⟨hmem, hname⟩ := Db.leadContext_name_mem hlead
    split at hok
    · cases hok
    · dsimp only at hok
      set R : Context ρ → Context ρ → Prop := fun c c' ↦
        (c.name ∈ contexts → c.currentBlockNum = lead.currentBlockNum) →
          Advances contexts limit c c' ∧
            (c'.name ∈ contexts → c'.currentBlockNum = lead.currentBlockNum)
      have hrefl : ∀ c, R c c := fun c hc ↦ ⟨.refl c, hc⟩
      have htrans : ∀ c c' c'', R c c' → R c' c'' → R c c'' := fun c c' c'' h₁ h₂ hc ↦
        ⟨(h₁ hc).1.trans _ _ _ (h₂ (h₁ hc).2).1, (h₂ (h₁ hc).2).2⟩
      have hattached := Db.Related.forEachContext hrefl htrans (fun c hc c' hok hcur ↦ by
        obtain ⟨-, rfl⟩ := contextAttach_eq_ok hok
        exact ⟨.of_eq rfl rfl (hcur hc).symm, fun _ ↦ rfl⟩) hok
      have hupdated := Db.Related.trans htrans (Db.Related.updateContexts hrefl ?_) hattached
      · exact hupdated.imp fun c hc c' hR ↦ (hR fun hn ↦
          currentBlockNum_eq_of_synchronized hsync hc hn hmem hname).1
      · exact fun c _ _ hc ↦ ⟨.of_eq rfl rfl rfl, hc⟩

theorem appContextDetach_advances (hok : appContextDetach contexts db = .ok db') :
    db.Advances contexts limit db' := by
  obtain ⟨-, -, hok⟩ := bind_eq_ok.mp hok
  refine .forEach (fun c _ c' hc' ↦ ?_) hok
  obtain ⟨tables, -, hc'⟩ := bind_eq_ok.mp hc'
  cases hc'
  obtain ⟨hname, hforking, hmoved⟩ : Advances contexts limit c
      (contextBackFromFork db.toHafd c.irreversibleBlock c) :=
    contextBackFromFork_advances c.irreversibleBlock c
  exact ⟨hname, hforking, hmoved⟩

theorem updateAttachment_advances
    (hok : updateAttachment env contexts db = .ok db') : db.Advances contexts limit db' := by
  obtain ⟨attached, -, hok⟩ := bind_eq_ok.mp hok
  split at hok
  · split at hok
    · cases hok
      exact .refl _
    · exact appContextAttach_advances hok
  · split at hok
    · exact appContextDetach_advances hok
    · cases hok
      exact .refl _

theorem analyzeStages_advances {range : BlocksRange} {head : Option ℤ}
    (hok : analyzeStages env contexts range head db = .ok db') : db.Advances contexts limit db' := by
  obtain ⟨stages, -, hok⟩ := bind_eq_ok.mp hok
  cases hok
  apply Db.Advances.trans
  swap
  · exact .touch (fun _ ↦ rfl) (fun _ ↦ rfl) fun _ ↦ rfl
  · exact .touch (fun _ ↦ rfl) (fun _ ↦ rfl) fun _ ↦ rfl

theorem attachForAnalysis_advances
    (hok : attachForAnalysis env contexts lead db = .ok db') : db.Advances contexts limit db' := by
  obtain ⟨forking, -, hok⟩ := bind_eq_ok.mp hok
  obtain ⟨attached, -, hok⟩ := bind_eq_ok.mp hok
  split at hok
  · exact appContextAttach_advances hok
  · cases hok
    exact .refl _

theorem least_le {values : List (Option ℕ)} {l : ℕ} (hl : some l ∈ values) :
    (least values).getD 0 ≤ l := by
  have hmem : l ∈ values.filterMap id := by simpa using hl
  rw [least]
  cases hmin : (values.filterMap id).min? with
  | none => exact Nat.zero_le _
  | some m => exact (List.min?_eq_some_iff.mp hmin).2 l hmem

theorem nextRange_advances {overrideMaxBatch callLimit : Option ℕ}
    {range : Option (ℕ × ℕ)} (hnon : db.NonForking contexts)
    (hok : nextRange env contexts wait overrideMaxBatch callLimit lead db = .ok (db', range)) :
    db.Advances contexts env.dependenciesBlockLimit db' ∧
      ∀ r ∈ range, ∀ l ∈ env.dependenciesBlockLimit, r.2 ≤ l := by
  rw [nextRange] at hok
  split at hok
  · obtain ⟨db₁, h₁, hok⟩ := bind_eq_ok.mp hok
    obtain ⟨⟨db₂, blocks⟩, h₂, hok⟩ := bind_eq_ok.mp hok
    have hattached : db.Advances contexts env.dependenciesBlockLimit db₁ :=
      attachForAnalysis_advances h₁
    have hnext := appNextBlock_advances (hattached.nonForking hnon) h₂
    rw [show (env.dependenciesBlockLimit <|> env.dependenciesBlockLimit) =
      env.dependenciesBlockLimit by cases env.dependenciesBlockLimit <;> rfl] at hnext
    dsimp only at hok
    split at hok
    · cases hok
      exact ⟨hattached.trans hnext, by simp⟩
    · obtain ⟨db₃, h₃, hok⟩ := bind_eq_ok.mp hok
      cases hok
      refine ⟨hattached.trans (hnext.trans (analyzeStages_advances h₃)), ?_⟩
      rintro r ⟨⟩ l hl
      simp only [analyzedBatch]
      refine least_le ?_
      rw [Option.mem_def.mp hl]
      simp
  · cases hok
    refine ⟨.refl _, fun r hr l hl ↦ ?_⟩
    rw [Option.mem_def, nextBatchRange] at hr
    split at hr
    · cases hr
    · dsimp only at hr
      split at hr
      · cases hr
      · split at hr
        · cases hr
        · cases hr
          refine least_le ?_
          rw [Option.mem_def.mp hl]
          simp

theorem finishIteration_advances {lastBlock : ℕ} {endBlockRange : Option ℕ}
    (hlast : ∀ l ∈ limit, lastBlock ≤ l)
    (hok : finishIteration env contexts lastBlock endBlockRange db = .ok db') :
    db.Advances contexts limit db' := by
  obtain ⟨db₁, h₁, hok⟩ := bind_eq_ok.mp hok
  cases hok
  have hmoved : db₁.Advances contexts limit
      (db₁.updateContexts contexts fun c ↦ { c with currentBlockNum := lastBlock }) :=
    .update fun c _ hc ↦ ⟨rfl, rfl, Or.inr ⟨hc, hlast⟩⟩
  refine Db.Advances.trans ?_ ((updateAttachment_advances h₁).trans hmoved)
  exact .touch (fun _ ↦ rfl) (fun _ ↦ rfl) fun _ ↦ rfl

theorem appNextIteration_advances {overrideMaxBatch callLimit : Option ℕ} {range : Option (ℕ × ℕ)}
    (hnon : db.NonForking contexts)
    (hok : appNextIteration env contexts wait overrideMaxBatch callLimit db = .ok (db', range)) :
    db.Advances contexts env.dependenciesBlockLimit db' := by
  obtain ⟨-, -, hok⟩ := bind_eq_ok.mp hok
  have hactive : db.Advances contexts env.dependenciesBlockLimit
      (db.updateContexts contexts (fun c ↦ { c with lastActiveAt := env.now })) :=
    .touch (fun _ ↦ rfl) (fun _ ↦ rfl) fun _ ↦ rfl
  refine hactive.trans ?_
  dsimp only at hok
  generalize db.updateContexts contexts (fun c ↦ { c with lastActiveAt := env.now }) = db₀ at *
  split at hok
  · cases hok
  case _ lead _ =>
    split at hok
    · cases hok
      exact .refl _
    · split at hok
      · cases hok
        exact .refl _
      · split at hok
        · cases hok
          exact .touch (fun _ ↦ rfl) (fun _ ↦ rfl) fun _ ↦ rfl
        · split at hok
          · cases hok
          · have hstaged : db₀.Advances contexts env.dependenciesBlockLimit
                (appContextSetDefaultStages contexts db₀) :=
              .touch (fun _ ↦ rfl) (fun _ ↦ rfl) fun _ ↦ rfl
            obtain ⟨⟨db₁, range₁⟩, h₁, hok⟩ := bind_eq_ok.mp hok
            obtain ⟨hrange, hlast⟩ := nextRange_advances
              (hstaged.nonForking (hactive.nonForking hnon)) h₁
            refine hstaged.trans (hrange.trans ?_)
            dsimp only at hok
            split at hok
            · cases hok
              exact .refl _
            · obtain ⟨db₂, h₂, hok⟩ := bind_eq_ok.mp hok
              cases hok
              exact finishIteration_advances (hlast _ rfl) h₂

end Functions

end HiveForkManager
