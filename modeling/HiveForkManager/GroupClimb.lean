import HiveForkManager.IterationRanges

namespace HiveForkManager

open ExceptList

variable {ρ : Type} {h : Hafd} {db db' : Db ρ} {contexts : List ContextName} {limit : Option ℕ}
variable {c c' : Context ρ} {env : CallEnv} {wait : Bool} {range : Option BlocksRange}

section NextBlock

theorem squashAndGetState_calm {state : ContextState} (hlead : db.leadContext contexts = some c)
    (hle : c.currentBlockNum ≤ c.irreversibleBlock)
    (hok : squashAndGetState contexts db = .ok (db', state)) :
    ∃ c', db'.leadContext contexts = some c' ∧ c'.currentBlockNum = c.currentBlockNum ∧
      c.irreversibleBlock ≤ c'.irreversibleBlock ∧ state.currentBlockNum = c.currentBlockNum ∧
      state.irreversibleBlockNum = c'.irreversibleBlock := by
  obtain ⟨db₁, h₁, hok⟩ := bind_eq_ok.mp hok
  obtain ⟨c₁, hlead₁, hcalm, -⟩ := squashEvents_lead hlead h₁
  rw [hlead₁] at hok
  obtain ⟨⟨db₂, event⟩, h₂, hok⟩ := bind_eq_ok.mp hok
  cases hok
  obtain ⟨⟨c₂, hlead₂, -, hcur, hirr⟩, -⟩ := findNextEvent_lead hlead₁ h₂
  have hsame := hcalm.currentBlockNum hle
  exact ⟨c₂, hlead₂, hcur.trans hsame, hirr ▸ hcalm.irreversibleBlock, hsame, hirr.symm⟩

theorem processIrreversibleRange_cases {current n : ℕ}
    (hr : processIrreversibleRange h current n c = (c', range)) :
    c' = c ∧ BlocksRange.toResult range = none ∨ ∃ first last : ℕ,
      c' = { c with currentBlockNum := first } ∧ range = some ⟨first, last⟩ ∧
        current < first ∧ first ≤ n := by
  rw [processIrreversibleRange] at hr
  split at hr
  case h_1 first last hfirst _ =>
    cases hr
    have hbounds := of_decide_eq_true (List.mem_filter.mp (List.min?_mem hfirst)).2
    exact .inr ⟨first, last, rfl, rfl, hbounds⟩
  case h_2 =>
    cases hr
    exact .inl ⟨rfl, rfl⟩

/-- What `hive.app_next_block` does to the first context of a non-forking group. -/
structure Climbed (limit : Option ℕ) (c c' : Context ρ) (range : Option BlocksRange) : Prop where
  current : c.currentBlockNum ≤ c'.currentBlockNum
  irreversible : c'.currentBlockNum ≤ c'.irreversibleBlock
  first : ∀ r ∈ range, c.currentBlockNum < c'.currentBlockNum ∧
    r.firstBlock = c'.currentBlockNum ∧ r.firstBlock ≤ r.lastBlock ∧
      ∀ l ∈ limit, c'.currentBlockNum ≤ l

theorem Climbed.stay (hle : c.currentBlockNum ≤ c.irreversibleBlock) : Climbed limit c c none :=
  ⟨le_rfl, hle, fun r hr ↦ by cases hr⟩

theorem Climbed.trans {d : Context ρ} (h₁ : Climbed limit c d none)
    (h₂ : Climbed limit d c' range) : Climbed limit c c' range :=
  ⟨h₁.current.trans h₂.current, h₂.irreversible, fun r hr ↦
    ⟨h₁.current.trans_lt (h₂.first r hr).1, (h₂.first r hr).2⟩⟩

theorem processIrreversibleRange_climbed {current irreversible : ℕ} {c₁ d : Context ρ}
    (hcur : c₁.currentBlockNum = c.currentBlockNum) (hstate : current = c.currentBlockNum)
    (hle : c.currentBlockNum ≤ c₁.irreversibleBlock) (hirr : irreversible = c₁.irreversibleBlock)
    (hd : d.standing = c'.standing)
    (hr : processIrreversibleRange h current (leastLimit irreversible limit) c₁ = (c', range)) :
    Climbed limit c d (BlocksRange.toResult range) := by
  have hdcur : d.currentBlockNum = c'.currentBlockNum :=
    congrArg (fun s ↦ s.key.currentBlockNum) hd
  have hdirr : d.irreversibleBlock = c'.irreversibleBlock := congrArg Standing.irreversibleBlock hd
  rcases processIrreversibleRange_cases hr with ⟨rfl, hnone⟩ | ⟨first, last, rfl, rfl, hlt, hn⟩
  · rw [hnone]
    refine ⟨?_, ?_, fun r hr ↦ by cases hr⟩ <;> omega
  · have hmin := leastLimit_le irreversible limit
    simp only at hdcur hdirr
    refine ⟨by omega, by omega, fun r hr ↦ ?_⟩
    obtain ⟨heq, hordered⟩ := Option.filter_eq_some_iff.mp hr
    cases heq
    refine ⟨by omega, by simp only [hdcur], of_decide_eq_true hordered, fun l hl ↦ ?_⟩
    have := leastLimit_le_limit irreversible l hl
    omega

theorem appNextBlockNonForkingLoop_climbed {n : ℕ} (hlead : db.leadContext contexts = some c)
    (hle : c.currentBlockNum ≤ c.irreversibleBlock)
    (hok : appNextBlockNonForkingLoop contexts wait limit n db = .ok (db', range)) :
    ∃ c', db'.leadContext contexts = some c' ∧ Climbed limit c c' range := by
  induction n generalizing db c with
  | zero =>
    cases hok
    exact ⟨c, hlead, .stay hle⟩
  | succ n ih =>
    obtain ⟨⟨db₁, state⟩, h₁, hok⟩ := bind_eq_ok.mp hok
    obtain ⟨⟨db₂, range₂⟩, h₂, hok⟩ := bind_eq_ok.mp hok
    obtain ⟨c₁, hlead₁, hcur, hirr, hstate, hstate'⟩ := squashAndGetState_calm hlead hle h₁
    obtain ⟨c₂, d, hlead₂, hp, hd, -⟩ := processForContexts_lead
      (fun c c' r hc ↦ processIrreversibleRange_standing (Except.ok.inj hc))
      (Standing.toRange_toRange _ _) hlead₁ h₂
    have hclimbed : Climbed limit c d (BlocksRange.toResult range₂) :=
      processIrreversibleRange_climbed hcur hstate (hle.trans hirr) hstate' hd (Except.ok.inj hp)
    dsimp only at hok
    split at hok
    case h_1 r hr =>
      cases hok
      exact ⟨d, hlead₂, hr ▸ hclimbed⟩
    case h_2 hr =>
      rw [hr] at hclimbed
      split at hok
      · cases hok
        exact ⟨d, hlead₂, hclimbed⟩
      · obtain ⟨c', hlead', hclimbed'⟩ := ih hlead₂ hclimbed.irreversible hok
        exact ⟨c', hlead', hclimbed.trans hclimbed'⟩

theorem appNextBlock_climbed {blockLimit : Option ℕ} (hnon : db.NonForking contexts)
    (hlead : db.leadContext contexts = some c) (hle : c.currentBlockNum ≤ c.irreversibleBlock)
    (hok : appNextBlock env contexts wait blockLimit db = .ok (db', range)) :
    ∃ c', db'.leadContext contexts = some c' ∧
      Climbed (blockLimit <|> env.dependenciesBlockLimit) c c' range := by
  obtain ⟨-, -, hok⟩ := bind_eq_ok.mp hok
  have hactive : db.Advances contexts env.dependenciesBlockLimit
      (db.updateContexts contexts (fun c ↦ { c with lastActiveAt := env.now })) :=
    .touch (fun _ ↦ rfl) (fun _ ↦ rfl) fun _ ↦ rfl
  have hlead' : (db.updateContexts contexts
      (fun c ↦ { c with lastActiveAt := env.now })).leadContext contexts =
        some { c with lastActiveAt := env.now } :=
    Db.leadContext_update (fun _ ↦ rfl) hlead
  split at hok
  · cases hok
    exact ⟨_, hlead', le_rfl, hle, fun r hr ↦ by cases hr⟩
  · obtain ⟨forking, hforking, hok⟩ := bind_eq_ok.mp hok
    obtain ⟨attached, -, hok⟩ := bind_eq_ok.mp hok
    obtain rfl := appAreForking_eq_false (hactive.nonForking hnon) hforking
    rw [Bool.and_false, Bool.false_and, Bool.false_and, if_neg Bool.false_ne_true] at hok
    obtain ⟨c', hc', hcurrent, hirreversible, hfirst⟩ :=
      appNextBlockNonForkingLoop_climbed hlead' hle hok
    exact ⟨c', hc', hcurrent, hirreversible, hfirst⟩

end NextBlock

section NextIteration

variable {lead : Context ρ} {overrideMaxBatch callLimit : Option ℕ}

theorem attachForAnalysis_climbed (hlead : db.leadContext contexts = some c)
    (hle : c.currentBlockNum ≤ c.irreversibleBlock)
    (hhead : c.currentBlockNum ≤ db.irreversibleHead)
    (hok : attachForAnalysis env contexts lead db = .ok db') :
    ∃ c', db'.leadContext contexts = some c' ∧ c'.currentBlockNum = c.currentBlockNum ∧
      c'.currentBlockNum ≤ c'.irreversibleBlock := by
  obtain ⟨forking, -, hok⟩ := bind_eq_ok.mp hok
  obtain ⟨attached, -, hok⟩ := bind_eq_ok.mp hok
  split at hok
  · obtain ⟨⟨⟩, -, hok⟩ := bind_eq_ok.mp hok
    rw [hlead] at hok
    dsimp only at hok
    split at hok
    · cases hok
    · have hrel : Db.Related (fun d d' ↦ Moved contexts
          (fun s ↦ (s.movedTo c.currentBlockNum).attached) d d' ∧ Kept d d') _ db' :=
        Db.MovesWithin.related_forEach Kept.refl Kept.trans (fun _ _ ↦ contextAttach_standing)
          (fun _ ↦ rfl) (fun _ _ ↦ contextAttach_keeps) hok
      obtain ⟨c', hlead', hmoved, -⟩ := hrel.exists_leadContext (fun _ _ hc ↦ hc.1.name)
        (Db.leadContext_update (fun _ ↦ rfl) hlead)
      have hstanding := hmoved.standing (Db.leadContext_name_mem hlead).2
      have hcur : c'.currentBlockNum = c.currentBlockNum :=
        congrArg (fun s ↦ s.key.currentBlockNum) hstanding
      have hirr : c'.irreversibleBlock = db.irreversibleHead :=
        congrArg Standing.irreversibleBlock hstanding
      exact ⟨c', hlead', hcur, by omega⟩
  · cases hok
    exact ⟨c, hlead, rfl, hle⟩

/-- The context is at the end of the last batch of a range in progress. -/
def Context.InBatch (c : Context ρ) : Prop :=
  c.loop.currentBatchEnd = some c.currentBlockNum ∧ c.loop.endBlockRange.isSome ∧
    c.loop.sizeOfBlocksBatch ≠ some 0

/-- Where `hive.app_next_iteration` goes on from the block of the context: it is irreversible if the
stages have to be analysed, and the end of the last batch if not. -/
def Context.GoesOn (env : CallEnv) (h : Hafd) (c : Context ρ) : Prop :=
  if isStagesAnalyzeRequired c.loop (getEstimatedHiveHeadBlock env h) then
    c.currentBlockNum ≤ c.irreversibleBlock ∧ c.currentBlockNum ≤ h.irreversibleHead
  else c.InBatch

theorem le_analyzedBatch {r : BlocksRange} {d : Context ρ} {e : ℕ}
    (hoverride : overrideMaxBatch ≠ some 0) (hlimit : ∀ l ∈ callLimit, c.currentBlockNum < l)
    (hclimbed : Climbed env.dependenciesBlockLimit c c' (some r))
    (hend : d.loop.endBlockRange = some e) (he : c'.currentBlockNum ≤ e)
    (hsize : d.loop.sizeOfBlocksBatch ≠ some 0) :
    c.currentBlockNum ≤ (analyzedBatch env overrideMaxBatch callLimit r d.loop).2 := by
  obtain ⟨hlt, hfirst, hordered, hdeps⟩ := hclimbed.first r rfl
  simp only [analyzedBatch, hend]
  refine le_least (n := e) (by simp) fun x hx ↦ ?_
  simp only [List.mem_cons, Option.some.injEq, List.not_mem_nil, or_false] at hx
  rcases hx with rfl | hx | hx | rfl | hx
  · omega
  · obtain ⟨size, hsome, rfl⟩ := Option.map_eq_some_iff.mp hx.symm
    have hpos : size ≠ 0 := by
      rintro rfl
      rcases Option.or_eq_some_iff.mp hsome with hsome | ⟨-, hsome⟩
      · exact hoverride hsome
      · exact hsize hsome
    omega
  · cases callLimit with
    | none =>
      cases hx
      omega
    | some l =>
      cases hx
      exact (hlimit x rfl).le
  · omega
  · have := hdeps x hx.symm
    omega

theorem le_nextBatchRange (hoverride : overrideMaxBatch ≠ some 0)
    (hlimit : ∀ l ∈ callLimit, c.currentBlockNum < l) (hbatch : c.InBatch)
    (hrequired : isStagesAnalyzeRequired c.loop (getEstimatedHiveHeadBlock env h) = false)
    {r : ℕ × ℕ} (hok : nextBatchRange env overrideMaxBatch callLimit c.loop h = some r) :
    c.currentBlockNum ≤ r.2 := by
  obtain ⟨hend, hrange, hsize⟩ := hbatch
  obtain ⟨e, he⟩ := Option.isSome_iff_exists.mp hrange
  simp only [isStagesAnalyzeRequired, Bool.or_eq_false_iff, he, hend] at hrequired
  have hlt : c.currentBlockNum < e := not_le.mp (of_decide_eq_false hrequired.1.2)
  rw [nextBatchRange, hend] at hok
  dsimp only at hok
  split at hok
  · cases hok
  case isFalse hcons =>
    split at hok
    · cases hok
    case isFalse hdeps =>
      cases hok
      refine le_least (n := e) (by simp [he]) fun x hx ↦ ?_
      simp only [he, List.mem_cons, Option.some.injEq, List.not_mem_nil, or_false] at hx
      rcases hx with hx | hx | rfl | hx | hx
      · obtain ⟨size, hsome, rfl⟩ := Option.map_eq_some_iff.mp hx.symm
        have hpos : size ≠ 0 := by
          rintro rfl
          rcases Option.or_eq_some_iff.mp hsome with hsome | ⟨-, hsome⟩
          · exact hoverride hsome
          · exact hsize hsome
        omega
      · cases callLimit with
        | none =>
          cases hx
          exact hlt.le
        | some l =>
          cases hx
          exact (hlimit x rfl).le
      · exact hlt.le
      · rw [← hx] at hcons
        simp only [Option.any_some, decide_eq_true_eq, not_lt] at hcons
        omega
      · rw [← hx] at hdeps
        simp only [Option.any_some, decide_eq_true_eq, not_lt] at hdeps
        omega

theorem nextRange_climbed {range : Option (ℕ × ℕ)} (hoverride : overrideMaxBatch ≠ some 0)
    (hlimit : ∀ l ∈ callLimit, c.currentBlockNum < l) (hnon : db.NonForking contexts)
    (hlead : db.leadContext contexts = some c) (hloop : lead.loop = c.loop)
    (hgoes : c.GoesOn env db.toHafd)
    (hok : nextRange env contexts wait overrideMaxBatch callLimit lead db = .ok (db', range)) :
    (range = none → ∃ c', db'.leadContext contexts = some c' ∧
      c.currentBlockNum ≤ c'.currentBlockNum) ∧ ∀ r ∈ range, c.currentBlockNum ≤ r.2 := by
  rw [nextRange, hloop] at hok
  rw [Context.GoesOn] at hgoes
  split at hok
  case isTrue hrequired =>
    rw [if_pos hrequired] at hgoes
    obtain ⟨db₁, h₁, hok⟩ := bind_eq_ok.mp hok
    obtain ⟨⟨db₂, blocks⟩, h₂, hok⟩ := bind_eq_ok.mp hok
    obtain ⟨c₁, hlead₁, hcur₁, hle₁⟩ := attachForAnalysis_climbed hlead hgoes.1 hgoes.2 h₁
    have hattached : db.Advances contexts env.dependenciesBlockLimit db₁ :=
      attachForAnalysis_advances h₁
    obtain ⟨c₂, hlead₂, hclimbed⟩ := appNextBlock_climbed (hattached.nonForking hnon) hlead₁ hle₁ h₂
    rw [show (env.dependenciesBlockLimit <|> env.dependenciesBlockLimit) =
      env.dependenciesBlockLimit by cases env.dependenciesBlockLimit <;> rfl] at hclimbed
    dsimp only at hok
    split at hok
    · cases hok
      exact ⟨fun _ ↦ ⟨c₂, hlead₂, hcur₁ ▸ hclimbed.current⟩, fun r hr ↦ by cases hr⟩
    case h_2 r =>
      obtain ⟨db₃, h₃, hok⟩ := bind_eq_ok.mp hok
      cases hok
      refine ⟨fun hnone ↦ (by cases hnone), ?_⟩
      rintro _ ⟨⟩
      obtain ⟨c₃, hlead₃, -, hend, hsize⟩ := analyzeStages_lead hlead₂ h₃
      have hpos : c₃.loop.sizeOfBlocksBatch ≠ some 0 := by
        rw [hsize]
        exact fun heq ↦ (sizeOfBatch_pos _ _).ne' (Option.some.inj heq)
      rw [hlead₃, ← hcur₁]
      exact le_analyzedBatch hoverride (fun l hl ↦ hcur₁ ▸ hlimit l hl) hclimbed hend
        (Nat.le_add_right _ _) hpos
  case isFalse hrequired =>
    rw [if_neg hrequired] at hgoes
    cases hok
    refine ⟨fun _ ↦ ⟨c, hlead, le_rfl⟩, fun r hr ↦ ?_⟩
    exact le_nextBatchRange hoverride hlimit hgoes (Bool.not_eq_true _ ▸ hrequired) hr

theorem appNextIteration_climbed {range : Option (ℕ × ℕ)} (hnon : db.NonForking contexts)
    (hlead : db.leadContext contexts = some c) (hgoes : c.GoesOn env db.toHafd)
    (hok : appNextIteration env contexts wait overrideMaxBatch callLimit db = .ok (db', range)) :
    (range = none → ∃ c', db'.leadContext contexts = some c' ∧
      c.currentBlockNum ≤ c'.currentBlockNum) ∧ ∀ r ∈ range, c.currentBlockNum ≤ r.2 := by
  obtain ⟨-, -, hok⟩ := bind_eq_ok.mp hok
  have hlead₀ : (db.updateContexts contexts
      (fun c ↦ { c with lastActiveAt := env.now })).leadContext contexts =
        some { c with lastActiveAt := env.now } :=
    Db.leadContext_update (fun _ ↦ rfl) hlead
  have hactive : db.Advances contexts env.dependenciesBlockLimit
      (db.updateContexts contexts (fun c ↦ { c with lastActiveAt := env.now })) :=
    .touch (fun _ ↦ rfl) (fun _ ↦ rfl) fun _ ↦ rfl
  have hnon₀ := hactive.nonForking hnon
  dsimp only at hok
  rw [hlead₀] at hok
  dsimp only at hok
  split at hok
  · cases hok
    exact ⟨fun _ ↦ ⟨_, hlead₀, le_rfl⟩, fun r hr ↦ by cases hr⟩
  case isFalse hlimit =>
    split at hok
    · cases hok
      exact ⟨fun _ ↦ ⟨_, hlead₀, le_rfl⟩, fun r hr ↦ by cases hr⟩
    · split at hok
      · cases hok
        exact ⟨fun _ ↦ ⟨_, Db.leadContext_update (fun _ ↦ rfl) hlead₀, le_rfl⟩,
          fun r hr ↦ by cases hr⟩
      · split at hok
        · cases hok
        case isFalse hoverride =>
          have hlimit' : ∀ l ∈ callLimit, c.currentBlockNum < l := by
            intro l hl
            rw [Option.mem_def.mp hl] at hlimit
            simpa using hlimit
          have hstaged : Db.Advances contexts env.dependenciesBlockLimit
              (db.updateContexts contexts (fun c ↦ { c with lastActiveAt := env.now }))
              (appContextSetDefaultStages contexts
                (db.updateContexts contexts (fun c ↦ { c with lastActiveAt := env.now }))) :=
            .touch (fun _ ↦ rfl) (fun _ ↦ rfl) fun _ ↦ rfl
          have hlead₁ : (appContextSetDefaultStages contexts (db.updateContexts contexts
              (fun c ↦ { c with lastActiveAt := env.now }))).leadContext contexts =
              some { c with
                lastActiveAt := env.now
                stages := c.stages.or (some defaultStages) } :=
            Db.leadContext_update
              (f := fun c ↦ { c with stages := c.stages.or (some defaultStages) })
              (fun _ ↦ rfl) hlead₀
          obtain ⟨⟨db₁, range₁⟩, h₁, hok⟩ := bind_eq_ok.mp hok
          obtain ⟨hnone, hsome⟩ := nextRange_climbed
            (c := { c with lastActiveAt := env.now, stages := c.stages.or (some defaultStages) })
            hoverride hlimit' (hstaged.nonForking hnon₀) hlead₁ rfl hgoes h₁
          dsimp only at hok
          split at hok
          · cases hok
            exact ⟨hnone, hsome⟩
          · obtain ⟨db₂, h₂, hok⟩ := bind_eq_ok.mp hok
            cases hok
            exact ⟨fun hnone ↦ (by cases hnone), hsome⟩

end NextIteration

section Group

theorem Db.MovesTogether.climbs (hmoves : db.MovesTogether contexts db')
    (hstep : db.InStep contexts) (hlead : db.leadContext contexts = some c)
    (hlead' : db'.leadContext contexts = some c') (hle : c.currentBlockNum ≤ c'.currentBlockNum) :
    db.Related (fun c c' ↦ c.currentBlockNum ≤ c'.currentBlockNum) db' := by
  obtain ⟨move, hmoves⟩ := hmoves
  obtain ⟨d, hd, hmoved, -⟩ := hmoves.exists_leadContext (fun _ _ hc ↦ hc.1.name) hlead
  obtain rfl := Option.some.inj (hd.symm.trans hlead')
  obtain ⟨hmem, hname⟩ := Db.leadContext_name_mem hlead
  refine hmoves.imp fun e he e' hmoved' ↦ ?_
  by_cases hn : e.name ∈ contexts
  · have hsame : e'.standing = d.standing := by
      rw [hmoved'.1.standing hn, hmoved.standing hname, hstep e he hn c hmem hname]
    have hcur : e'.currentBlockNum = d.currentBlockNum :=
      congrArg (fun s ↦ s.key.currentBlockNum) hsame
    have hcur' : e.currentBlockNum = c.currentBlockNum :=
      congrArg (fun s ↦ s.key.currentBlockNum) (hstep e he hn c hmem hname)
    omega
  · rw [hmoved'.1.other hn]

theorem appNextBlock_climbs {blockLimit : Option ℕ} (hnon : db.NonForking contexts)
    (hstep : db.InStep contexts) (hlead : db.leadContext contexts = some c)
    (hle : c.currentBlockNum ≤ c.irreversibleBlock)
    (hok : appNextBlock env contexts wait blockLimit db = .ok (db', range)) :
    db.Related (fun c c' ↦ c.currentBlockNum ≤ c'.currentBlockNum) db' := by
  obtain ⟨c', hlead', hclimbed⟩ := appNextBlock_climbed hnon hlead hle hok
  obtain ⟨move, hmoves⟩ := (appNextBlock_steps hok).1
  refine Db.MovesTogether.climbs ⟨move, ?_⟩ hstep hlead hlead' hclimbed.current
  exact hmoves.imp fun _ _ _ hc ↦ ⟨hc.1, trivial⟩

theorem appNextIteration_climbs {overrideMaxBatch callLimit : Option ℕ} {range : Option (ℕ × ℕ)}
    (hnon : db.NonForking contexts) (hstep : db.InStep contexts)
    (hlead : db.leadContext contexts = some c) (hgoes : c.GoesOn env db.toHafd)
    (hok : appNextIteration env contexts wait overrideMaxBatch callLimit db = .ok (db', range)) :
    db.Related (fun c c' ↦ c.currentBlockNum ≤ c'.currentBlockNum) db' := by
  obtain ⟨hnone, hsome⟩ := appNextIteration_climbed hnon hlead hgoes hok
  obtain ⟨hmoves, hlast⟩ := appNextIteration_together hok
  cases range with
  | none =>
    obtain ⟨c', hlead', hle⟩ := hnone rfl
    exact hmoves.climbs hstep hlead hlead' hle
  | some r =>
    obtain ⟨move, hrel⟩ := hmoves
    obtain ⟨c', hlead', -⟩ := hrel.exists_leadContext (fun _ _ hc ↦ hc.1.name) hlead
    obtain ⟨hmem, hname⟩ := Db.leadContext_name_mem hlead'
    refine Db.MovesTogether.climbs ⟨move, hrel⟩ hstep hlead hlead' ?_
    rw [hlast r rfl c' hmem hname]
    exact hsome r rfl

end Group

end HiveForkManager
