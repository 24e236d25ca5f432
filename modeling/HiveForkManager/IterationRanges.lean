import HiveForkManager.FirstContext
import HiveForkManager.Pruning

namespace HiveForkManager

open ExceptList

variable {ρ : Type} {h : Hafd} {db db' : Db ρ} {contexts : List ContextName}

section Calm

/-- Every context stays where a range in progress needs it. -/
abbrev Db.StaysCalm (db db' : Db ρ) : Prop :=
  db.Related (fun c c' ↦ c'.name = c.name ∧ Calm c c') db'

theorem Db.StaysCalm.refl (db : Db ρ) : db.StaysCalm db :=
  Db.Related.refl (fun c ↦ ⟨rfl, Calm.refl c⟩) db

theorem Db.StaysCalm.trans {db'' : Db ρ} (h₁ : db.StaysCalm db') (h₂ : db'.StaysCalm db'') :
    db.StaysCalm db'' :=
  Db.Related.comp (fun _ _ _ hc hc' ↦ ⟨hc'.1.trans hc.1, hc.2.trans _ _ _ hc'.2⟩) h₁ h₂

theorem Db.StaysCalm.update {f : Context ρ → Context ρ}
    (hf : ∀ c, (f c).name = c.name ∧ Calm c (f c)) :
    db.StaysCalm (db.updateContexts contexts f) :=
  Db.Related.updateContexts (fun c ↦ ⟨rfl, Calm.refl c⟩) fun c _ _ ↦ hf c

theorem contextAttach_keeps {n : ℕ} {c c' : Context ρ} (hok : contextAttach n c = .ok c') :
    Kept c c' := by
  obtain ⟨-, rfl⟩ := contextAttach_eq_ok hok
  exact ⟨rfl, le_rfl⟩

theorem contextDetach_calm {c c' : Context ρ} (hok : contextDetach h c = .ok c') : Calm c c' := by
  have hstanding := (contextDetach_standing hok).2
  obtain ⟨tables, -, hok⟩ := bind_eq_ok.mp hok
  have hkept := contextBackFromFork_keeps (h := h) c.irreversibleBlock c
  cases hok
  refine ⟨⟨hkept.loop, hkept.irreversibleBlock⟩, fun hle ↦ ?_⟩
  exact (congrArg (fun s ↦ s.key.currentBlockNum) hstanding).trans (min_eq_left hle)

variable {env : CallEnv}

theorem appContextAttach_stays (hirr : ∀ c ∈ db.contexts, c.irreversibleBlock ≤ db.irreversibleHead)
    (hok : appContextAttach env contexts db = .ok db') :
    db.Related (fun c c' ↦ c'.name = c.name ∧ Kept c c' ∧ c'.currentBlockNum = c.currentBlockNum)
      db' := by
  obtain ⟨⟨⟩, hsync, hok⟩ := bind_eq_ok.mp hok
  split at hok
  · cases hok
  case _ lead hlead =>
    obtain ⟨hmem, hname⟩ := Db.leadContext_name_mem hlead
    split at hok
    · cases hok
    · dsimp only at hok
      have hattached : Db.Related (fun c c' ↦ Moved contexts
          (fun s ↦ (s.movedTo lead.currentBlockNum).attached) c c' ∧ Kept c c') _ db' :=
        Db.MovesWithin.related_forEach Kept.refl Kept.trans (fun _ _ ↦ contextAttach_standing)
          (fun _ ↦ rfl) (fun _ _ ↦ contextAttach_keeps) hok
      have hupdated : ∀ forkId : Option ℕ, db.MovesWithin Kept contexts
          (db.updateContexts contexts (fun c ↦ { c with
            forkId := forkId.getD c.forkId
            irreversibleBlock := db.irreversibleHead
            eventsId := 0
            lastActiveAt := env.now })) := fun _ ↦
        Db.MovesWithin.update Kept.refl
          (fun s ↦ ⟨{ s.key with eventsId := 0 }, db.irreversibleHead⟩) (fun _ ↦ ⟨rfl, rfl⟩)
          fun c hc ↦ ⟨rfl, hirr c hc⟩
      obtain ⟨move, hupdated⟩ := hupdated _
      have hboth := Db.Related.comp (T := fun c c' ↦ c'.name = c.name ∧ Kept c c' ∧
        (c.name ∈ contexts → c'.currentBlockNum = lead.currentBlockNum) ∧
        (c.name ∉ contexts → c' = c)) (fun c c' c'' hc hc' ↦ ?_) hupdated hattached
      · refine hboth.imp fun c hc c' hcc' ↦ ⟨hcc'.1, hcc'.2.1, ?_⟩
        by_cases hn : c.name ∈ contexts
        · rw [hcc'.2.2.1 hn, currentBlockNum_eq_of_synchronized hsync hmem hname hc hn]
        · rw [hcc'.2.2.2 hn]
      · refine ⟨hc'.1.name.trans hc.1.name, hc.2.trans _ _ _ hc'.2, fun hn ↦ ?_, fun hn ↦ ?_⟩
        · exact congrArg (fun s ↦ s.key.currentBlockNum) (hc'.1.standing (hc.1.name ▸ hn))
        · exact (hc'.1.other (hc.1.name ▸ hn)).trans (hc.1.other hn)

theorem appContextAttach_calm (hirr : ∀ c ∈ db.contexts, c.irreversibleBlock ≤ db.irreversibleHead)
    (hok : appContextAttach env contexts db = .ok db') : db.StaysCalm db' :=
  (appContextAttach_stays hirr hok).imp fun _ _ _ hc ↦ ⟨hc.1, hc.2.1, fun _ ↦ hc.2.2⟩

theorem attachForAnalysis_stays {lead : Context ρ}
    (hirr : ∀ c ∈ db.contexts, c.irreversibleBlock ≤ db.irreversibleHead)
    (hok : attachForAnalysis env contexts lead db = .ok db') :
    db.Related (fun c c' ↦ c'.name = c.name ∧ Kept c c' ∧ c'.currentBlockNum = c.currentBlockNum)
      db' := by
  obtain ⟨forking, -, hok⟩ := bind_eq_ok.mp hok
  obtain ⟨attached, -, hok⟩ := bind_eq_ok.mp hok
  split at hok
  · exact appContextAttach_stays hirr hok
  · cases hok
    exact Db.Related.refl (fun c ↦ ⟨rfl, Kept.refl c, rfl⟩) _

theorem forEach_calm {f : Context ρ → Except Error (Context ρ)}
    (hf : ∀ c c', f c = .ok c' → c'.name = c.name ∧ Calm c c')
    (hok : db.forEachContext contexts f = .ok db') : db.StaysCalm db' :=
  Db.Related.forEachContext (fun c ↦ ⟨rfl, Calm.refl c⟩)
    (fun _ _ _ hc hc' ↦ ⟨hc'.1.trans hc.1, hc.2.trans _ _ _ hc'.2⟩) (fun c _ c' ↦ hf c c') hok

theorem forEach_contextDetach_calm (hok : db.forEachContext contexts (contextDetach h) = .ok db') :
    db.StaysCalm db' :=
  forEach_calm (fun _ _ hc ↦ ⟨(contextDetach_standing hc).1, contextDetach_calm hc⟩) hok

theorem appContextDetach_calm (hok : appContextDetach contexts db = .ok db') :
    db.StaysCalm db' := by
  obtain ⟨-, -, hok⟩ := bind_eq_ok.mp hok
  exact forEach_contextDetach_calm hok

theorem appContextSetMode_calm {isForking : Bool}
    (hok : appContextSetMode env isForking contexts db = .ok db') : db.StaysCalm db' := by
  rw [appContextSetMode] at hok
  split at hok
  · cases hok
    exact .refl _
  · obtain ⟨-, -, hok⟩ := bind_eq_ok.mp hok
    obtain ⟨db₁, h₁, hok⟩ := bind_eq_ok.mp hok
    have hswitched : db₁.StaysCalm (db₁.updateContexts contexts
        (fun c ↦ { c with isForking, lastActiveAt := env.now })) :=
      .update fun _ ↦ ⟨rfl, ⟨rfl, le_rfl⟩, fun _ ↦ rfl⟩
    refine (forEach_contextDetach_calm h₁).trans (hswitched.trans
      (forEach_calm (fun c c' hc ↦ ?_) hok))
    obtain ⟨hname, hstanding⟩ := contextAttach_standing hc
    exact ⟨hname, contextAttach_keeps hc,
      fun _ ↦ congrArg (fun s ↦ s.key.currentBlockNum) hstanding⟩

theorem updateAttachment_calm (hirr : ∀ c ∈ db.contexts, c.irreversibleBlock ≤ db.irreversibleHead)
    (hok : updateAttachment env contexts db = .ok db') : db.StaysCalm db' := by
  obtain ⟨attached, -, hok⟩ := bind_eq_ok.mp hok
  split at hok
  · split at hok
    · cases hok
      exact .refl _
    · exact appContextAttach_calm hirr hok
  · split at hok
    · exact appContextDetach_calm hok
    · cases hok
      exact .refl _

end Calm

section Loop

/-- A range of the loop in progress: the context is at the end of its last batch, and the range ends
on blocks that are irreversible for it. The stages are analysed anew after a wait for hived. -/
def Context.LoopOk (size : ℕ) (c : Context ρ) : Prop :=
  ∀ b, c.loop.currentBatchEnd = some b → ∃ e, c.loop.endBlockRange = some e ∧ (b < e →
    c.currentBlockNum = b ∧ e ≤ c.irreversibleBlock ∧
      (c.loop.currentStage ≠ some waitForHafStage → c.loop.sizeOfBlocksBatch = some size))

def Db.LoopInv (contexts : List ContextName) (db : Db ρ) : Prop :=
  ∀ lead, db.leadContext contexts = some lead → lead.LoopOk (sizeOfBatch contexts db)

theorem sizeOfBatch_congr (hrel : db.Related (fun c c' ↦ c'.name = c.name ∧
      (c.name ∈ contexts → c'.loop.currentStage = c.loop.currentStage)) db') :
    sizeOfBatch contexts db' = sizeOfBatch contexts db := by
  have hstages : (db'.group contexts).filterMap (fun c ↦ c.loop.currentStage) =
      (db.group contexts).filterMap (fun c ↦ c.loop.currentStage) := by
    unfold Db.Related at hrel
    unfold Db.group
    generalize db.contexts = cs, db'.contexts = cs' at hrel
    induction hrel with
    | nil => rfl
    | @cons c c' _ _ hc _ ih =>
      by_cases hn : c.name ∈ contexts
      · simp [List.filterMap_cons, hc.1, hn, hc.2 hn, ih]
      · simp [hc.1, hn, ih]
  unfold sizeOfBatch
  rw [hstages]

theorem sizeOfBatch_update (f : Context ρ → Context ρ)
    (hf : ∀ c, (f c).name = c.name ∧ (f c).loop.currentStage = c.loop.currentStage) :
    sizeOfBatch contexts (db.updateContexts contexts f) = sizeOfBatch contexts db :=
  sizeOfBatch_congr (Db.Related.updateContexts (fun _ ↦ ⟨rfl, fun _ ↦ rfl⟩)
    fun c _ _ ↦ ⟨(hf c).1, fun _ ↦ (hf c).2⟩)

theorem Db.StaysCalm.sizeOfBatch_eq (hcalm : db.StaysCalm db') :
    sizeOfBatch contexts db' = sizeOfBatch contexts db :=
  sizeOfBatch_congr (hcalm.imp fun _ _ _ hc ↦
    ⟨hc.1, fun _ ↦ congrArg ApplicationLoopState.currentStage hc.2.loop⟩)

theorem Context.LoopOk.of_kept {size : ℕ} {c c' : Context ρ} (hc : c.LoopOk size)
    (hkept : Kept c c') (hstays : 0 < c.irreversibleBlock →
      c.currentBlockNum ≤ c.irreversibleBlock → c'.currentBlockNum = c.currentBlockNum) :
    c'.LoopOk size := by
  intro b hb
  rw [hkept.loop] at hb ⊢
  obtain ⟨e, he, hprogress⟩ := hc b hb
  refine ⟨e, he, fun hlt ↦ ?_⟩
  obtain ⟨hcur, hirr, hsize⟩ := hprogress hlt
  exact ⟨(hstays (by omega) (by omega)).trans hcur, hirr.trans hkept.irreversibleBlock, hsize⟩

theorem Db.LoopInv.of_kept {S : Context ρ → Context ρ → Prop} (inv : db.LoopInv contexts)
    (hrel : db.Related S db') (hname : ∀ c c', S c c' → c'.name = c.name)
    (hkept : ∀ c c', S c c' → c.name ∈ contexts → Kept c c')
    (hstays : ∀ c c', db.leadContext contexts = some c → db'.leadContext contexts = some c' →
      S c c' → 0 < c.irreversibleBlock → c.currentBlockNum ≤ c.irreversibleBlock →
        c'.currentBlockNum = c.currentBlockNum) : db'.LoopInv contexts := by
  intro c' hlead'
  have hleads : Option.Rel S (db.leadContext contexts) (db'.leadContext contexts) :=
    hrel.leadContext hname
  rw [hlead'] at hleads
  cases hlead : db.leadContext contexts with
  | none =>
    rw [hlead] at hleads
    cases hleads
  | some c =>
    rw [hlead] at hleads
    cases hleads with
    | some hS =>
      have hsize : sizeOfBatch contexts db' = sizeOfBatch contexts db :=
        sizeOfBatch_congr (hrel.imp fun c _ c' hS ↦ ⟨hname c c' hS, fun hn ↦
          congrArg ApplicationLoopState.currentStage (hkept c c' hS hn).loop⟩)
      rw [hsize]
      exact (inv c hlead).of_kept (hkept c c' hS (Db.leadContext_name_mem hlead).2)
        (hstays c c' hlead hlead' hS)

theorem Db.LoopInv.of_calm (inv : db.LoopInv contexts) (hcalm : db.StaysCalm db') :
    db'.LoopInv contexts :=
  inv.of_kept hcalm (fun _ _ hc ↦ hc.1) (fun _ _ hc _ ↦ hc.2.toKept)
    fun _ _ _ _ hc _ ↦ hc.2.currentBlockNum

theorem sizeOfBatch_pos (contexts : List ContextName) (db : Db ρ) :
    0 < sizeOfBatch contexts db := by
  unfold sizeOfBatch
  generalize hsizes : (((db.group contexts).filterMap (fun c ↦ c.loop.currentStage)).filter
    (fun s ↦ decide (s ≠ liveStage))).map (fun s ↦ s.blocksLimitInGroup.1) = sizes
  cases hmin : sizes.min? with
  | none => exact Nat.one_pos
  | some size =>
    have hmem := (List.min?_eq_some_iff.mp hmin).1
    rw [← hsizes] at hmem
    obtain ⟨s, -, rfl⟩ := List.mem_map.mp hmem
    exact s.blocksLimitInGroup.2

theorem le_least {values : List (Option ℕ)} {m n : ℕ} (hn : some n ∈ values)
    (hm : ∀ x, some x ∈ values → m ≤ x) : m ≤ (least values).getD 0 := by
  have hmem : n ∈ values.filterMap id := by simpa using hn
  rw [least]
  obtain ⟨k, hk⟩ := Option.isSome_iff_exists.mp (List.isSome_min?_of_mem hmem)
  rw [hk]
  exact hm k (by simpa using (List.min?_eq_some_iff.mp hk).1)

def batchSize (overrideMaxBatch : Option ℕ) (contexts : List ContextName) (db : Db ρ) : ℕ :=
  overrideMaxBatch.getD (sizeOfBatch contexts db)

/-- A batch was chosen for a group, whose first context is where the range begins. -/
structure Chosen (env : CallEnv) (overrideMaxBatch limit : Option ℕ) (contexts : List ContextName)
    (db : Db ρ) (first last : ℕ) : Prop where
  le : first ≤ last
  size : last + 1 - first ≤ batchSize overrideMaxBatch contexts db
  limit : ∀ l ∈ limit, last ≤ l
  dependencies : ∀ l ∈ env.dependenciesBlockLimit, last ≤ l
  irreversible : last ≤ db.irreversibleHead ∨ first = last
  lead : ∃ c e, db.leadContext contexts = some c ∧ c.loop.endBlockRange = some e ∧ last ≤ e ∧
    (last < e → e ≤ c.irreversibleBlock) ∧
    c.loop.sizeOfBlocksBatch = some (sizeOfBatch contexts db)

section Choose

variable {env : CallEnv} {overrideMaxBatch callLimit : Option ℕ} {c : Context ρ}
  (hoverride : overrideMaxBatch ≠ some 0)

include hoverride

theorem batchSize_pos (contexts : List ContextName) (db : Db ρ) :
    0 < batchSize overrideMaxBatch contexts db := by
  cases overrideMaxBatch with
  | none => exact sizeOfBatch_pos contexts db
  | some n => exact Nat.pos_of_ne_zero fun hn ↦ hoverride (congrArg some hn)

omit hoverride in
theorem or_sizeOfBatch : overrideMaxBatch.or (some (sizeOfBatch contexts db)) =
    some (batchSize overrideMaxBatch contexts db) := by
  cases overrideMaxBatch <;> rfl

theorem nextBatchRange_chosen (hlead : db.leadContext contexts = some c) (inv : db.LoopInv contexts)
    (hhead : c.irreversibleBlock ≤ db.irreversibleHead)
    (hlimit : ∀ l ∈ callLimit, c.currentBlockNum < l)
    (hrequired : isStagesAnalyzeRequired c.loop (getEstimatedHiveHeadBlock env db.toHafd) = false)
    {first last : ℕ} (hok : nextBatchRange env overrideMaxBatch callLimit c.loop db.toHafd =
      some (first, last)) :
    first = c.currentBlockNum + 1 ∧
      Chosen env overrideMaxBatch callLimit contexts db first last := by
  rw [nextBatchRange] at hok
  split at hok
  · cases hok
  case h_2 b hb =>
    obtain ⟨e, he, hprogress⟩ := inv c hlead b hb
    simp only [isStagesAnalyzeRequired, Bool.or_eq_false_iff, he, hb] at hrequired
    have hlt : b < e := not_le.mp (of_decide_eq_false hrequired.1.2)
    obtain ⟨hcur, hirr, hsize⟩ := hprogress hlt
    replace hsize := hsize (of_decide_eq_false hrequired.1.1.2)
    dsimp only at hok
    split at hok
    · cases hok
    · split at hok
      · cases hok
      case _ hcons hdep =>
        rw [hsize, or_sizeOfBatch, he] at hok
        have hpos := batchSize_pos hoverride contexts db
        cases hok
        have hle : (least [some (b + 1 + batchSize overrideMaxBatch contexts db - 1),
            callLimit.or (some e), some e, db.consistentBlock,
            env.dependenciesBlockLimit]).getD 0 ≤ e := least_le (by simp)
        refine ⟨by rw [hcur], ⟨le_least (n := e) (by simp) fun x hx ↦ ?_, ?_, fun l hl ↦ ?_,
          fun l hl ↦ least_le (by rw [Option.mem_def.mp hl]; simp),
          Or.inl (hle.trans (hirr.trans hhead)), c, e, hlead, he, hle, fun _ ↦ hirr, hsize⟩⟩
        · simp only [Option.map_some, List.mem_cons, Option.some.injEq, List.not_mem_nil,
            or_false] at hx
          rcases hx with rfl | hx | rfl | hx | hx
          · omega
          · cases callLimit with
            | none =>
              cases hx
              omega
            | some l =>
              cases hx
              have := hlimit x rfl
              omega
          · omega
          · rw [← hx] at hcons
            simpa using hcons
          · rw [← hx] at hdep
            simpa using hdep
        · have hbatch : (least [some (b + 1 + batchSize overrideMaxBatch contexts db - 1),
              callLimit.or (some e), some e, db.consistentBlock,
              env.dependenciesBlockLimit]).getD 0 ≤
              b + 1 + batchSize overrideMaxBatch contexts db - 1 := least_le (by simp)
          simp only [Option.map_some] at hbatch ⊢
          omega
        · refine least_le ?_
          rw [Option.mem_def.mp hl]
          simp

variable {range : BlocksRange}

omit hoverride in
theorem analyzeStages_lead {head : Option ℤ} (hlead : db.leadContext contexts = some c)
    (hok : analyzeStages env contexts range head db = .ok db') :
    ∃ c', db'.leadContext contexts = some c' ∧ c'.irreversibleBlock = c.irreversibleBlock ∧
      c'.loop.endBlockRange =
        some (c.currentBlockNum + (range.lastBlock - range.firstBlock).toNat) ∧
      c'.loop.sizeOfBlocksBatch = some (sizeOfBatch contexts db') := by
  obtain ⟨stages, -, hok⟩ := bind_eq_ok.mp hok
  cases hok
  refine ⟨_, Db.leadContext_update (fun _ ↦ rfl) (Db.leadContext_update (fun _ ↦ rfl) hlead), rfl,
    rfl, congrArg some (sizeOfBatch_congr ?_).symm⟩
  exact Db.Related.updateContexts (fun _ ↦ ⟨rfl, fun _ ↦ rfl⟩) fun _ _ _ ↦ ⟨rfl, fun _ ↦ rfl⟩

omit hoverride in
theorem analyzeStages_toHafd {head : Option ℤ}
    (hok : analyzeStages env contexts range head db = .ok db') : db'.toHafd = db.toHafd := by
  obtain ⟨stages, -, hok⟩ := bind_eq_ok.mp hok
  cases hok
  rfl

theorem analyzedBatch_chosen {start e : ℕ}
    (hlead : db.leadContext contexts = some c) (hirr : c.irreversibleBlock ≤ db.irreversibleHead)
    (he : c.loop.endBlockRange = some e) (hend : (e : ℤ) = range.lastBlock)
    (hsize : c.loop.sizeOfBlocksBatch = some (sizeOfBatch contexts db))
    (hfirst : range.firstBlock = (start + 1 : ℕ))
    (hlast : range.lastBlock = range.firstBlock ∨
      ∃ n : ℕ, range.lastBlock = n ∧ start < n ∧ n ≤ c.irreversibleBlock)
    (hlimit : ∀ l ∈ callLimit, start + 1 ≤ l)
    (hdep : ∀ l ∈ env.dependenciesBlockLimit, start + 1 ≤ l) {first last : ℕ}
    (hok : analyzedBatch env overrideMaxBatch callLimit range c.loop = (first, last)) :
    first = start + 1 ∧ Chosen env overrideMaxBatch callLimit contexts db first last := by
  have hpos := batchSize_pos hoverride contexts db
  have hstart : start + 1 ≤ e := by
    rcases hlast with hlast | ⟨n, hlast, hlt, -⟩ <;> omega
  have hirr' : e ≤ c.irreversibleBlock ∨ e = start + 1 := by
    rcases hlast with hlast | ⟨n, hlast, -, hle⟩ <;> omega
  have hrange : range.lastBlock.toNat = e := by omega
  have hfirst' : range.firstBlock.toNat = start + 1 := by omega
  simp only [analyzedBatch, hsize, or_sizeOfBatch, he, hrange, hfirst', Option.map_some,
    Prod.mk.injEq] at hok
  obtain ⟨rfl, rfl⟩ := hok
  set values : List (Option ℕ) := [some e,
    some (start + 1 + batchSize overrideMaxBatch contexts db - 1),
    callLimit.or (some e), some e, env.dependenciesBlockLimit] with hvalues
  have hle : (least values).getD 0 ≤ e := least_le (by simp [hvalues])
  have hbatch : (least values).getD 0 ≤ start + 1 + batchSize overrideMaxBatch contexts db - 1 :=
    least_le (by simp [hvalues])
  have hge : start + 1 ≤ (least values).getD 0 := by
    refine le_least (n := e) (by simp [hvalues]) fun x hx ↦ ?_
    simp only [hvalues, List.mem_cons, Option.some.injEq, List.not_mem_nil, or_false] at hx
    rcases hx with rfl | rfl | hx | rfl | hx
    · exact hstart
    · omega
    · cases callLimit with
      | none =>
        cases hx
        exact hstart
      | some l =>
        cases hx
        exact hlimit x rfl
    · exact hstart
    · exact hdep x hx.symm
  refine ⟨rfl, ⟨hge, by omega, fun l hl ↦ least_le ?_, fun l hl ↦ least_le ?_, ?_, c, e, hlead, he,
    hle, fun hlt ↦ ?_, hsize⟩⟩
  · simp [hvalues, Option.mem_def.mp hl]
  · simp [hvalues, Option.mem_def.mp hl]
  · rcases hirr' with hirr' | rfl
    · exact Or.inl (hle.trans (hirr'.trans hirr))
    · exact Or.inr (le_antisymm hge hle)
  · rcases hirr' with hirr' | rfl
    · exact hirr'
    · omega

end Choose

section Iterate

variable {chain : List BlockData} {stored : List (Reversible BlockData)} {R : ℕ → Prop}
  {names : List ContextName} {env : CallEnv} {wait : Bool} {overrideMaxBatch callLimit : Option ℕ}
  {c lead : Context ρ}

theorem AppKept.irr_le (hkept : AppKept h (Placed h R) names db) :
    ∀ c ∈ db.contexts, c.irreversibleBlock ≤ db.irreversibleHead := fun c hc ↦ by
  rw [hkept.toHafd]
  exact (hkept.contexts c hc).irr_le

def rangeStart (env : CallEnv) (contexts : List ContextName) (lead : Context ρ) (db : Db ρ) :
    Option ℕ :=
  if isStagesAnalyzeRequired lead.loop (getEstimatedHiveHeadBlock env db.toHafd) then
    (attachForAnalysis env contexts lead db).toOption.bind (fun attached ↦
      squashedBlock contexts (attached.updateContexts contexts
        (fun c ↦ { c with lastActiveAt := env.now })))
  else some lead.currentBlockNum

structure Starts (env : CallEnv) (contexts : List ContextName) (lead : Context ρ) (db : Db ρ)
    (first : ℕ) : Prop where
  start : (rangeStart env contexts lead db).map (· + 1) = some first
  le : first ≤ lead.currentBlockNum + 1
  eq : lead.currentBlockNum ≤ lead.irreversibleBlock → first = lead.currentBlockNum + 1

variable (frame : EventFrame h R) (storage : StorageInv h chain stored)

include frame storage

variable {range : Option (ℕ × ℕ)}

theorem nextRange_chosen (hpruning : h.hiveState.pruning = 0)
    (hkept : AppKept h (Placed h R) names db) (hlead : db.leadContext contexts = some c)
    (hloop : lead.loop = c.loop) (hcur : lead.currentBlockNum = c.currentBlockNum)
    (hirr : lead.irreversibleBlock = c.irreversibleBlock) (inv : db.LoopInv contexts)
    (hoverride : overrideMaxBatch ≠ some 0) (hlimit : ∀ l ∈ callLimit, c.currentBlockNum < l)
    (hok : nextRange env contexts wait overrideMaxBatch callLimit lead db = .ok (db', range)) :
    (range = none → db'.LoopInv contexts) ∧ ∀ r ∈ range,
      Starts env contexts lead db r.1 ∧
      Chosen env overrideMaxBatch callLimit contexts db' r.1 r.2 := by
  rw [nextRange] at hok
  split at hok
  case isTrue hrequired =>
    obtain ⟨db₁, h₁, hok⟩ := bind_eq_ok.mp hok
    obtain ⟨⟨db₂, blocks⟩, h₂, hok⟩ := bind_eq_ok.mp hok
    have hstays := attachForAnalysis_stays hkept.irr_le h₁
    have hkept₁ := attachForAnalysis_kept frame hkept h₁
    have hkept₂ := appNextBlock_kept frame hkept₁ h₂
    obtain ⟨c₁, hlead₁, -, hkeep₁, hcur₁⟩ := hstays.exists_leadContext (fun _ _ hc ↦ hc.1) hlead
    have inv₁ : db₁.LoopInv contexts :=
      inv.of_calm (hstays.imp fun _ _ _ hc ↦ ⟨hc.1, hc.2.1, fun _ ↦ hc.2.2⟩)
    obtain ⟨c₂, start, hlead₂, hstart, hasked⟩ :=
      appNextBlock_asked frame storage hpruning hkept₁ hlead₁ h₂
    rw [show (env.dependenciesBlockLimit <|> env.dependenciesBlockLimit) =
      env.dependenciesBlockLimit by cases env.dependenciesBlockLimit <;> rfl] at hasked
    dsimp only at hok
    cases blocks with
    | none =>
      cases hok
      refine ⟨fun _ ↦ ?_, fun _ h ↦ by cases h⟩
      obtain ⟨move, hsteps⟩ := (appNextBlock_steps h₂).1
      refine inv₁.of_kept hsteps (fun _ _ hc ↦ hc.1.name) (fun _ _ hc _ ↦ hc.2) ?_
      intro d d' hd hd' _
      obtain rfl := Option.some.inj (hlead₁.symm.trans hd)
      obtain rfl := Option.some.inj (hlead₂.symm.trans hd')
      exact hasked.nothing rfl
    | some blocks =>
      obtain ⟨db₃, h₃, hok⟩ := bind_eq_ok.mp hok
      cases hok
      refine ⟨fun h ↦ (by cases h), ?_⟩
      rintro r ⟨⟩
      obtain ⟨hfirst, hcur₂, hlast, hdep⟩ := hasked.first blocks rfl
      obtain ⟨c₃, hlead₃, hirr₃, hend, hsize⟩ := analyzeStages_lead hlead₂ h₃
      have hstart_le := hasked.start_le
      have hhead : c₃.irreversibleBlock ≤ db'.irreversibleHead := by
        rw [hirr₃, analyzeStages_toHafd h₃]
        exact hkept₂.irr_le c₂ (Db.leadContext_name_mem hlead₂).1
      have hrange : ((c₂.currentBlockNum + (blocks.lastBlock - blocks.firstBlock).toNat : ℕ) : ℤ) =
          blocks.lastBlock := by
        rcases hlast with hlast | ⟨n, hlast, hlt, -⟩ <;> omega
      obtain ⟨hfirst', hchosen⟩ := analyzedBatch_chosen hoverride hlead₃ hhead hend hrange hsize
        hfirst (hirr₃ ▸ hlast) (fun l hl ↦ by have := hlimit l hl; omega) hdep
        (show analyzedBatch env overrideMaxBatch callLimit blocks c₃.loop =
          ((analyzedBatch env overrideMaxBatch callLimit blocks c₃.loop).1,
            (analyzedBatch env overrideMaxBatch callLimit blocks c₃.loop).2) from rfl)
      rw [hlead₃, Option.elim_some]
      refine ⟨⟨?_, by omega, fun hle ↦ ?_⟩, hchosen⟩
      · rw [rangeStart, if_pos hrequired, h₁, hfirst']
        exact congrArg (Option.map (· + 1)) (hstart rfl)
      · have hirr₁ := hkeep₁.irreversibleBlock
        have heq := hasked.start_eq (by omega)
        omega
  case isFalse hrequired =>
    cases hok
    refine ⟨fun _ ↦ inv, fun r hr ↦ ?_⟩
    have hc := (Db.leadContext_name_mem hlead).1
    rw [Bool.not_eq_true, hloop] at hrequired
    rw [hloop] at hr
    obtain ⟨hfirst, hchosen⟩ := nextBatchRange_chosen hoverride hlead inv (hkept.irr_le c hc) hlimit
      hrequired hr
    refine ⟨⟨?_, by omega, fun _ ↦ by omega⟩, hchosen⟩
    rw [rangeStart, hloop, if_neg (by rw [hrequired]; exact Bool.false_ne_true), hcur, hfirst]
    rfl

omit frame storage in
theorem finishIteration_loopInv {first last e : ℕ} (hkept : AppKept h (Placed h R) names db)
    (hchosen : Chosen env overrideMaxBatch callLimit contexts db first last)
    (he : (db.leadContext contexts).bind (fun c ↦ c.loop.endBlockRange) = some e)
    (hok : finishIteration env contexts last (some e) db = .ok db') :
    db'.LoopInv contexts ∧ sizeOfBatch contexts db' = sizeOfBatch contexts db ∧
      ∀ c ∈ db'.contexts, c.name ∈ contexts →
        c.currentBlockNum = last ∧ c.loop.currentBatchEnd = some last := by
  obtain ⟨db₁, h₁, hok⟩ := bind_eq_ok.mp hok
  cases hok
  obtain ⟨c, e', hlead, he', -, hirr, hsize⟩ := hchosen.lead
  obtain rfl : e' = e := by
    rw [hlead, Option.bind_some, he'] at he
    exact Option.some.inj he
  set noted := db.updateContexts contexts (fun c ↦ { c with loop := { c.loop with
    currentBatchEnd := some last, endBlockRange := some e' } }) with hnoted
  have hlead₀ : noted.leadContext contexts = some { c with loop := { c.loop with
      currentBatchEnd := some last, endBlockRange := some e' } } :=
    Db.leadContext_update (fun _ ↦ rfl) hlead
  have hkept₀ : AppKept h (Placed h R) names noted :=
    hkept.updateContexts fun _ _ ↦ .of_eq rfl rfl rfl
  have hcalm : noted.StaysCalm db₁ := updateAttachment_calm hkept₀.irr_le h₁
  obtain ⟨c₁, hlead₁, -, hcalm₁⟩ := hcalm.exists_leadContext (fun _ _ hc ↦ hc.1) hlead₀
  have hsame : sizeOfBatch contexts (db₁.updateContexts contexts
      (fun c ↦ { c with currentBlockNum := last })) = sizeOfBatch contexts db := by
    refine (sizeOfBatch_update (fun c ↦ { c with currentBlockNum := last })
      fun _ ↦ ⟨rfl, rfl⟩).trans (hcalm.sizeOfBatch_eq.trans ?_)
    exact sizeOfBatch_update _ fun _ ↦ ⟨rfl, rfl⟩
  refine ⟨fun c' hlead' ↦ ?_, hsame, fun c' hc' hn ↦ ?_⟩
  · have hlead₂ : (db₁.updateContexts contexts
        (fun c ↦ { c with currentBlockNum := last })).leadContext contexts =
          some { c₁ with currentBlockNum := last } :=
      Db.leadContext_update (fun _ ↦ rfl) hlead₁
    obtain rfl := Option.some.inj (hlead₂.symm.trans hlead')
    intro b hb
    rw [hsame]
    have hloop := hcalm₁.loop
    dsimp only at hb hloop ⊢
    rw [hloop] at hb ⊢
    obtain rfl := Option.some.inj hb
    exact ⟨e', rfl, fun hlt ↦ ⟨rfl, (hirr hlt).trans hcalm₁.irreversibleBlock, fun _ ↦ hsize⟩⟩
  · obtain ⟨d, hd, rfl⟩ := List.mem_map.mp hc'
    by_cases hdn : d.name ∈ contexts
    · rw [if_pos hdn]
      obtain ⟨d₀, hd₀, hname, hcalm₀⟩ := hcalm.exists_of_mem hd
      obtain ⟨d₁, -, rfl⟩ := List.mem_map.mp hd₀
      refine ⟨rfl, ?_⟩
      by_cases hdn₁ : d₁.name ∈ contexts
      · rw [if_pos hdn₁] at hcalm₀
        exact congrArg ApplicationLoopState.currentBatchEnd hcalm₀.loop
      · rw [if_neg hdn₁] at hname
        exact absurd (hname ▸ hdn) hdn₁
    · rw [if_neg hdn] at hn
      exact absurd hn hdn

omit frame storage in
theorem setWaitingForHafStage_loopInv (inv : db.LoopInv contexts) :
    (setWaitingForHafStage contexts db).LoopInv contexts := by
  intro c' hlead'
  rw [setWaitingForHafStage, Db.leadContext_updateContexts (by exact fun _ ↦ rfl)] at hlead'
  obtain ⟨c, hlead, rfl⟩ := Option.map_eq_some_iff.mp hlead'
  intro b hb
  obtain ⟨e, he, hprogress⟩ := inv c hlead b hb
  exact ⟨e, he, fun hlt ↦ ⟨(hprogress hlt).1, (hprogress hlt).2.1, fun hwait ↦ absurd rfl hwait⟩⟩

def iterationStart (env : CallEnv) (contexts : List ContextName) (db : Db ρ) : Option ℕ :=
  let active := db.updateContexts contexts (fun c ↦ { c with lastActiveAt := env.now })
  (active.leadContext contexts).bind (fun lead ↦
    rangeStart env contexts lead (appContextSetDefaultStages contexts active))

structure WellFormedRange (env : CallEnv) (overrideMaxBatch limit : Option ℕ)
    (contexts : List ContextName) (db db' : Db ρ) (first last : ℕ) : Prop where
  start : (iterationStart env contexts db).map (· + 1) = some first
  start_le : ∀ c ∈ db.contexts, c.name ∈ contexts → first ≤ c.currentBlockNum + 1
  start_eq : ∀ c, db.leadContext contexts = some c → c.currentBlockNum ≤ c.irreversibleBlock →
    first = c.currentBlockNum + 1
  le : first ≤ last
  size : last + 1 - first ≤ overrideMaxBatch.getD (sizeOfBatch contexts db')
  limit : ∀ l ∈ limit, last ≤ l
  dependencies : ∀ l ∈ env.dependenciesBlockLimit, last ≤ l
  irreversible : last ≤ db.irreversibleHead ∨ first = last
  after : ∀ c ∈ db'.contexts, c.name ∈ contexts →
    c.currentBlockNum = last ∧ c.loop.currentBatchEnd = some last

theorem iterate_ranges (hpruning : h.hiveState.pruning = 0)
    (hkept : AppKept h (Placed h R) names db) (hlead : db.leadContext contexts = some c)
    (hloop : lead.loop = c.loop) (hcur : lead.currentBlockNum = c.currentBlockNum)
    (hirr : lead.irreversibleBlock = c.irreversibleBlock) (inv : db.LoopInv contexts)
    (hoverride : overrideMaxBatch ≠ some 0) (hlimit : ∀ l ∈ callLimit, c.currentBlockNum < l)
    (hok : iterate env contexts wait overrideMaxBatch callLimit lead db = .ok (db', range)) :
    db'.LoopInv contexts ∧ ∀ r ∈ range, Starts env contexts lead db r.1 ∧ r.1 ≤ r.2 ∧
      r.2 + 1 - r.1 ≤ overrideMaxBatch.getD (sizeOfBatch contexts db') ∧
      (∀ l ∈ callLimit, r.2 ≤ l) ∧ (∀ l ∈ env.dependenciesBlockLimit, r.2 ≤ l) ∧
      (r.2 ≤ h.irreversibleHead ∨ r.1 = r.2) ∧
      ∀ c ∈ db'.contexts, c.name ∈ contexts →
        c.currentBlockNum = r.2 ∧ c.loop.currentBatchEnd = some r.2 := by
  obtain ⟨⟨db₁, range₁⟩, h₁, hok⟩ := bind_eq_ok.mp hok
  have hchosen := nextRange_chosen frame storage hpruning hkept hlead hloop hcur hirr inv hoverride
    hlimit h₁
  have hkept₁ : AppKept h (Placed h R) names db₁ := by
    rw [nextRange] at h₁
    split at h₁
    · exact nextAnalyzedRange_kept frame hkept h₁
    · cases h₁
      exact hkept
  cases range₁ with
  | none =>
    cases hok
    exact ⟨hchosen.1 rfl, fun _ h ↦ by cases h⟩
  | some r =>
    obtain ⟨db₂, h₂, hok⟩ := bind_eq_ok.mp hok
    cases hok
    obtain ⟨hstarts, hr⟩ := hchosen.2 r rfl
    obtain ⟨c₁, e, hlead₁, he, -⟩ := hr.lead
    have hend : (db₁.leadContext contexts).bind (fun c ↦ c.loop.endBlockRange) = some e := by
      rw [hlead₁]
      exact he
    rw [hend] at h₂
    obtain ⟨hinv, hsize, hafter⟩ := finishIteration_loopInv hkept₁ hr hend h₂
    refine ⟨hinv, ?_⟩
    rintro r' ⟨⟩
    refine ⟨hstarts, hr.le, ?_, hr.limit, hr.dependencies, ?_, hafter⟩
    · rw [hsize]
      exact hr.size
    · rw [← hkept₁.toHafd]
      exact hr.irreversible

theorem appNextIteration_ranges (hpruning : h.hiveState.pruning = 0)
    (hkept : AppKept h (Placed h R) names db) (inv : db.LoopInv contexts)
    (hok : appNextIteration env contexts wait overrideMaxBatch callLimit db = .ok (db', range)) :
    db'.LoopInv contexts ∧ ∀ r ∈ range,
      WellFormedRange env overrideMaxBatch callLimit contexts db db' r.1 r.2 := by
  obtain ⟨⟨⟩, hsync, hok⟩ := bind_eq_ok.mp hok
  dsimp only at hok
  set active := db.updateContexts contexts (fun c ↦ { c with lastActiveAt := env.now }) with hactive
  have hkeptActive : AppKept h (Placed h R) names active :=
    hkept.updateContexts fun _ _ ↦ .of_eq rfl rfl rfl
  have invActive : active.LoopInv contexts :=
    inv.of_calm (.update fun _ ↦ ⟨rfl, ⟨rfl, le_rfl⟩, fun _ ↦ rfl⟩)
  split at hok
  · cases hok
  case _ lead hlead =>
    obtain ⟨c₀, hlead₀, hc₀⟩ : ∃ c₀, db.leadContext contexts = some c₀ ∧
        { c₀ with lastActiveAt := env.now } = lead := by
      rw [hactive, Db.leadContext_updateContexts (by exact fun _ ↦ rfl)] at hlead
      exact Option.map_eq_some_iff.mp hlead
    split at hok
    · obtain ⟨rfl, rfl⟩ := Prod.mk.inj (Except.ok.inj hok)
      exact ⟨invActive, nofun⟩
    case isFalse hlimit =>
      split at hok
      · obtain ⟨rfl, rfl⟩ := Prod.mk.inj (Except.ok.inj hok)
        exact ⟨invActive, nofun⟩
      · split at hok
        · cases hok
          exact ⟨setWaitingForHafStage_loopInv invActive, nofun⟩
        · split at hok
          · cases hok
          case isFalse hoverride =>
            have hkeptStaged : AppKept h (Placed h R) names
                (appContextSetDefaultStages contexts active) :=
              hkeptActive.updateContexts fun _ _ ↦ .of_eq rfl rfl rfl
            have invStaged : (appContextSetDefaultStages contexts active).LoopInv contexts :=
              invActive.of_calm (.update fun _ ↦ ⟨rfl, ⟨rfl, le_rfl⟩, fun _ ↦ rfl⟩)
            have hleadStaged : (appContextSetDefaultStages contexts active).leadContext contexts =
                some { lead with stages := lead.stages.or (some defaultStages) } :=
              Db.leadContext_update (fun _ ↦ rfl) hlead
            have hlimit' : ∀ l ∈ callLimit, lead.currentBlockNum < l := by
              rintro l ⟨⟩
              simpa using hlimit
            obtain ⟨hinv, hranges⟩ := iterate_ranges frame storage hpruning hkeptStaged hleadStaged
              rfl rfl rfl invStaged hoverride hlimit' hok
            refine ⟨hinv, fun r hr ↦ ?_⟩
            obtain ⟨hstarts, hle, hsize, hcallLimit, hdep, hirr, hafter⟩ := hranges r hr
            obtain ⟨hmem₀, hname₀⟩ := Db.leadContext_name_mem hlead₀
            have hcur : lead.currentBlockNum = c₀.currentBlockNum := by rw [← hc₀]
            refine ⟨?_, fun c hc hn ↦ ?_, fun c hc hle ↦ ?_, hle, hsize, hcallLimit, hdep, ?_,
              hafter⟩
            · rw [iterationStart, ← hactive]
              rw [hlead, Option.bind_some]
              exact hstarts.start
            · rw [currentBlockNum_eq_of_synchronized hsync hc hn hmem₀ hname₀, ← hcur]
              exact hstarts.le
            · obtain rfl := Option.some.inj (hlead₀.symm.trans hc)
              rw [← hcur]
              exact hstarts.eq (by rw [← hc₀]; exact hle)
            · rw [hkept.toHafd]
              exact hirr

end Iterate

end Loop

section Runs

variable {g : List ContextName} {w : World ℕ} {db db' : Db ℕ}

/-- A group runs on iterations: no call of `hive.app_next_block` has a context of the group, and an
iteration with one of its contexts is an iteration of the whole group. The calls that attach and
detach may be made for any contexts. -/
def Call.Iterates (g : List ContextName) (w : World ℕ) : Call → Prop
  | .hived call => w.Allowed call
  | .nextBlock _ contexts _ => ∀ name ∈ contexts, name ∉ g
  | .nextIteration _ contexts _ _ => contexts = g ∨ ∀ name ∈ contexts, name ∉ g
  | _ => True

theorem Call.Iterates.lawful {call : Call} (hcall : call.Iterates g w) : call.Lawful w := by
  cases call with
  | hived call => exact hcall
  | _ => trivial

theorem Db.StaysCalm.of_contexts_eq (heq : db'.contexts = db.contexts) : db.StaysCalm db' := by
  rw [Db.StaysCalm, Db.Related, heq]
  exact Db.StaysCalm.refl db

theorem Db.LoopInv.of_disjoint (inv : db.LoopInv g) (hmoves : db.MovesTogether contexts db')
    (hdisjoint : ∀ name ∈ contexts, name ∉ g) : db'.LoopInv g := by
  obtain ⟨move, hmoves⟩ := hmoves
  have hother : ∀ c c' : Context ℕ, Moved contexts move c c' ∧ True → c.name ∈ g → c' = c :=
    fun c c' hc hn ↦ hc.1.other fun hin ↦ hdisjoint _ hin hn
  refine inv.of_kept hmoves (fun _ _ hc ↦ hc.1.name) (fun c c' hc hn ↦ ?_)
    fun c c' hlead _ hc _ _ ↦ ?_
  · rw [hother c c' hc hn]
    exact .refl c
  · rw [hother c c' hc (Db.leadContext_name_mem hlead).2]

theorem insertBlocks_calm {nums : List ℕ} (hok : insertBlocks contexts nums db = .ok db') :
    db.StaysCalm db' := by
  refine forEach_calm (fun c c' hc ↦ ?_) hok
  obtain ⟨tables, -, hc⟩ := bind_eq_ok.mp hc
  cases hc
  exact ⟨rfl, ⟨rfl, le_rfl⟩, fun _ ↦ rfl⟩

theorem appCreateContext_loopInv {env : CallEnv} {name : ContextName} {isForking isAttached : Bool}
    {stages : Option (List ApplicationStage)} {tables : ℕ} (inv : db.LoopInv g)
    (hok : appCreateContext env name isForking isAttached stages tables db = .ok db') :
    db'.LoopInv g := by
  obtain ⟨-, rfl⟩ := appCreateContext_eq_ok hok
  rw [registerTable_iterate]
  set created : Context ℕ := { db.newContext env name isForking isAttached stages with
    tables := _ } with hcreated
  have hloop : created.loop = {} := rfl
  have hsize : sizeOfBatch g { db with contexts := db.contexts ++ [created] } =
      sizeOfBatch g db := by
    have hnone : ([created].filter (fun c ↦ decide (c.name ∈ g))).filterMap
        (fun c ↦ c.loop.currentStage) = [] := by
      by_cases hn : created.name ∈ g <;> simp [hn, hloop]
    unfold sizeOfBatch Db.group
    rw [List.filter_append, List.filterMap_append, hnone, List.append_nil]
  intro lead hlead
  rw [hsize]
  cases g with
  | nil => cases hlead
  | cons first g =>
    have hfind : (db.contexts.find? (fun c ↦ decide (c.name = first))).or
        ([created].find? (fun c ↦ decide (c.name = first))) = some lead := by
      rw [← List.find?_append]
      exact hlead
    cases hold : db.contexts.find? (fun c ↦ decide (c.name = first)) with
    | some c =>
      rw [hold, Option.some_or, Option.some.injEq] at hfind
      exact inv lead (hfind ▸ hold)
    | none =>
      rw [hold, Option.none_or] at hfind
      rw [List.mem_singleton.mp (List.mem_of_find?_eq_some hfind)]
      intro b hb
      rw [hloop] at hb
      cases hb

theorem autoDetachContext_calm {name : ContextName}
    (hnames : (db.contexts.map Context.name).Nodup) :
    db.StaysCalm (autoDetachContext name db) := by
  rw [autoDetachContext]
  split
  · exact .refl db
  case h_2 c hc =>
    split
    · exact .refl db
    case h_2 detached hok =>
      have hmem : c ∈ db.contexts := List.mem_of_find?_eq_some hc
      have hname : c.name = name := by simpa using List.find?_some hc
      have hdetached : db.Related (fun d d' ↦ d ∈ db.contexts ∧ d'.name = d.name ∧ Calm d d')
          detached := (appContextDetach_calm hok).imp fun _ hd _ hcalm ↦ ⟨hd, hcalm⟩
      have hrestored : detached.Related (fun d d' ↦ d' = if d.name ∈ [name] then
          (if d.stages.isNone then { d with currentBlockNum := c.currentBlockNum } else d) else d)
          (detached.updateContexts [name] (fun hc ↦
            if hc.stages.isNone then { hc with currentBlockNum := c.currentBlockNum } else hc)) :=
        List.forall₂_map_right_iff.mpr (List.forall₂_same.mpr fun _ _ ↦ rfl)
      refine Db.Related.comp (fun d d' d'' hd hd' ↦ ?_) hdetached hrestored
      obtain ⟨hin, hdname, hcalm⟩ := hd
      subst hd'
      split
      case isTrue hn =>
        obtain rfl : d = c := List.inj_on_of_nodup_map hnames hin hmem
          (hdname.symm.trans ((List.mem_singleton.mp hn).trans hname.symm))
        split
        · exact ⟨hdname, ⟨hcalm.loop, hcalm.irreversibleBlock⟩, fun _ ↦ rfl⟩
        · exact ⟨hdname, hcalm⟩
      case isFalse => exact ⟨hdname, hcalm⟩

theorem Db.StaysCalm.names_eq (hcalm : db.StaysCalm db') :
    db'.contexts.map Context.name = db.contexts.map Context.name := by
  unfold Db.StaysCalm Db.Related at hcalm
  generalize db.contexts = cs, db'.contexts = cs' at hcalm
  induction hcalm with
  | nil => rfl
  | cons hc _ ih => rw [List.map_cons, List.map_cons, hc.1, ih]

theorem performDeadAppContextsAutoDetach_calm {env : CallEnv} {timeout : ℕ}
    (hnames : (db.contexts.map Context.name).Nodup) :
    db.StaysCalm (performDeadAppContextsAutoDetach env timeout db) := by
  have hfold : ∀ (l : List ContextName) (db : Db ℕ), (db.contexts.map Context.name).Nodup →
      db.StaysCalm (l.foldl (fun db name ↦ autoDetachContext name db) db) := by
    intro l
    induction l with
    | nil => exact fun db _ ↦ .refl db
    | cons name l ih =>
      intro db hnames
      have hcalm : db.StaysCalm (autoDetachContext name db) := autoDetachContext_calm hnames
      exact hcalm.trans (ih _ (hcalm.names_eq ▸ hnames))
  rw [performDeadAppContextsAutoDetach]
  split
  · exact hfold _ db hnames
  · exact .refl db

theorem Db.LoopInv.step {stored : List (Reversible BlockData)} {lo : ℕ} (inv : w.db.LoopInv g)
    (hw : WorldInv w stored lo) {call : Call} (hcall : call.Iterates g w) :
    (w.step call).db.LoopInv g := by
  have happ : ∀ f : Db ℕ → Except Error (Db ℕ), (∀ db, f w.db = .ok db → db.LoopInv g) →
      (w.app f).db.LoopInv g := by
    intro f hf
    rw [World.app]
    split
    · exact inv
    · exact hf _ ‹_›
  cases call with
  | hived call =>
    rw [World.step, World.hived]
    split
    · exact inv
    · exact inv.of_calm (.of_contexts_eq (HivedCall.run_contexts ‹_›))
  | createContext env name isForking isAttached stages tables =>
    exact happ _ fun db ↦ appCreateContext_loopInv inv
  | nextBlock env contexts limit =>
    refine happ _ fun db hok ↦ ?_
    obtain ⟨⟨db₁, range⟩, h₁, hok⟩ := bind_eq_ok.mp hok
    have inv₁ := inv.of_disjoint (appNextBlock_steps h₁).1.together hcall
    cases range with
    | none =>
      cases hok
      exact inv₁
    | some r => exact inv₁.of_calm (insertBlocks_calm hok)
  | nextIteration env contexts overrideMaxBatch limit =>
    refine happ _ fun db hok ↦ ?_
    obtain ⟨⟨db₁, range⟩, h₁, hok⟩ := bind_eq_ok.mp hok
    have inv₁ : db₁.LoopInv g := by
      rcases hcall with rfl | hdisjoint
      · exact (appNextIteration_ranges hw.events.frame hw.storage hw.notPruned hw.appKept inv h₁).1
      · exact inv.of_disjoint (appNextIteration_together h₁).1 hdisjoint
    cases range with
    | none =>
      cases hok
      exact inv₁
    | some r => exact inv₁.of_calm (insertBlocks_calm hok)
  | attach env contexts =>
    exact happ _ fun db hok ↦ inv.of_calm (appContextAttach_calm hw.appKept.irr_le hok)
  | detach contexts => exact happ _ fun db hok ↦ inv.of_calm (appContextDetach_calm hok)
  | setNonForking env contexts => exact happ _ fun db hok ↦ inv.of_calm (appContextSetMode_calm hok)
  | setForking env contexts =>
    refine happ _ fun db hok ↦ inv.of_calm ?_
    rw [appContextSetForking] at hok
    split at hok
    · cases hok
    · exact appContextSetMode_calm hok
  | autoDetach env timeout =>
    refine happ _ fun db hok ↦ ?_
    cases hok
    exact inv.of_calm (performDeadAppContextsAutoDetach_calm hw.names)

instance (g : List ContextName) (w : World ℕ) (call : Call) : Decidable (call.Iterates g w) := by
  apply Call.casesOn (motive := fun call ↦ Decidable (call.Iterates g w)) call <;> intros <;>
    unfold Call.Iterates <;> infer_instance

end Runs

end HiveForkManager
