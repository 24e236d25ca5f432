import HiveForkManager.GroupFrame
import HiveForkManager.System

namespace HiveForkManager.StageSelection

open ExceptList

variable {ρ : Type}

/-- A value of `hafd.application_stage`, whose fields may be `NULL`. -/
structure StageRow where
  name : Option String
  minHeadBlockDistance : Option ℕ
  blocksLimitInGroup : Option BlocksCount
  processingAlarmThreshold : Option ℕ
  deriving DecidableEq, Repr

def stageRow (s : ApplicationStage) : StageRow :=
  ⟨some s.name, some s.minHeadBlockDistance, some s.blocksLimitInGroup,
    some s.processingAlarmThreshold⟩

def liveRow : StageRow := stageRow liveStage

/-- `FROM UNNEST( rows ) s1 JOIN UNNEST( rows ) s2 ON key( s1 ) = key( s2 )`, counted: `NULL` is
equal to nothing. -/
def selfJoinCount {α β : Type} [DecidableEq β] (key : α → Option β) (rows : List α) : ℕ :=
  (rows.flatMap (fun s₁ ↦
    rows.filter (fun s₂ ↦ (key s₁).isSome && decide (key s₁ = key s₂)))).length

def validateStages (stages : List StageRow) : Except Error Unit :=
  if selfJoinCount StageRow.name stages ≠ stages.length then
    .error (.raiseException "Name of stage repeats in stages array")
  else if selfJoinCount StageRow.minHeadBlockDistance stages ≠ stages.length then
    .error (.raiseException "Distance to head block repeats in stages array")
  else if (stages.filter (fun s ↦ decide (s = liveRow))).length = 0 then
    .error (.raiseException "No live stage in stages array")
  else .ok ()

def FitsInteger (n : ℤ) : Prop := -2147483648 ≤ n ∧ n ≤ 2147483647

instance (n : ℤ) : Decidable (FitsInteger n) := inferInstanceAs (Decidable (_ ∧ _))

def subtract (a : Option ℕ) (b : ℤ) : Except Error (Option ℤ) :=
  match a with
  | none => .ok none
  | some a =>
    if FitsInteger (a - b) then .ok (some (a - b))
    else .error (.raiseException "integer out of range")

/-- The stages of one context in `stages_and_distance`. -/
def stagesAndDistance (distance : ℤ) (stages : List StageRow) :
    Except Error (List (StageRow × Option ℤ)) :=
  stages.mapM (fun s ↦ do
    let distanceToStage ← subtract s.minHeadBlockDistance distance
    pure (s, distanceToStage))

/-- The join of `stages_and_distance` with `max_distance`, for one context. -/
def atMaxDistance (rows : List (StageRow × Option ℤ)) : List StageRow :=
  match ((rows.filterMap Prod.snd).filter (fun d ↦ decide (d ≤ 0))).max? with
  | none => []
  | some maxDistance => (rows.filter (fun r ↦ decide (r.2 = some maxDistance))).map Prod.fst

/-- `hive.get_current_stage`, with the column `stages` of `hafd.contexts` as `stagesOf`. The query
for reversible blocks does not end the function. -/
def getCurrentStage (stagesOf : ContextName → List StageRow) (env : CallEnv)
    (contexts : List ContextName) (db : Db ρ) : Except Error (List (StageRow × ContextName)) := do
  appCheckContextsSynchronized contexts db
  let live := if isAbsLivesync env contexts db then contexts.map (liveRow, ·) else []
  match distanceToHead env contexts db with
  | none => pure live
  | some distance => do
    let byDistance ← (db.group contexts).mapM (fun ctx ↦ do
      let rows ← stagesAndDistance distance (stagesOf ctx.name)
      pure ((atMaxDistance rows).map (·, ctx.name)))
    pure (live ++ byDistance.flatten)

section Validate

variable {α β : Type} [DecidableEq β] {key : α → Option β} {rows : List α}

def nulls (key : α → Option β) (rows : List α) : ℕ := (rows.map key).count none

/-- The ordered pairs of two different rows with the same key. -/
def repeats (key : α → Option β) (rows : List α) : ℕ :=
  (rows.map (fun s ↦ if (key s).isSome then (rows.map key).count (key s) - 1 else 0)).sum

theorem selfJoinCount_eq : selfJoinCount key rows =
    (rows.map (fun s ↦ if (key s).isSome then (rows.map key).count (key s) else 0)).sum := by
  rw [selfJoinCount, List.length_flatMap]
  refine congrArg List.sum (List.map_congr_left fun s _ ↦ ?_)
  cases hs : key s with
  | none => simp
  | some k =>
    rw [if_pos Option.isSome_some, List.count, List.countP_map, List.countP_eq_length_filter]
    congr 2
    funext b
    rw [Bool.eq_iff_iff]
    simp [eq_comm (a := some k)]

theorem selfJoinCount_add_nulls :
    selfJoinCount key rows + nulls key rows = rows.length + repeats key rows := by
  have hnulls : nulls key rows = (rows.map (fun s ↦ if (key s).isSome then 0 else 1)).sum := by
    rw [nulls]
    induction rows with
    | nil => rfl
    | cons s rows ih => cases hs : key s <;> simp [hs, ih, Nat.add_comm]
  have hlength : rows.length = (rows.map (fun _ ↦ 1)).sum := by simp
  rw [selfJoinCount_eq, hnulls, hlength, repeats, ← List.sum_map_add, ← List.sum_map_add]
  refine congrArg List.sum (List.map_congr_left fun s hs ↦ ?_)
  have hone : 1 ≤ (rows.map key).count (key s) :=
    List.one_le_count_iff.mpr (List.mem_map_of_mem hs)
  split <;> omega

theorem selfJoinCount_eq_length_iff :
    selfJoinCount key rows = rows.length ↔ nulls key rows = repeats key rows := by
  have hcount : selfJoinCount key rows + nulls key rows = rows.length + repeats key rows :=
    selfJoinCount_add_nulls
  omega

theorem distinct_iff : none ∉ rows.map key ∧ (rows.map key).Nodup ↔
    nulls key rows = 0 ∧ repeats key rows = 0 := by
  rw [nulls, List.count_eq_zero]
  refine and_congr_right fun hnone ↦ ?_
  have hsome : ∀ s ∈ rows, (key s).isSome := fun s hs ↦
    Option.isSome_iff_ne_none.mpr fun h ↦ hnone (h ▸ List.mem_map_of_mem hs)
  rw [repeats, List.sum_eq_zero_iff, List.forall_mem_map, List.nodup_iff_count_eq_one,
    List.forall_mem_map]
  refine forall₂_congr fun s hs ↦ ?_
  have hone : 1 ≤ (rows.map key).count (key s) :=
    List.one_le_count_iff.mpr (List.mem_map_of_mem hs)
  rw [if_pos (hsome s hs)]
  omega

structure Accepted (stages : List StageRow) : Prop where
  names : none ∉ stages.map StageRow.name ∧ (stages.map StageRow.name).Nodup
  distances : none ∉ stages.map StageRow.minHeadBlockDistance ∧
    (stages.map StageRow.minHeadBlockDistance).Nodup
  live : liveRow ∈ stages

/-- `NULL` names or distances stand in for repeated ones: there are as many as pairs that repeat. -/
structure HidesRepeats (stages : List StageRow) : Prop where
  names : nulls StageRow.name stages = repeats StageRow.name stages
  distances : nulls StageRow.minHeadBlockDistance stages =
    repeats StageRow.minHeadBlockDistance stages
  live : liveRow ∈ stages
  null : none ∈ stages.map StageRow.name ∨ none ∈ stages.map StageRow.minHeadBlockDistance

theorem validateStages_eq_ok_iff {stages : List StageRow} :
    validateStages stages = .ok () ↔ nulls StageRow.name stages = repeats StageRow.name stages ∧
      nulls StageRow.minHeadBlockDistance stages =
        repeats StageRow.minHeadBlockDistance stages ∧ liveRow ∈ stages := by
  have hlive : (stages.filter (fun s ↦ decide (s = liveRow))).length = 0 ↔ liveRow ∉ stages := by
    rw [List.length_eq_zero_iff, List.filter_eq_nil_iff]
    simp only [decide_eq_true_eq]
    exact ⟨fun h hmem ↦ h _ hmem rfl, fun h s hs heq ↦ h (heq ▸ hs)⟩
  simp only [validateStages, ne_eq, selfJoinCount_eq_length_iff, hlive]
  split
  · exact iff_of_false (fun h ↦ by cases h) fun h ↦ absurd h.1 ‹_›
  split
  · exact iff_of_false (fun h ↦ by cases h) fun h ↦ absurd h.2.1 ‹_›
  split
  · exact iff_of_false (fun h ↦ by cases h) fun h ↦ absurd h.2.2 ‹_›
  case isFalse hnames hdistances hlive =>
    exact ⟨fun _ ↦ ⟨not_not.mp hnames, not_not.mp hdistances, not_not.mp hlive⟩, fun _ ↦ rfl⟩

theorem accepted_iff {stages : List StageRow} : Accepted stages ↔
    validateStages stages = .ok () ∧ none ∉ stages.map StageRow.name ∧
      none ∉ stages.map StageRow.minHeadBlockDistance := by
  have hnames := @distinct_iff _ _ _ StageRow.name stages
  have hdistances := @distinct_iff _ _ _ StageRow.minHeadBlockDistance stages
  rw [validateStages_eq_ok_iff]
  constructor
  · intro h
    have hn := hnames.mp h.names
    have hd := hdistances.mp h.distances
    exact ⟨⟨hn.1.trans hn.2.symm, hd.1.trans hd.2.symm, h.live⟩, h.names.1, h.distances.1⟩
  · rintro ⟨⟨hn, hd, hlive⟩, hnone, hnone'⟩
    have hn' : nulls StageRow.name stages = 0 := List.count_eq_zero.mpr hnone
    have hd' : nulls StageRow.minHeadBlockDistance stages = 0 := List.count_eq_zero.mpr hnone'
    exact ⟨hnames.mpr ⟨hn', hn ▸ hn'⟩, hdistances.mpr ⟨hd', hd ▸ hd'⟩, hlive⟩

theorem validateStages_exact_iff {stages : List StageRow} :
    (validateStages stages = .ok () ↔ Accepted stages) ↔ ¬ HidesRepeats stages := by
  have hhides : HidesRepeats stages ↔ validateStages stages = .ok () ∧
      (none ∈ stages.map StageRow.name ∨ none ∈ stages.map StageRow.minHeadBlockDistance) := by
    rw [validateStages_eq_ok_iff]
    exact ⟨fun h ↦ ⟨⟨h.names, h.distances, h.live⟩, h.null⟩,
      fun h ↦ ⟨h.1.1, h.1.2.1, h.1.2.2, h.2⟩⟩
  rw [accepted_iff, hhides]
  tauto

end Validate

section Selection

variable {distance : ℤ} {stages : List StageRow} {s s' : StageRow}

structure Greatest (distance : ℤ) (stages : List StageRow) (s : StageRow) : Prop where
  mem : s ∈ stages
  reached : ∃ n ∈ s.minHeadBlockDistance, (n : ℤ) ≤ distance ∧
    ∀ s' ∈ stages, ∀ n' ∈ s'.minHeadBlockDistance, (n' : ℤ) ≤ distance → n' ≤ n

def IsStageAt (distance : ℤ) (stages : List StageRow) (s : StageRow) : Prop :=
  if distance ≤ 0 then s = liveRow else Greatest distance stages s

def Fits (distance : ℤ) (stages : List StageRow) : Prop :=
  ∀ s ∈ stages, ∀ n ∈ s.minHeadBlockDistance, FitsInteger (n - distance)

theorem subtract_eq (hfits : ∀ n ∈ s.minHeadBlockDistance, FitsInteger (n - distance)) :
    subtract s.minHeadBlockDistance distance =
      .ok (s.minHeadBlockDistance.map (fun n : ℕ ↦ (n : ℤ) - distance)) := by
  cases hs : s.minHeadBlockDistance with
  | none => rfl
  | some n => exact if_pos (hfits n hs)

theorem stagesAndDistance_eq (hfits : Fits distance stages) :
    stagesAndDistance distance stages =
      .ok (stages.map (fun s ↦
        (s, s.minHeadBlockDistance.map (fun n : ℕ ↦ (n : ℤ) - distance)))) := by
  apply mapM_ok
  intro s hs
  rw [subtract_eq (hfits s hs)]
  rfl

theorem fits_of_stagesAndDistance {rows : List (StageRow × Option ℤ)}
    (h : stagesAndDistance distance stages = .ok rows) : Fits distance stages := by
  intro s hs n hn
  obtain ⟨row, hrow⟩ := exists_ok_of_mem h hs
  obtain ⟨d, hd, -⟩ := bind_eq_ok.mp hrow
  by_contra hfits
  rw [Option.mem_def.mp hn, subtract, if_neg hfits] at hd
  cases hd

theorem mem_atMaxDistance : s ∈ atMaxDistance (stages.map (fun s ↦
    (s, s.minHeadBlockDistance.map (fun n : ℕ ↦ (n : ℤ) - distance)))) ↔
      Greatest distance stages s := by
  have hreached : ∀ d : ℤ, d ∈ ((stages.map (fun s ↦
      (s, s.minHeadBlockDistance.map (fun n : ℕ ↦ (n : ℤ) - distance)))).filterMap Prod.snd).filter
        (fun d ↦ decide (d ≤ 0)) ↔
      ∃ s ∈ stages, ∃ n ∈ s.minHeadBlockDistance, (n : ℤ) ≤ distance ∧ d = n - distance := by
    intro d
    simp only [List.mem_filter, List.mem_filterMap, List.mem_map, exists_exists_and_eq_and,
      Option.map_eq_some_iff, decide_eq_true_eq]
    constructor
    · rintro ⟨⟨s, hs, n, hn, rfl⟩, hd⟩
      exact ⟨s, hs, n, hn, by omega, rfl⟩
    · rintro ⟨s, hs, n, hn, hle, rfl⟩
      exact ⟨⟨s, hs, n, hn, rfl⟩, by omega⟩
  rw [atMaxDistance]
  split
  case h_1 hnone =>
    rw [List.max?_eq_none_iff] at hnone
    refine iff_of_false List.not_mem_nil ?_
    rintro ⟨hs, n, hn, hle, -⟩
    have hmem := (hreached _).mpr ⟨s, hs, n, hn, hle, rfl⟩
    rw [hnone] at hmem
    cases hmem
  case h_2 maxDistance hmax =>
    obtain ⟨hmem, hle⟩ := List.max?_eq_some_iff.mp hmax
    obtain ⟨sₘ, hsₘ, m, hm, hmd, rfl⟩ := (hreached _).mp hmem
    have hge : ∀ s' ∈ stages, ∀ n' ∈ s'.minHeadBlockDistance, (n' : ℤ) ≤ distance → n' ≤ m := by
      intro s' hs' n' hn' hle'
      have := hle _ ((hreached _).mpr ⟨s', hs', n', hn', hle', rfl⟩)
      omega
    simp only [List.mem_map, List.mem_filter, decide_eq_true_eq, Prod.exists, Prod.mk.injEq]
    constructor
    · rintro ⟨_, _, ⟨⟨s, hs, rfl, rfl⟩, heq⟩, rfl⟩
      obtain ⟨n, hn, heq⟩ := Option.map_eq_some_iff.mp heq
      exact ⟨hs, n, hn, by omega, fun s' hs' n' hn' hle' ↦ by
        have := hge s' hs' n' hn' hle'
        omega⟩
    · rintro ⟨hs, n, hn, hnd, hall⟩
      have hnm : n = m := le_antisymm (hge s hs n hn hnd) (hall sₘ hsₘ m hm hmd)
      subst hnm
      refine ⟨s, _, ⟨⟨s, hs, rfl, rfl⟩, ?_⟩, rfl⟩
      rw [Option.mem_def.mp hn]
      rfl

theorem exists_greatest (hlive : liveRow ∈ stages) (hd : 0 ≤ distance) :
    ∃ s, Greatest distance stages s := by
  let reached := stages.filter (fun s ↦
    s.minHeadBlockDistance.any (fun n : ℕ ↦ decide ((n : ℤ) ≤ distance)))
  have hmem : liveRow ∈ reached := List.mem_filter.mpr ⟨hlive, decide_eq_true hd⟩
  obtain ⟨s, hs⟩ := Option.ne_none_iff_exists'.mp
    (mt List.argmax_eq_none.mp (List.ne_nil_of_mem hmem) :
      reached.argmax (fun s ↦ s.minHeadBlockDistance.getD 0) ≠ none)
  obtain ⟨hs', hany⟩ := List.mem_filter.mp (List.argmax_mem hs)
  obtain ⟨n, hn, hle⟩ := (Option.any_eq_true _ _).mp hany
  refine ⟨s, hs', n, hn, of_decide_eq_true hle, fun s' hs' n' hn' hle' ↦ ?_⟩
  have hge := List.le_of_mem_argmax (List.mem_filter.mpr
    ⟨hs', (Option.any_eq_true _ _).mpr ⟨n', hn', decide_eq_true hle'⟩⟩) hs
  rwa [Option.mem_def.mp hn, Option.mem_def.mp hn'] at hge

theorem greatest_liveRow (hlive : liveRow ∈ stages) : Greatest 0 stages liveRow :=
  ⟨hlive, 0, rfl, le_rfl, fun _ _ _ _ h ↦ Int.ofNat_le.mp h⟩

theorem Greatest.nonneg (h : Greatest distance stages s) : 0 ≤ distance := by
  obtain ⟨n, -, hn, -⟩ := h.reached
  omega

end Selection

section Group

variable {stagesOf : ContextName → List StageRow} {env : CallEnv} {contexts : List ContextName}
variable {db : Db ρ} {distance : ℤ}

def Declared (stagesOf : ContextName → List StageRow) (contexts : List ContextName) (db : Db ρ) :
    Prop :=
  ∀ name ∈ contexts, validateStages (stagesOf name) = .ok () ∧ ∃ c ∈ db.contexts, c.name = name

theorem Declared.exists_leadContext (hdeclared : Declared stagesOf contexts db)
    (hsync : appCheckContextsSynchronized contexts db = .ok ()) :
    ∃ lead, db.leadContext contexts = some lead := by
  obtain ⟨c, hc, hname⟩ := (appCheckContextsSynchronized_eq_ok_iff.mp hsync).1
  cases contexts with
  | nil => exact absurd hname List.not_mem_nil
  | cons name contexts =>
    obtain ⟨-, c', hc', hname'⟩ := hdeclared name List.mem_cons_self
    rw [← Option.isSome_iff_exists, Db.leadContext, List.head?_cons, Option.bind_some, Db.context?,
      List.find?_isSome]
    exact ⟨c', hc', decide_eq_true hname'⟩

/-- Exactly one stage for every context of the group, and the right one. -/
def Selects (stagesOf : ContextName → List StageRow) (contexts : List ContextName) (distance : ℤ)
    (rows : List (StageRow × ContextName)) : Prop :=
  (∀ row ∈ rows, row.2 ∈ contexts) ∧
    ∀ name ∈ contexts, ∃ s, (s, name) ∈ rows ∧ IsStageAt distance (stagesOf name) s ∧
      ∀ s', (s', name) ∈ rows → s' = s

/-- What lets one context have one stage: no distance to a stage overflows, and no two different
stages share the greatest minimal distance that is reached. -/
structure Selectable (distance : ℤ) (stages : List StageRow) : Prop where
  fits : Fits distance stages
  unique : ∀ s s', Greatest distance stages s → Greatest distance stages s' → s = s'

def rowsAt (distance : ℤ) (stages : List StageRow) : List StageRow :=
  atMaxDistance (stages.map (fun s ↦
    (s, s.minHeadBlockDistance.map (fun n : ℕ ↦ (n : ℤ) - distance))))

theorem fits_of_getCurrentStage (hdistance : distanceToHead env contexts db = some distance)
    {rows : List (StageRow × ContextName)}
    (h : getCurrentStage stagesOf env contexts db = .ok rows) {c : Context ρ}
    (hc : c ∈ db.group contexts) : Fits distance (stagesOf c.name) := by
  rw [getCurrentStage, hdistance] at h
  obtain ⟨_, -, h⟩ := bind_eq_ok.mp h
  obtain ⟨_, hmap, -⟩ := bind_eq_ok.mp h
  obtain ⟨_, hrows⟩ := exists_ok_of_mem hmap hc
  obtain ⟨_, hrows, -⟩ := bind_eq_ok.mp hrows
  exact fits_of_stagesAndDistance hrows

theorem getCurrentStage_eq (hsync : appCheckContextsSynchronized contexts db = .ok ())
    (hdistance : distanceToHead env contexts db = some distance)
    (hfits : ∀ c ∈ db.group contexts, Fits distance (stagesOf c.name)) :
    getCurrentStage stagesOf env contexts db =
      .ok ((if distance ≤ 0 then contexts.map (liveRow, ·) else []) ++
        (db.group contexts).flatMap
          (fun c ↦ (rowsAt distance (stagesOf c.name)).map (·, c.name))) := by
  have hlivesync : isAbsLivesync env contexts db = decide (distance ≤ 0) := by
    rw [isAbsLivesync, hdistance]
    rfl
  have hgroup : (db.group contexts).mapM (fun ctx ↦ do
      let rows ← stagesAndDistance distance (stagesOf ctx.name)
      pure ((atMaxDistance rows).map (·, ctx.name))) =
      (.ok ((db.group contexts).map (fun c ↦
        (rowsAt distance (stagesOf c.name)).map (·, c.name))) : Except Error _) := by
    apply mapM_ok
    intro c hc
    rw [stagesAndDistance_eq (hfits c hc)]
    rfl
  rw [getCurrentStage, hsync, ok_bind, hdistance, hlivesync]
  simp only [hgroup, ok_bind, List.flatMap_def, decide_eq_true_eq]
  rfl

theorem mem_selected {name : ContextName} (hname : name ∈ contexts)
    (hexists : ∃ c ∈ db.contexts, c.name = name) {s : StageRow} :
    (s, name) ∈ (if distance ≤ 0 then contexts.map (liveRow, ·) else []) ++
        (db.group contexts).flatMap (fun c ↦
          (rowsAt distance (stagesOf c.name)).map (·, c.name)) ↔
      distance ≤ 0 ∧ s = liveRow ∨ Greatest distance (stagesOf name) s := by
  rw [List.mem_append]
  refine or_congr ?_ ?_
  · split
    case isTrue hd =>
      simp only [List.mem_map, Prod.mk.injEq, hd, true_and]
      exact ⟨fun ⟨_, _, h, _⟩ ↦ h.symm, fun h ↦ ⟨name, hname, h.symm, rfl⟩⟩
    case isFalse hd => simp [hd]
  · rw [← mem_atMaxDistance, List.mem_flatMap]
    constructor
    · rintro ⟨c, -, hrow⟩
      obtain ⟨s', hs', heq⟩ := List.mem_map.mp hrow
      obtain ⟨rfl, rfl⟩ := Prod.mk.inj heq
      exact hs'
    · intro hs
      obtain ⟨c, hc, rfl⟩ := hexists
      exact ⟨c, List.mem_filter.mpr ⟨hc, decide_eq_true hname⟩, List.mem_map.mpr ⟨s, hs, rfl⟩⟩

theorem exists_selected_iff {stages : List StageRow} (hlive : liveRow ∈ stages) :
    (∃ s, (distance ≤ 0 ∧ s = liveRow ∨ Greatest distance stages s) ∧ IsStageAt distance stages s ∧
      ∀ s', distance ≤ 0 ∧ s' = liveRow ∨ Greatest distance stages s' → s' = s) ↔
      ∀ s s', Greatest distance stages s → Greatest distance stages s' → s = s' := by
  constructor
  · rintro ⟨s, -, -, hall⟩ s₁ s₂ h₁ h₂
    exact (hall s₁ (.inr h₁)).trans (hall s₂ (.inr h₂)).symm
  · intro hunique
    by_cases hd : distance ≤ 0
    · refine ⟨liveRow, .inl ⟨hd, rfl⟩, by rw [IsStageAt, if_pos hd], ?_⟩
      rintro s (⟨-, rfl⟩ | hs)
      · rfl
      · obtain rfl : distance = 0 := le_antisymm hd hs.nonneg
        exact hunique s liveRow hs (greatest_liveRow hlive)
    · obtain ⟨s, hs⟩ := exists_greatest hlive (not_le.mp hd).le
      refine ⟨s, .inr hs, by rwa [IsStageAt, if_neg hd], ?_⟩
      rintro s' (⟨hd', -⟩ | hs')
      · exact absurd hd' hd
      · exact hunique s' s hs' hs

/-- The check of stages is exact unless `NULL` fields stand in for repetitions. A synchronized group
with accepted stages has one stage for every context exactly when no distance to a stage overflows
and no two different stages share the greatest distance reached. -/
theorem stage_selection_total_unique
    (hsync : appCheckContextsSynchronized contexts db = .ok ())
    (hdeclared : Declared stagesOf contexts db) :
    (∀ stages, (validateStages stages = .ok () ↔ Accepted stages) ↔ ¬ HidesRepeats stages) ∧
    ∃ distance, distanceToHead env contexts db = some distance ∧
      ((∃ rows, getCurrentStage stagesOf env contexts db = .ok rows ∧
          Selects stagesOf contexts distance rows) ↔
        ∀ name ∈ contexts, Selectable distance (stagesOf name)) := by
  refine ⟨fun _ ↦ validateStages_exact_iff, ?_⟩
  obtain ⟨lead, hlead⟩ := hdeclared.exists_leadContext hsync
  obtain ⟨distance, hdistance⟩ : ∃ d, distanceToHead env contexts db = some d := by
    rw [distanceToHead, hlead]
    exact ⟨_, rfl⟩
  refine ⟨distance, hdistance, ?_⟩
  have hlive : ∀ name ∈ contexts, liveRow ∈ stagesOf name := fun name hname ↦
    (validateStages_eq_ok_iff.mp (hdeclared name hname).1).2.2
  constructor
  · rintro ⟨rows, hok, -, hone⟩ name hname
    have hfits : ∀ c ∈ db.group contexts, Fits distance (stagesOf c.name) := fun c hc ↦
      fits_of_getCurrentStage hdistance hok hc
    obtain rfl := Except.ok.inj ((getCurrentStage_eq hsync hdistance hfits).symm.trans hok)
    obtain ⟨-, c, hc, rfl⟩ := hdeclared name hname
    refine ⟨hfits c (List.mem_filter.mpr ⟨hc, decide_eq_true hname⟩), ?_⟩
    have := hone c.name hname
    simp only [mem_selected hname ⟨c, hc, rfl⟩] at this
    exact (exists_selected_iff (hlive _ hname)).mp this
  · intro hselectable
    have hfits : ∀ c ∈ db.group contexts, Fits distance (stagesOf c.name) := fun c hc ↦
      (hselectable c.name (of_decide_eq_true (List.mem_filter.mp hc).2)).fits
    refine ⟨_, getCurrentStage_eq hsync hdistance hfits, ?_, fun name hname ↦ ?_⟩
    · intro row hrow
      rcases List.mem_append.mp hrow with hrow | hrow
      · split at hrow
        · obtain ⟨name, hname, rfl⟩ := List.mem_map.mp hrow
          exact hname
        · cases hrow
      · obtain ⟨c, hc, hrow⟩ := List.mem_flatMap.mp hrow
        obtain ⟨s, -, rfl⟩ := List.mem_map.mp hrow
        exact of_decide_eq_true (List.mem_filter.mp hc).2
    · simp only [mem_selected hname (hdeclared name hname).2]
      exact (exists_selected_iff (hlive _ hname)).mpr (hselectable name hname).unique

def oneContext (currentBlockNum : ℕ) : Db ℕ :=
  { Hafd.initial with
    hiveState := { consistentBlock := some 10, state := .live }
    contexts := [⟨"a", currentBlockNum, 10, 0, 1, true, true, 0, none, {}, []⟩] }

theorem defaultStages_selected :
    let stages := defaultStages.map stageRow
    (validateStages stages = .ok () ↔ Accepted stages) ∧
      ∃ rows, getCurrentStage (fun _ ↦ stages) (.ready 0) ["a"] (oneContext 4) = .ok rows ∧
        Selects (fun _ ↦ stages) ["a"] 6 rows := by
  have hvalid : validateStages (defaultStages.map stageRow) = .ok () := by decide
  have hdeclared : Declared (fun _ ↦ defaultStages.map stageRow) ["a"] (oneContext 4) :=
    fun name hname ↦ ⟨hvalid, _, List.mem_cons_self, (List.mem_singleton.mp hname).symm⟩
  obtain ⟨hvalidate, distance, hdistance, hselect⟩ :=
    @stage_selection_total_unique _ _ (.ready 0) _ _ (by decide) hdeclared
  obtain rfl : distance = 6 := Option.some.inj (hdistance.symm.trans (by decide))
  refine ⟨(hvalidate _).mpr fun h ↦ ?_, hselect.mpr fun name _ ↦ ⟨?_, ?_⟩⟩
  · exact absurd h.null (by decide)
  · unfold Fits
    decide
  · have hlive : ∀ s, Greatest 6 (defaultStages.map stageRow) s → s = liveRow := by
      rintro s ⟨hs, n, hn, hle, -⟩
      rcases List.mem_cons.mp hs with rfl | hs
      · cases hn
        exact absurd hle (by decide)
      · exact List.mem_singleton.mp hs
    intro s s' hs hs'
    exact (hlive s hs).trans (hlive s' hs').symm

/-- A context one block above the irreversible one, with a stage at the largest distance that the
type of distances allows: the distance to the stage overflows. And a repeated distance beside two
that are `NULL`, which gives two stages at once. -/
theorem far_stage_overflows :
    let far : List StageRow := [stageRow ⟨"far", 2147483647, ⟨1000, by decide⟩, 5⟩, liveRow]
    let b := stageRow ⟨"b", 5, ⟨10, by decide⟩, 5⟩
    let c := stageRow ⟨"c", 5, ⟨20, by decide⟩, 5⟩
    let hidden : List StageRow := [b, c, { b with name := some "d", minHeadBlockDistance := none },
      { b with name := some "e", minHeadBlockDistance := none }, liveRow]
    (validateStages far = .ok () ∧
        appCheckContextsSynchronized ["a"] (oneContext 11) = .ok () ∧
        distanceToHead (.ready 0) ["a"] (oneContext 11) = some (-1) ∧
        getCurrentStage (fun _ ↦ far) (.ready 0) ["a"] (oneContext 11) =
          .error (.raiseException "integer out of range")) ∧
      validateStages hidden = .ok () ∧
        appCheckContextsSynchronized ["a"] (oneContext 4) = .ok () ∧
        getCurrentStage (fun _ ↦ hidden) (.ready 0) ["a"] (oneContext 4) =
          .ok [(b, "a"), (c, "a")] := by
  decide

end Group

end HiveForkManager.StageSelection
