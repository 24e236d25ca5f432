import HiveForkManager.Rendezvous

namespace HiveForkManager

namespace MassiveSync

variable {n : ℕ} {batches : List ℕ}

def reports (s : MassiveSync n) (b : ℕ) : ℕ :=
  (Finset.univ.filter fun i ↦ b ∈ (s.workers i).reported).card

def HeldBy (s : MassiveSync n) (b : ℕ) (i : Fin n) : Prop :=
  ((s.workers i).activity = .triggering b ∨ (s.workers i).activity = .stopped) ∧
    (s.workers i).reported.getLast? = some b

structure Inv (batches : List ℕ) (s : MassiveSync n) : Prop where
  inOrder : ∀ i, (s.workers i).InOrder batches
  counts : n ≠ 1 → ∀ b, s.completedThreads b = if s.reports b = n then 0 else s.reports b
  complete : 0 < n → ∀ b, (∀ i, b ∈ (s.workers i).reported) → b ∈ s.fired ∨ ∃ i, s.HeldBy b i
  triggering : ∀ i b, (s.workers i).activity = .triggering b →
    b ∉ s.fired ∧ ∀ j, b ∈ (s.workers j).reported
  unique : ∀ i j b, (s.workers i).activity = .triggering b →
    (s.workers j).activity = .triggering b → i = j
  fired : s.fired <+: batches
  reported : ∀ b ∈ s.fired, ∀ i, b ∈ (s.workers i).reported
  ended : (s.ended ++ s.endQueue).Sublist s.fired

theorem reports_eq_iff (s : MassiveSync n) (b : ℕ) :
    s.reports b = n ↔ ∀ i, b ∈ (s.workers i).reported := by
  have := Finset.card_filter_eq_iff (s := (Finset.univ : Finset (Fin n)))
    (p := fun i ↦ b ∈ (s.workers i).reported)
  rw [Finset.card_fin] at this
  simpa [reports] using this

theorem reports_le (s : MassiveSync n) (b : ℕ) : s.reports b ≤ n :=
  (Finset.card_filter_le _ _).trans (Finset.card_fin n).le

variable {i : Fin n} {b : ℕ} {s : MassiveSync n}

theorem reports_setWorker (s : MassiveSync n) {w : Worker}
    (hreported : w.reported = (s.workers i).reported ++ [b]) (hnew : b ∉ (s.workers i).reported)
    (b' : ℕ) : (s.setWorker i w).reports b' = s.reports b' + if b' = b then 1 else 0 := by
  have hmem : ∀ j, b' ∈ ((s.setWorker i w).workers j).reported ↔
      b' ∈ (s.workers j).reported ∨ j = i ∧ b' = b := by
    intro j
    by_cases hj : j = i
    · subst hj
      simp [setWorker, hreported]
    · simp [setWorker, hj]
  unfold reports
  simp only [hmem]
  split
  case isTrue hb =>
    subst hb
    have hinsert : (Finset.univ.filter fun j ↦ b' ∈ (s.workers j).reported ∨ j = i ∧ b' = b') =
        insert i (Finset.univ.filter fun j ↦ b' ∈ (s.workers j).reported) := by
      ext j
      simp [or_comm]
    rw [hinsert, Finset.card_insert_of_notMem (by simpa using hnew)]
  case isFalse hb => simp [hb]

theorem reports_congr {s' : MassiveSync n}
    (h : ∀ j, (s'.workers j).reported = (s.workers j).reported) (b : ℕ) :
    s'.reports b = s.reports b := by
  simp only [reports, h]

theorem Inv.setWorker (h : s.Inv batches) {w : Worker}
    (hw : w.InOrder batches) (hreported : w.reported = (s.workers i).reported)
    (hheld : ∀ b, (s.workers i).activity = .triggering b ∨ (s.workers i).activity = .stopped →
      w.activity = .triggering b ∨ w.activity = .stopped)
    (htrig : ∀ b, w.activity = .triggering b → (s.workers i).activity = .triggering b) :
    (s.setWorker i w).Inv batches := by
  have hrep : ∀ j, ((s.setWorker i w).workers j).reported = (s.workers j).reported := fun j ↦ by
    by_cases hj : j = i
    · subst hj
      simp [MassiveSync.setWorker, hreported]
    · simp [MassiveSync.setWorker, Function.update_of_ne hj]
  have htrig' : ∀ j b, ((s.setWorker i w).workers j).activity = .triggering b →
      (s.workers j).activity = .triggering b := fun j b hj ↦ by
    by_cases hji : j = i
    · subst hji
      exact htrig b (by simpa [MassiveSync.setWorker] using hj)
    · simpa [MassiveSync.setWorker, Function.update_of_ne hji] using hj
  refine ⟨fun j ↦ ?_, fun hn b ↦ ?_, fun hpos b hb ↦ ?_, fun j b hj ↦ ?_, fun j k b hj hk ↦
    h.unique j k b (htrig' j b hj) (htrig' k b hk), h.fired, fun b hb j ↦ ?_, h.ended⟩
  · by_cases hj : j = i
    · subst hj
      simpa [MassiveSync.setWorker] using hw
    · simpa [MassiveSync.setWorker, Function.update_of_ne hj] using h.inOrder j
  · rw [reports_congr hrep]
    exact h.counts hn b
  · refine (h.complete hpos b fun j ↦ hrep j ▸ hb j).imp_right ?_
    rintro ⟨j, hact, hlast⟩
    refine ⟨j, ?_, by rw [hrep]; exact hlast⟩
    by_cases hj : j = i
    · subst hj
      simpa [MassiveSync.setWorker] using hheld b hact
    · simpa [MassiveSync.setWorker, Function.update_of_ne hj] using hact
  · obtain ⟨hnot, hall⟩ := h.triggering j b (htrig' j b hj)
    exact ⟨hnot, fun k ↦ by rw [hrep]; exact hall k⟩
  · rw [hrep]
    exact h.reported b hb j

theorem Inv.reportedBatch (hnodup : batches.Nodup) (h : s.Inv batches)
    (hwritten : (s.workers i).activity = .written b)
    {activity : WorkerActivity} {counts : ℕ → ℕ} (hhand : activity.inHand = [])
    (hw : ∀ b', activity ≠ .written b') (htrig : ∀ b', activity = .triggering b' → b' = b)
    (hlast : activity = .triggering b ↔ s.reports b + 1 = n)
    (hcounts : n ≠ 1 → ∀ b', counts b' =
      if b' = b then (if s.reports b + 1 = n then 0 else s.reports b + 1)
      else s.completedThreads b') :
    Inv batches { s.setWorker i { s.workers i with
      activity := activity, reported := (s.workers i).reported ++ [b] } with
      completedThreads := counts } := by
  have hnew := (h.inOrder i).not_mem_reported hnodup hwritten
  have hfired : b ∉ s.fired := fun hb ↦ hnew (h.reported b hb i)
  set w : Worker := { s.workers i with
    activity := activity, reported := (s.workers i).reported ++ [b] } with hwdef
  have hsame : (s.setWorker i w).workers i = w := Function.update_self _ _ _
  have hother : ∀ j, j ≠ i → (s.setWorker i w).workers j = s.workers j := fun j hj ↦
    Function.update_of_ne hj _ _
  have hreports := reports_setWorker s (i := i) (w := w) rfl hnew
  have hsub : ∀ j b', b' ∈ (s.workers j).reported →
      b' ∈ ((s.setWorker i w).workers j).reported := by
    intro j b' hb'
    by_cases hj : j = i
    · subst hj
      rw [hsame]
      exact List.mem_append_left _ hb'
    · rwa [hother j hj]
  have halone : ∀ j, (s.workers j).activity ≠ .triggering b := fun j hj ↦
    hnew ((h.triggering j b hj).2 i)
  have honly : ∀ j b', ((s.setWorker i w).workers j).activity = .triggering b' →
      j = i ∧ b' = b ∨ j ≠ i ∧ b' ≠ b ∧ (s.workers j).activity = .triggering b' := by
    intro j b' hj
    by_cases hji : j = i
    · subst hji
      rw [hsame] at hj
      exact Or.inl ⟨rfl, htrig b' hj⟩
    · rw [hother j hji] at hj
      exact Or.inr ⟨hji, fun hb ↦ halone j (hb ▸ hj), hj⟩
  refine ⟨fun j ↦ ?_, fun hn b' ↦ ?_, fun hpos b' hb' ↦ ?_, fun j b' hj ↦ ?_,
    fun j k b' hj hk ↦ ?_, h.fired, fun b' hb' j ↦ hsub j b' (h.reported b' hb' j), h.ended⟩
  · by_cases hj : j = i
    · subst hj
      change ((s.setWorker j w).workers j).InOrder batches
      rw [hsame]
      exact (h.inOrder j).reportedBatch hwritten hhand htrig hw
    · change ((s.setWorker i w).workers j).InOrder batches
      rw [hother j hj]
      exact h.inOrder j
  · change counts b' = if (s.setWorker i w).reports b' = n then 0 else (s.setWorker i w).reports b'
    rw [hcounts hn, hreports]
    split
    · subst_vars
      rfl
    · rw [Nat.add_zero]
      exact h.counts hn b'
  · have hall := (reports_eq_iff (s.setWorker i w) b').2 hb'
    rw [hreports] at hall
    by_cases hbb : b' = b
    · subst hbb
      rw [if_pos rfl] at hall
      refine Or.inr ⟨i, ?_⟩
      unfold HeldBy
      change (((s.setWorker i w).workers i).activity = _ ∨ _) ∧
        ((s.setWorker i w).workers i).reported.getLast? = _
      rw [hsame]
      exact ⟨Or.inl (hlast.2 hall), by simp [hwdef]⟩
    · rw [if_neg hbb, Nat.add_zero, reports_eq_iff] at hall
      refine (h.complete hpos b' hall).imp_right ?_
      rintro ⟨j, hact, hl⟩
      have hj : j ≠ i := by
        rintro rfl
        rw [hwritten] at hact
        simp at hact
      refine ⟨j, ?_⟩
      unfold HeldBy
      change (((s.setWorker i w).workers j).activity = _ ∨
        ((s.setWorker i w).workers j).activity = _) ∧
        ((s.setWorker i w).workers j).reported.getLast? = _
      rw [hother j hj]
      exact ⟨hact, hl⟩
  · change ((s.setWorker i w).workers j).activity = _ at hj
    by_cases hji : j = i
    · subst hji
      rw [hsame] at hj
      obtain rfl := htrig b' hj
      refine ⟨hfired, (reports_eq_iff (s.setWorker j w) b').1 ?_⟩
      rw [hreports, if_pos rfl]
      exact hlast.1 hj
    · rw [hother j hji] at hj
      exact ⟨(h.triggering j b' hj).1, fun k ↦ hsub k b' ((h.triggering j b' hj).2 k)⟩
  · rcases honly j b' hj with ⟨rfl, rfl⟩ | ⟨-, hne, hj⟩
    · rcases honly k _ hk with ⟨rfl, -⟩ | ⟨-, hne, -⟩
      · rfl
      · exact absurd rfl hne
    · rcases honly k _ hk with ⟨-, rfl⟩ | ⟨-, -, hk⟩
      · exact absurd rfl hne
      · exact h.unique j k b' hj hk

theorem Inv.report (hnodup : batches.Nodup) (h : s.Inv batches)
    (hwritten : (s.workers i).activity = .written b) :
    (s.reportStage i b).Inv batches := by
  have hnew := (h.inOrder i).not_mem_reported hnodup hwritten
  have hnot : s.reports b ≠ n := fun heq ↦ hnew ((reports_eq_iff s b).1 heq i)
  have hlt : s.reports b < n := lt_of_le_of_ne (reports_le s b) hnot
  unfold reportStage
  dsimp only
  split
  case isTrue hone =>
    refine h.reportedBatch hnodup hwritten rfl (by simp) (by simp) ?_ fun hn ↦ absurd hone hn
    simp only [true_iff]
    omega
  case isFalse hone =>
    have hcount := h.counts hone b
    rw [if_neg hnot] at hcount
    split
    case isTrue hzero =>
      refine h.reportedBatch hnodup hwritten rfl (by simp) (by simp) ?_ fun _ b' ↦ ?_
      · simp only [reduceCtorEq, false_iff]
        omega
      · by_cases hbb : b' = b
        · subst hbb
          rw [Function.update_self, if_pos rfl, if_neg (by omega)]
          omega
        · rw [Function.update_of_ne hbb, if_neg hbb]
    case isFalse hpos =>
      rw [if_neg (by omega), hcount]
      split
      case isTrue hn =>
        refine h.reportedBatch hnodup hwritten rfl (by simp) (by simp) (by simpa using hn)
          fun _ b' ↦ ?_
        by_cases hbb : b' = b
        · subst hbb
          rw [Function.update_self, if_pos rfl, if_pos hn]
        · rw [Function.update_of_ne hbb, if_neg hbb]
      case isFalse hn =>
        refine h.reportedBatch hnodup hwritten rfl (by simp) (by simp) (by simpa using hn)
          fun _ b' ↦ ?_
        by_cases hbb : b' = b
        · subst hbb
          rw [Function.update_self, if_pos rfl, if_neg hn]
        · rw [Function.update_of_ne hbb, if_neg hbb]

theorem mem_of_prefix {l : List ℕ} (hpre : l <+: batches) (hnodup : batches.Nodup)
    {m : ℕ} (hm : m < batches.length) (hmem : batches[m] ∈ l) : m < l.length := by
  obtain ⟨k, hk, hget⟩ := List.mem_iff_getElem.1 hmem
  have hk' : k < batches.length := hk.trans_le hpre.length_le
  have hkm : batches[k] = batches[m] := by
    rw [← hget]
    exact (hpre.getElem hk).symm
  rwa [← (List.Nodup.getElem_inj_iff hnodup).1 hkm]

theorem Inv.fired_eq (hnodup : batches.Nodup) (h : s.Inv batches)
    (htrig : (s.workers i).activity = .triggering b) : s.fired ++ [b] <+: batches := by
  obtain ⟨hfired, hall⟩ := h.triggering i b htrig
  obtain ⟨m, hm, rfl⟩ := List.mem_iff_getElem.1 ((h.inOrder i).reported.subset (hall i))
  have hlong : ∀ j, m < (s.workers j).reported.length := fun j ↦
    mem_of_prefix (h.inOrder j).reported hnodup hm (hall j)
  have hearlier : ∀ k, k < m → ∀ hk' : k < batches.length, batches[k] ∈ s.fired := by
    intro k hk hk'
    have hrep : ∀ j, batches[k] ∈ (s.workers j).reported := fun j ↦ by
      rw [← (h.inOrder j).reported.getElem (hk.trans (hlong j))]
      exact List.getElem_mem _
    rcases h.complete (Fin.pos i) _ hrep with hmem | ⟨j, -, hlast⟩
    · exact hmem
    · have hlen := hlong j
      rw [List.getLast?_eq_getElem?, List.getElem?_eq_getElem (by omega), Option.some.injEq,
        (h.inOrder j).reported.getElem] at hlast
      have := (List.Nodup.getElem_inj_iff hnodup).1 hlast
      omega
  have hle : m ≤ s.fired.length := by
    by_contra hlt
    have := mem_of_prefix h.fired hnodup (m := s.fired.length) (by omega)
      (hearlier _ (by omega) (by omega))
    omega
  have hge : s.fired.length ≤ m := by
    by_contra hlt
    refine hfired ?_
    rw [← h.fired.getElem (by omega)]
    exact List.getElem_mem _
  have heq : s.fired = batches.take m := by
    rw [List.prefix_iff_eq_take.1 h.fired, le_antisymm hge hle]
  rw [heq, ← List.take_succ_eq_append_getElem hm]
  exact List.take_prefix _ _

theorem Inv.callback (hnodup : batches.Nodup) (h : s.Inv batches)
    (htrig : (s.workers i).activity = .triggering b) (accepted : Bool) :
    Inv batches { s.setWorker i { s.workers i with activity := .idle } with
      fired := s.fired ++ [b]
      endQueue := if accepted then s.endQueue ++ [b] else s.endQueue } := by
  have hpre := h.fired_eq hnodup htrig
  obtain ⟨hfired, hall⟩ := h.triggering i b htrig
  set w : Worker := { s.workers i with activity := .idle }
  have hsame : (s.setWorker i w).workers i = w := Function.update_self _ _ _
  have hother : ∀ j, j ≠ i → (s.setWorker i w).workers j = s.workers j := fun j hj ↦
    Function.update_of_ne hj _ _
  have hrep : ∀ j, ((s.setWorker i w).workers j).reported = (s.workers j).reported := fun j ↦ by
    by_cases hj : j = i
    · rw [hj, hsame]
    · rw [hother j hj]
  have htrig' : ∀ j b', ((s.setWorker i w).workers j).activity = .triggering b' →
      j ≠ i ∧ (s.workers j).activity = .triggering b' := fun j b' hj ↦ by
    by_cases hji : j = i
    · rw [hji, hsame] at hj
      cases hj
    · exact ⟨hji, by rwa [hother j hji] at hj⟩
  refine ⟨fun j ↦ ?_, fun hn b' ↦ ?_, fun hpos b' hb' ↦ ?_, fun j b' hj ↦ ?_, fun j k b' hj hk ↦
    h.unique j k b' (htrig' j b' hj).2 (htrig' k b' hk).2, hpre, fun b' hb' j ↦ ?_, ?_⟩
  · change ((s.setWorker i w).workers j).InOrder batches
    by_cases hj : j = i
    · rw [hj, hsame]
      exact (h.inOrder i).called htrig
    · rw [hother j hj]
      exact h.inOrder j
  · have hr : MassiveSync.reports { s.setWorker i w with
        fired := s.fired ++ [b]
        endQueue := if accepted then s.endQueue ++ [b] else s.endQueue } b' = s.reports b' :=
      reports_congr hrep b'
    rw [hr]
    exact h.counts hn b'
  · rcases h.complete hpos b' fun j ↦ hrep j ▸ hb' j with hmem | ⟨j, hact, hlast⟩
    · exact Or.inl (List.mem_append_left _ hmem)
    · by_cases hj : j = i
      · subst hj
        rw [(h.inOrder j).triggering b htrig, Option.some.injEq] at hlast
        exact Or.inl (by simp [hlast])
      · refine Or.inr ⟨j, ?_⟩
        unfold HeldBy
        change (((s.setWorker i w).workers j).activity = _ ∨
          ((s.setWorker i w).workers j).activity = _) ∧
          ((s.setWorker i w).workers j).reported.getLast? = _
        rw [hother j hj]
        exact ⟨hact, hlast⟩
  · obtain ⟨hji, hj⟩ := htrig' j b' hj
    obtain ⟨hnot, hall'⟩ := h.triggering j b' hj
    refine ⟨fun hmem ↦ ?_, fun k ↦ by rw [hrep]; exact hall' k⟩
    rcases List.mem_append.1 hmem with hmem | hmem
    · exact hnot hmem
    · rw [List.mem_singleton.1 hmem] at hj
      exact hji (h.unique j i b hj htrig)
  · rw [hrep]
    rcases List.mem_append.1 hb' with hmem | hmem
    · exact h.reported b' hmem j
    · rw [List.mem_singleton.1 hmem]
      exact hall j
  · dsimp only
    split
    · rw [← List.append_assoc]
      exact h.ended.append_right [b]
    · exact h.ended.trans (List.sublist_append_left _ _)

theorem inv_initial : (initial n).Inv batches where
  inOrder _ := ⟨fun _ ↦ List.nil_prefix, fun _ _ ↦ rfl, List.nil_prefix, by simp [initial],
    by simp [initial], by simp [initial]⟩
  counts _ b := by simp [initial, reports]
  complete hpos b hb := by simpa [initial] using hb ⟨0, hpos⟩
  triggering := by simp [initial]
  unique := by simp [initial]
  fired := List.nil_prefix
  reported := by simp [initial]
  ended := by simp [initial]

theorem inv_step (hnodup : batches.Nodup) {s' : MassiveSync n} {st : Step n}
    (h : s.Inv batches) (hdrops : s.DropsLast st) (hstep : s.step batches st = some s') :
    s'.Inv batches := by
  cases st with
  | enqueue i =>
    simp only [step] at hstep
    split at hstep
    · cases hstep
    case h_2 b hb =>
      split at hstep
      case isTrue hroom =>
        obtain rfl := Option.some.inj hstep
        rw [Bool.and_eq_true] at hroom
        exact h.setWorker ((h.inOrder i).enqueued hb hroom.1) rfl (fun _ ↦ id) fun _ ↦ id
      case isFalse hfull =>
        split at hstep
        · obtain rfl := Option.some.inj hstep
          have hcontinue : (s.workers i).continue_ = false := by
            by_contra hc
            rw [Bool.not_eq_false] at hc
            exact hfull (by rw [hc, Bool.true_and]; exact decide_eq_true (hdrops hc))
          exact h.setWorker ((h.inOrder i).dropped hcontinue) rfl (fun _ ↦ id) fun _ ↦ id
        · cases hstep
  | dequeue i =>
    simp only [step] at hstep
    split at hstep
    case h_1 b queue hidle hqueue =>
      split at hstep
      · cases hstep
      · obtain rfl := Option.some.inj hstep
        exact h.setWorker ((h.inOrder i).dequeued hidle hqueue) rfl (by simp [hidle]) (by simp)
    case h_2 => cases hstep
  | write i =>
    simp only [step] at hstep
    split at hstep
    case h_1 b hprocessing =>
      obtain rfl := Option.some.inj hstep
      exact h.setWorker ((h.inOrder i).wrote hprocessing) rfl (by simp [hprocessing]) (by simp)
    case h_2 => cases hstep
  | report i =>
    simp only [step] at hstep
    split at hstep
    case h_1 b hwritten =>
      obtain rfl := Option.some.inj hstep
      exact h.report hnodup hwritten
    case h_2 => cases hstep
  | callback i accepted =>
    simp only [step] at hstep
    split at hstep
    case h_1 b htrig =>
      obtain rfl := Option.some.inj hstep
      exact h.callback hnodup htrig accepted
    case h_2 => cases hstep
  | throw i =>
    simp only [step] at hstep
    split at hstep
    · cases hstep
    · cases hstep
    · obtain rfl := Option.some.inj hstep
      exact h.setWorker ((h.inOrder i).stop _ _) rfl (by simp) (by simp)
  | handleException i =>
    simp only [step] at hstep
    split at hstep
    case isTrue hstopped =>
      obtain rfl := Option.some.inj hstep
      exact h.setWorker ((h.inOrder i).setFlags true (by simp)) rfl (fun _ ↦ id) fun _ ↦ id
    case isFalse => cases hstep
  | cancel i =>
    obtain rfl := Option.some.inj hstep
    exact h.setWorker ((h.inOrder i).setFlags true id) rfl (fun _ ↦ id) fun _ ↦ id
  | join i =>
    obtain rfl := Option.some.inj hstep
    exact h.setWorker ((h.inOrder i).setFlags _ (by simp)) rfl (fun _ ↦ id) fun _ ↦ id
  | leave i =>
    simp only [step] at hstep
    split at hstep
    case isTrue hidle =>
      obtain rfl := Option.some.inj hstep
      exact h.setWorker ((h.inOrder i).stop _ _) rfl (by simp) (by simp)
    case isFalse => cases hstep
  | endMassiveSync =>
    simp only [step] at hstep
    split at hstep
    · cases hstep
    case h_2 b endQueue hqueue =>
      obtain rfl := Option.some.inj hstep
      refine ⟨h.inOrder, h.counts, h.complete, h.triggering, h.unique, h.fired, h.reported, ?_⟩
      have := h.ended
      rw [hqueue] at this
      simpa using this

theorem Reachable.inv (hnodup : batches.Nodup) (h : Reachable batches s) :
    s.Inv batches := by
  induction h with
  | initial => exact inv_initial
  | step hs hstep hdrops ih => exact inv_step hnodup ih hdrops hstep

/-- The callback runs for the batches in order, each once, and only when every worker has
committed its part of the batch and of all earlier ones; so `hive.end_massive_sync` is called with
increasing block numbers that no worker is behind. -/
theorem published_batches_complete (hsorted : batches.Pairwise (· < ·)) {s : MassiveSync n}
    (h : Reachable batches s) :
    s.fired <+: batches ∧ s.ended.Pairwise (· < ·) ∧ (∀ b ∈ s.ended, b ∈ s.fired) ∧
      ∀ b ∈ s.fired, ∀ b' ∈ batches, b' ≤ b → ∀ i, b' ∈ (s.workers i).committed := by
  have hnodup : batches.Nodup := hsorted.imp fun h ↦ h.ne
  have hinv := h.inv hnodup
  have hended : s.ended.Sublist s.fired := (List.sublist_append_left _ _).trans hinv.ended
  refine ⟨hinv.fired, (hsorted.sublist hinv.fired.sublist).sublist hended, hended.subset,
    fun b hb b' hb' hle i ↦ ?_⟩
  refine (hinv.inOrder i).committed b' ?_
  obtain ⟨m, hm, rfl⟩ := List.mem_iff_getElem.1 (hinv.fired.subset hb)
  obtain ⟨k, hk, rfl⟩ := List.mem_iff_getElem.1 hb'
  have hkm : k ≤ m := by
    by_contra hlt
    have := List.pairwise_iff_getElem.1 hsorted m k hm hk (by omega)
    omega
  have hlong := mem_of_prefix (hinv.inOrder i).reported hnodup hm (hinv.reported _ hb i)
  rw [← (hinv.inOrder i).reported.getElem (by omega)]
  exact List.getElem_mem _

theorem two_workers_publish_batch : ∃ s : MassiveSync 2, Reachable [5, 9] s ∧ s.ended = [5] ∧
    ∀ b ∈ s.fired, ∀ b' ∈ [5, 9], b' ≤ b → ∀ i, b' ∈ (s.workers i).committed := by
  have hrun : Reachable (n := 2) [5, 9] _ :=
    .step (t := .endMassiveSync) (.step (t := .callback 1 true) (.step (t := .report 1)
      (.step (t := .write 1) (.step (t := .dequeue 1) (.step (t := .enqueue 1)
        (.step (t := .report 0) (.step (t := .write 0) (.step (t := .dequeue 0)
          (.step (t := .enqueue 0) .initial rfl (by decide)) rfl trivial) rfl trivial)
          rfl trivial) rfl (by decide)) rfl trivial) rfl trivial) rfl trivial) rfl trivial)
      rfl trivial
  exact ⟨_, hrun, rfl, (published_batches_complete (by decide) hrun).2.2.2⟩

/-- While `cancel` has set `_cancel` but not yet `_continue`, a worker with a full queue drops a
batch and can still take the next one: batch 4 is published although worker 1 never wrote
batch 3. -/
theorem cancel_publishes_incomplete_batch : ∃ s : MassiveSync 2,
    (initial 2).run [1, 2, 3, 4] [.enqueue 0, .enqueue 1, .enqueue 0, .enqueue 1,
      .dequeue 0, .write 0, .report 0, .dequeue 0, .write 0, .report 0, .enqueue 0,
      .cancel 1, .enqueue 1,
      .dequeue 1, .write 1, .report 1, .callback 1 true, .dequeue 1, .write 1, .report 1,
      .callback 1 true, .enqueue 0, .enqueue 1,
      .dequeue 0, .write 0, .report 0, .dequeue 0, .write 0, .report 0,
      .dequeue 1, .write 1, .report 1, .callback 1 true,
      .endMassiveSync, .endMassiveSync, .endMassiveSync] = some s ∧
    s.ended = [1, 2, 4] ∧ (s.workers 1).committed = [1, 2, 4] ∧ 3 ∉ (s.workers 1).committed :=
  ⟨_, rfl, rfl, rfl, by decide⟩

end MassiveSync

end HiveForkManager
