import Mathlib

namespace Reach

variable {α : Type}

def Edge (edges : List (α × α)) (a b : α) : Prop := (a, b) ∈ edges

section Rounds

variable [DecidableEq α]

/-- The targets of the edges that leave the working rows, without those that are known. -/
def nextRound (edges : List (α × α)) (working result : List α) : List α :=
  (((edges.filter (fun e ↦ decide (e.1 ∈ working))).map Prod.snd).dedup).filter
    (fun b ↦ decide (b ∉ result))

def expand (edges : List (α × α)) : ℕ → List α → List α → List α
  | 0, _, result => result
  | fuel + 1, working, result =>
    if nextRound edges working result = [] then result
    else expand edges fuel (nextRound edges working result)
      (result ++ nextRound edges working result)

/-- All that is reachable from `a`. Every round but the last finds the target of an edge. -/
def reach (edges : List (α × α)) (a : α) : List α := expand edges edges.length [a] [a]

variable {edges : List (α × α)} {working result : List α} {fuel : ℕ} {a b : α}

theorem mem_nextRound :
    b ∈ nextRound edges working result ↔ (∃ a ∈ working, (a, b) ∈ edges) ∧ b ∉ result := by
  simp only [nextRound, List.mem_filter, List.mem_dedup, List.mem_map, decide_eq_true_eq,
    Prod.exists, exists_eq_right]
  exact and_congr_left fun _ ↦ exists_congr fun _ ↦ and_comm

def unseen (edges : List (α × α)) (result : List α) : List (α × α) :=
  edges.filter (fun e ↦ decide (e.2 ∉ result))

theorem length_unseen_lt (h : nextRound edges working result ≠ []) :
    (unseen edges (result ++ nextRound edges working result)).length <
      (unseen edges result).length := by
  obtain ⟨b, hb⟩ := List.exists_mem_of_ne_nil _ h
  obtain ⟨⟨a, -, hedge⟩, hnew⟩ := mem_nextRound.mp hb
  have hsub : unseen edges (result ++ nextRound edges working result) =
      (unseen edges result).filter
        (fun e ↦ decide (e.2 ∉ nextRound edges working result)) := by
    rw [unseen, unseen, List.filter_filter]
    refine List.filter_congr fun e _ ↦ ?_
    simp only [List.mem_append, not_or, Bool.decide_and]
    exact Bool.and_comm _ _
  rw [hsub]
  refine List.length_filter_lt_length_iff_exists.mpr ⟨(a, b), ?_, by simpa using hb⟩
  exact List.mem_filter.mpr ⟨hedge, by simpa using hnew⟩

theorem expand_subset (h : b ∈ result) : b ∈ expand edges fuel working result := by
  induction fuel generalizing working result with
  | zero => exact h
  | succ fuel ih =>
    rw [expand]
    split
    · exact h
    · exact ih (List.mem_append_left _ h)

/-- With enough fuel the result contains the targets of all edges that leave it: those of the rows
before the working ones are there from the start. -/
theorem expand_closed (hfuel : (unseen edges result).length ≤ fuel)
    (hdone : ∀ a b, (a, b) ∈ edges → a ∈ result → a ∉ working → b ∈ result)
    (hedge : (a, b) ∈ edges) (ha : a ∈ expand edges fuel working result) :
    b ∈ expand edges fuel working result := by
  induction fuel generalizing working result with
  | zero =>
    by_contra hb
    have hmem : (a, b) ∈ unseen edges result := List.mem_filter.mpr ⟨hedge, by simpa [expand] using hb⟩
    have := List.length_pos_of_mem hmem
    omega
  | succ fuel ih =>
    rw [expand] at ha ⊢
    split at ha
    · rename_i hnil
      rw [if_pos hnil]
      by_cases hw : a ∈ working
      · by_contra hb
        have hnext : b ∈ nextRound edges working result :=
          mem_nextRound.mpr ⟨⟨a, hw, hedge⟩, hb⟩
        rw [hnil] at hnext
        cases hnext
      · exact hdone a b hedge ha hw
    · rename_i hnil
      rw [if_neg hnil]
      refine ih ?_ ?_ ha
      · have := length_unseen_lt hnil
        omega
      · intro x y hxy hx hnew
        rcases List.mem_append.mp hx with hx | hx
        · by_cases hw : x ∈ working
          · by_cases hy : y ∈ result
            · exact List.mem_append_left _ hy
            · exact List.mem_append_right _ (mem_nextRound.mpr ⟨⟨x, hw, hxy⟩, hy⟩)
          · exact List.mem_append_left _ (hdone x y hxy hx hw)
        · exact absurd hx hnew

theorem expand_sound {s : α} (hworking : ∀ a ∈ working, Relation.ReflTransGen (Edge edges) s a)
    (hresult : ∀ a ∈ result, Relation.ReflTransGen (Edge edges) s a)
    (hb : b ∈ expand edges fuel working result) : Relation.ReflTransGen (Edge edges) s b := by
  induction fuel generalizing working result with
  | zero => exact hresult b hb
  | succ fuel ih =>
    have hnext : ∀ c ∈ nextRound edges working result,
        Relation.ReflTransGen (Edge edges) s c := by
      intro c hc
      obtain ⟨⟨a, ha, hedge⟩, -⟩ := mem_nextRound.mp hc
      exact (hworking a ha).tail hedge
    rw [expand] at hb
    split at hb
    · exact hresult b hb
    · exact ih hnext (List.forall_mem_append.mpr ⟨hresult, hnext⟩) hb

theorem mem_reach : b ∈ reach edges a ↔ Relation.ReflTransGen (Edge edges) a b := by
  have hself : ∀ x ∈ [a], Relation.ReflTransGen (Edge edges) a x := by
    intro x hx
    rw [List.mem_singleton.mp hx]
  refine ⟨expand_sound hself hself, fun h ↦ ?_⟩
  induction h with
  | refl => exact expand_subset List.mem_cons_self
  | tail _ hedge ih =>
    exact expand_closed (List.length_filter_le _ _)
      (fun _ _ _ hx hnew ↦ absurd hx hnew) hedge ih

end Rounds

def Acyclic (edges : List (α × α)) : Prop := ∀ a, ¬ Relation.TransGen (Edge edges) a a

variable {edges edges' : List (α × α)} {a b x y : α}

theorem Acyclic.mono (h : Acyclic edges) (hsub : ∀ e ∈ edges', e ∈ edges) : Acyclic edges' :=
  fun a ha ↦ h a (Relation.TransGen.mono (fun u v ↦ hsub (u, v)) a a ha)

theorem path_append (h : Relation.TransGen (Edge (edges ++ [(a, b)])) x y) :
    Relation.TransGen (Edge edges) x y ∨
      Relation.ReflTransGen (Edge edges) x a ∧ Relation.ReflTransGen (Edge edges) b y := by
  have hedge : ∀ {u v}, Edge (edges ++ [(a, b)]) u v → Edge edges u v ∨ u = a ∧ v = b := by
    intro u v huv
    simpa [Edge] using huv
  induction h with
  | single h =>
    rcases hedge h with h | ⟨rfl, rfl⟩
    · exact Or.inl (.single h)
    · exact Or.inr ⟨.refl, .refl⟩
  | tail _ h ih =>
    rcases hedge h with h | ⟨rfl, rfl⟩
    · rcases ih with ih | ⟨hx, hy⟩
      · exact Or.inl (ih.tail h)
      · exact Or.inr ⟨hx, hy.tail h⟩
    · rcases ih with ih | ⟨hx, -⟩
      · exact Or.inr ⟨ih.to_reflTransGen, .refl⟩
      · exact Or.inr ⟨hx, .refl⟩

theorem acyclic_append_iff (h : Acyclic edges) :
    Acyclic (edges ++ [(a, b)]) ↔ ¬ Relation.ReflTransGen (Edge edges) b a := by
  constructor
  · intro hnew hpath
    have hold : Relation.ReflTransGen (Edge (edges ++ [(a, b)])) b a :=
      Relation.ReflTransGen.mono (fun _ _ ↦ List.mem_append_left _) b a hpath
    exact hnew a (Relation.TransGen.head' (List.mem_append_right _ List.mem_cons_self) hold)
  · intro hpath x hx
    rcases path_append hx with hx | ⟨hxa, hbx⟩
    · exact h x hx
    · exact hpath (hbx.trans hxa)

end Reach
