import Mathlib

namespace Join

variable {α β γ κ : Type}

theorem perm_flatMap_comm (l : List α) (m : List β) (f : α → β → List γ) :
    (l.flatMap fun a ↦ m.flatMap fun b ↦ f a b).Perm
      (m.flatMap fun b ↦ l.flatMap fun a ↦ f a b) := by
  rw [← Multiset.coe_eq_coe]
  simp only [← Multiset.coe_bind]
  exact Multiset.bind_bind _ _

theorem flatMap_ite_key [DecidableEq κ] {key : α → κ} {l : List α} (hl : (l.map key).Nodup) (k : κ)
    (rows : List β) :
    (l.flatMap fun a ↦ if key a = k then rows else []) = if k ∈ l.map key then rows else [] := by
  induction l with
  | nil => rfl
  | cons a l ih =>
    obtain ⟨ha, hl⟩ := List.nodup_cons.mp hl
    rw [List.flatMap_cons, ih hl, List.map_cons]
    by_cases hk : key a = k
    · subst hk
      rw [if_pos rfl, if_neg ha, if_pos List.mem_cons_self, List.append_nil]
    · rw [if_neg hk, List.nil_append]
      simp only [List.mem_cons, Ne.symm hk, false_or]

theorem flatMap_ite_singleton (p : α → Prop) [DecidablePred p] (f : α → β) (l : List α) :
    (l.flatMap fun a ↦ if p a then [f a] else []) = (l.filter fun a ↦ decide (p a)).map f := by
  induction l with
  | nil => rfl
  | cons a l ih =>
    rw [List.flatMap_cons, ih]
    by_cases ha : p a <;> simp [ha]

end Join
