import Mathlib

namespace FixedWidth

theorem append_lt_append {a b : List ℕ} (hlength : a.length = b.length) (hlt : a < b)
    (x y : List ℕ) : a ++ x < b ++ y := by
  induction a generalizing b with
  | nil =>
    rw [List.length_nil] at hlength
    rw [List.eq_nil_of_length_eq_zero hlength.symm] at hlt
    exact absurd hlt (List.not_lt_nil _)
  | cons d a ih =>
    cases b with
    | nil => cases hlength
    | cons e b =>
      rw [List.cons_append, List.cons_append, List.cons_lt_cons_iff]
      rcases List.cons_lt_cons_iff.mp hlt with hhead | ⟨hhead, htail⟩
      · exact Or.inl hhead
      · exact Or.inr ⟨hhead, ih (Nat.succ.inj hlength) htail⟩

def readFrom (n : ℕ) (digits : List ℕ) : ℕ := digits.foldl (fun n d ↦ 10 * n + (d - 48)) n

theorem lt_of_readFrom_lt {a b : List ℕ} (hlength : a.length = b.length)
    (ha : ∀ d ∈ a, 48 ≤ d ∧ d ≤ 57) (hb : ∀ d ∈ b, 48 ≤ d ∧ d ≤ 57) :
    ∀ {m n : ℕ}, readFrom m a < readFrom n b → m < n ∨ m = n ∧ a < b := by
  induction a generalizing b with
  | nil =>
    intro m n hlt
    rw [List.length_nil] at hlength
    rw [List.eq_nil_of_length_eq_zero hlength.symm] at hlt
    exact Or.inl hlt
  | cons d a ih =>
    cases b with
    | nil => cases hlength
    | cons e b =>
      intro m n hlt
      have hd := ha d (List.mem_cons_self ..)
      have he := hb e (List.mem_cons_self ..)
      have htail := ih (Nat.succ.inj hlength) (fun x hx ↦ ha x (List.mem_cons_of_mem _ hx))
        (fun x hx ↦ hb x (List.mem_cons_of_mem _ hx)) hlt
      simp only at htail
      rw [List.cons_lt_cons_iff]
      rcases htail with hless | ⟨heq, hless⟩
      · omega
      · have hmn : m = n := by omega
        exact Or.inr ⟨hmn, Or.inr ⟨by omega, hless⟩⟩

end FixedWidth
