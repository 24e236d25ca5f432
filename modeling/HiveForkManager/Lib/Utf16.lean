import Mathlib

namespace Utf16

def units (v : ℕ) : List ℕ :=
  if v ≤ 0xFFFF then [v] else [0xD800 + (v - 0x10000) / 1024, 0xDC00 + (v - 0x10000) % 1024]

def ofChars (text : List Char) : List ℕ := text.flatMap fun c ↦ units c.toNat

theorem toNat_bounds (c : Char) : c.toNat < 0xD800 ∨ 0xDFFF < c.toNat ∧ c.toNat < 0x110000 :=
  c.valid

theorem units_ne_nil (v : ℕ) : units v ≠ [] := by
  unfold units
  split <;> simp

theorem units_append_inj {c d : Char} {xs ys : List ℕ}
    (h : units c.toNat ++ xs = units d.toNat ++ ys) : c = d ∧ xs = ys := by
  have hc := toNat_bounds c
  have hd := toNat_bounds d
  have hval : c.toNat = d.toNat ∧ xs = ys := by
    unfold units at h
    split at h <;> split at h <;> simp only [List.cons_append, List.nil_append, List.cons.injEq] at h
    · exact h
    · omega
    · omega
    · exact ⟨by omega, h.2.2⟩
  exact ⟨Char.toNat_inj.mp hval.1, hval.2⟩

theorem ofChars_injective : Function.Injective ofChars := by
  intro text
  induction text with
  | nil =>
    intro text' h
    cases text' with
    | nil => rfl
    | cons d text' => exact absurd (List.append_eq_nil_iff.mp h.symm).1 (units_ne_nil _)
  | cons c text ih =>
    intro text' h
    cases text' with
    | nil => exact absurd (List.append_eq_nil_iff.mp h).1 (units_ne_nil _)
    | cons d text' =>
      obtain ⟨rfl, htail⟩ := units_append_inj h
      rw [ih htail]

end Utf16
