import Mathlib

namespace LastValue

variable {α β κ : Type}

theorem filter_append_filter {l : List α} {q r : α → Bool}
    (hdisjoint : ∀ a, q a = true → r a = false)
    (hl : l.Pairwise fun a b ↦ r a = true → q b = false) :
    l.filter q ++ l.filter r = l.filter fun a ↦ q a || r a := by
  induction l with
  | nil => rfl
  | cons a l ih =>
    rw [List.pairwise_cons] at hl
    have ih := ih hl.2
    cases hq : q a with
    | true => simp [hq, hdisjoint a hq, ih]
    | false =>
      cases hr : r a with
      | false => simp [hq, hr, ih]
      | true =>
        have hnil : l.filter q = [] :=
          List.filter_eq_nil_iff.mpr fun b hb ↦ by simp [hl.1 b hb hr]
        rw [hnil, List.nil_append] at ih
        simp [hq, hr, hnil, ih]

def overwrite (skip : β → Bool) (old new : β) : β := if skip new then old else new

theorem foldl_overwrite (skip : β → Bool) (old : β) (values : List β) :
    values.foldl (overwrite skip) old =
      ((values.filter fun v ↦ !skip v).getLast?).getD old := by
  induction values generalizing old with
  | nil => rfl
  | cons v values ih =>
    rw [List.foldl_cons, ih, overwrite, List.filter_cons]
    cases hv : skip v with
    | true => simp
    | false => cases hl : (values.filter fun v ↦ !skip v).getLast? <;> simp [List.getLast?_cons, hl]

theorem overwrite_foldl (skip : β → Bool) {empty : β} (hempty : skip empty = true) (old : β)
    (values : List β) :
    overwrite skip old (values.foldl (overwrite skip) empty) =
      values.foldl (overwrite skip) old := by
  rw [foldl_overwrite, foldl_overwrite, overwrite]
  cases hl : (values.filter fun v ↦ !skip v).getLast? with
  | none => simp [hempty]
  | some v =>
    have hv := (List.mem_filter.mp (List.mem_of_getLast? hl)).2
    simp only [Option.getD_some]
    exact if_neg (by simpa using hv)

theorem argmax_eq_getLast? [LinearOrder κ] {key : α → κ} {l : List α}
    (hl : l.Pairwise fun a b ↦ key a < key b) : l.argmax key = l.getLast? := by
  induction l using List.reverseRecOn with
  | nil => rfl
  | append_singleton l a ih =>
    rw [List.getLast?_concat]
    have hlt : ∀ b ∈ l, key b < key a := fun b hb ↦
      (List.pairwise_append.mp hl).2.2 b hb a List.mem_cons_self
    cases hmax : (l ++ [a]).argmax key with
    | none => simp at hmax
    | some m =>
      rcases List.mem_append.mp (List.argmax_mem hmax) with hm | hm
      · have hle : key a ≤ key m :=
          List.le_of_mem_argmax (List.mem_append_right l List.mem_cons_self) hmax
        exact absurd (hlt m hm) (not_lt.mpr hle)
      · rw [List.mem_singleton.mp hm]

end LastValue
