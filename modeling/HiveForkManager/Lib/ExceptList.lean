import Mathlib

namespace ExceptList

variable {ε α β : Type}

variable {f : α → Except ε β} {l : List α} {l' : List β}

theorem bind_eq_ok {x : Except ε α} {b : β} : (x >>= f) = .ok b ↔ ∃ a, x = .ok a ∧ f a = .ok b := by
  cases x with
  | error e =>
    constructor
    · intro he
      cases he
    · rintro ⟨a, ha, -⟩
      cases ha
  | ok a =>
    constructor
    · exact fun hb ↦ ⟨a, rfl, hb⟩
    · rintro ⟨a', ha, hb⟩
      cases ha
      exact hb

@[simp] theorem ok_bind (a : α) (f : α → Except ε β) : (Except.ok a >>= f) = f a := rfl

theorem mapM_ok {g : α → β} (h : ∀ a ∈ l, f a = .ok (g a)) : l.mapM f = .ok (l.map g) := by
  induction l with
  | nil => rfl
  | cons a l ih =>
    rw [List.mapM_cons, h a List.mem_cons_self, ih fun b hb ↦ h b (List.mem_cons_of_mem _ hb)]
    rfl

theorem forall₂_of_mapM_eq_ok
    (hl : l.mapM f = .ok l') : List.Forall₂ (fun a b ↦ f a = .ok b) l l' := by
  induction l generalizing l' with
  | nil =>
    rw [List.mapM_nil] at hl
    cases hl
    exact .nil
  | cons a l ih =>
    rw [List.mapM_cons, bind_eq_ok] at hl
    obtain ⟨b, hb, hl⟩ := hl
    obtain ⟨bs, hbs, hl⟩ := bind_eq_ok.mp hl
    cases hl
    exact .cons hb (ih hbs)

theorem forall₂_imp_mem {R S : α → β → Prop} (hl : List.Forall₂ R l l')
    (h : ∀ a ∈ l, ∀ b ∈ l', R a b → S a b) : List.Forall₂ S l l' := by
  induction hl with
  | nil => exact .nil
  | cons hab _ ih =>
    refine .cons (h _ List.mem_cons_self _ List.mem_cons_self hab) (ih fun a ha b hb ↦ ?_)
    exact h a (List.mem_cons_of_mem _ ha) b (List.mem_cons_of_mem _ hb)

theorem mapM_eq_ok_of_imp {g : α → Except ε β} (h : ∀ a ∈ l, ∀ b, f a = .ok b → g a = .ok b) :
    ∀ {l' : List β}, l.mapM f = .ok l' → l.mapM g = .ok l' := by
  induction l with
  | nil => exact fun hl ↦ hl
  | cons a l ih =>
    intro l' hl
    rw [List.mapM_cons] at hl ⊢
    obtain ⟨b, hb, hl⟩ := bind_eq_ok.mp hl
    obtain ⟨bs, hbs, hl⟩ := bind_eq_ok.mp hl
    rw [h a List.mem_cons_self b hb, ok_bind, ih (fun x hx ↦ h x (List.mem_cons_of_mem _ hx)) hbs]
    exact hl

theorem exists_mapM_ok (h : ∀ a ∈ l, ∃ b, f a = .ok b) :
    ∃ l', l.mapM f = .ok l' := by
  induction l with
  | nil => exact ⟨[], rfl⟩
  | cons a l ih =>
    obtain ⟨b, hb⟩ := h a List.mem_cons_self
    obtain ⟨l', hl'⟩ := ih fun x hx ↦ h x (List.mem_cons_of_mem _ hx)
    exact ⟨b :: l', by rw [List.mapM_cons, hb, hl']; rfl⟩

theorem exists_of_mem_mapM
    (h : l.mapM f = .ok l') {b : β} (hb : b ∈ l') : ∃ a ∈ l, f a = .ok b := by
  obtain ⟨i, hi⟩ := List.mem_iff_getElem?.mp hb
  have hrel := forall₂_of_mapM_eq_ok h
  obtain ⟨hlt, rfl⟩ := List.getElem?_eq_some_iff.mp hi
  have hlt' : i < l.length := hrel.length_eq ▸ hlt
  exact ⟨l[i], List.getElem_mem hlt', hrel.get hlt' hlt⟩

theorem exists_ok_of_mem (h : l.mapM f = .ok l') {a : α} (ha : a ∈ l) : ∃ b, f a = .ok b := by
  obtain ⟨i, hlt, rfl⟩ := List.getElem_of_mem ha
  have hrel := forall₂_of_mapM_eq_ok h
  have hlt' : i < l'.length := hrel.length_eq ▸ hlt
  exact ⟨l'[i], hrel.get hlt hlt'⟩

end ExceptList
