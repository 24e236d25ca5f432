import Mathlib

namespace ForkStore

variable {α ρ φ : Type}

def Numbered (num : α → ℕ) (chain : List α) : Prop :=
  ∀ (i : ℕ) (a : α), chain[i]? = some a → num a = i + 1

namespace Numbered

variable {num : α → ℕ} {chain : List α}

theorem nil : Numbered num ([] : List α) := fun i a h ↦ by simp at h

variable {a : α} {b : ℕ}

theorem append (h : Numbered num chain) (ha : num a = chain.length + 1) :
    Numbered num (chain ++ [a]) := by
  intro i b hb
  rcases Nat.lt_or_ge i chain.length with hi | hi
  · rw [List.getElem?_append_left hi] at hb
    exact h i b hb
  · rw [List.getElem?_append_right hi, List.getElem?_singleton] at hb
    split at hb
    · rw [← Option.some.inj hb, ha]
      omega
    · simp at hb

theorem take (h : Numbered num chain) (k : ℕ) : Numbered num (chain.take k) := by
  intro i a ha
  rw [List.getElem?_take] at ha
  split at ha
  · exact h i a ha
  · simp at ha

theorem tail (h : ∀ (i : ℕ) (x : α), (a :: chain)[i]? = some x → num x = b + i) :
    ∀ (i : ℕ) (x : α), chain[i]? = some x → num x = b + 1 + i := by
  intro i x hx
  have := h (i + 1) x (by rwa [List.getElem?_cons_succ])
  omega

theorem filter_split (k b : ℕ) (h : ∀ (i : ℕ) (x : α), chain[i]? = some x → num x = b + i) :
    chain.filter (fun x ↦ decide (num x ≤ k)) = chain.take (k + 1 - b) ∧
      chain.filter (fun x ↦ decide (k < num x)) = chain.drop (k + 1 - b) := by
  induction chain generalizing b with
  | nil => simp
  | cons a chain ih =>
    have ha : num a = b := by simpa using h 0 a rfl
    obtain ⟨htake, hdrop⟩ := ih (b + 1) (tail h)
    rw [List.filter_cons, List.filter_cons, htake, hdrop]
    by_cases hk : b ≤ k
    · have hsub : k + 1 - b = (k + 1 - (b + 1)) + 1 := by omega
      simp [ha, hk, hsub]
    · have h₁ : k + 1 - b = 0 := by omega
      have h₂ : k + 1 - (b + 1) = 0 := by omega
      simp [ha, hk, Nat.lt_of_not_le hk, h₁, h₂]

theorem drop (h : Numbered num chain) (b : ℕ) :
    ∀ (i : ℕ) (x : α), (chain.drop b)[i]? = some x → num x = b + 1 + i := by
  intro i x hx
  rw [List.getElem?_drop] at hx
  have := h _ x hx
  omega

theorem drop_filter_le (h : Numbered num chain) {k : ℕ} :
    (chain.drop b).filter (fun x ↦ decide (num x ≤ k)) = (chain.take k).drop b := by
  rw [(filter_split k (b + 1) (h.drop b)).1, List.drop_take]
  congr 1
  omega

theorem drop_filter_lt (h : Numbered num chain) {k : ℕ} (hb : b ≤ k) :
    (chain.drop b).filter (fun x ↦ decide (k < num x)) = chain.drop k := by
  rw [(filter_split k (b + 1) (h.drop b)).2, List.drop_drop]
  congr 1
  omega

theorem map_num (h : Numbered num chain) : chain.map num = List.range' 1 chain.length := by
  apply List.ext_getElem?
  intro i
  rw [List.getElem?_map]
  rcases Nat.lt_or_ge i chain.length with hi | hi
  · have hget : chain[i]? = some chain[i] := List.getElem?_eq_getElem hi
    rw [hget, Option.map_some, h i _ hget, List.getElem?_range' hi]
    simp [Nat.add_comm]
  · rw [List.getElem?_eq_none hi, Option.map_none, List.getElem?_eq_none (by simpa using hi)]

theorem nodup (h : Numbered num chain) : chain.Nodup := by
  rw [List.nodup_iff_getElem?_ne_getElem?]
  intro i j hij hj heq
  have hi := h i chain[i] (List.getElem?_eq_getElem (by omega))
  have hj' := h j chain[i] (by rw [← heq]; exact List.getElem?_eq_getElem (by omega))
  omega

theorem getElem? (h : Numbered num chain) (ha : a ∈ chain) :
    chain[num a - 1]? = some a := by
  obtain ⟨i, hi⟩ := List.mem_iff_getElem?.mp ha
  rw [h i a hi, Nat.add_sub_cancel]
  exact hi

theorem num_le (h : Numbered num chain) (ha : a ∈ chain) : num a ≤ chain.length := by
  obtain ⟨i, hi⟩ := List.mem_iff_getElem?.mp ha
  rw [h i a hi]
  exact (List.getElem?_eq_some_iff.mp hi).1

theorem inj (h : Numbered num chain) {b : α} (ha : a ∈ chain) (hb : b ∈ chain)
    (hab : num a = num b) : a = b := by
  have := h.getElem? ha
  rw [hab, h.getElem? hb] at this
  exact (Option.some.inj this).symm

end Numbered

variable (num : α → ℕ) (value : ρ → α) (fork : ρ → ℕ) (id common : φ → ℕ)

def Live (forks : List φ) (r : ρ) : Prop :=
  ∀ g ∈ forks, fork r < id g → num (value r) ≤ common g

instance (forks : List φ) (r : ρ) : Decidable (Live num value fork id common forks r) := by
  unfold Live; infer_instance

/-- The live items above `base` are the items of the current branch above `base`, in order; the
live items further down are of the current branch, too. -/
structure Consistent (base : ℕ) (forks : List φ) (rows : List ρ) (chain : List α) : Prop where
  numbered : Numbered num chain
  base_le : base ≤ chain.length
  live_mem : ∀ r ∈ rows, Live num value fork id common forks r → value r ∈ chain
  above : (rows.filter (fun r ↦ decide (Live num value fork id common forks r ∧
    base < num (value r)))).map value = chain.drop base
  fork_le : ∀ r ∈ rows, ∃ g ∈ forks, fork r ≤ id g

namespace Consistent

variable {num value fork id common} {base : ℕ} {forks : List φ} {rows : List ρ} {chain : List α}

theorem nil (forks : List φ) : Consistent num value fork id common 0 forks [] [] :=
  ⟨.nil, le_rfl, by simp, by simp, by simp⟩

section Operations

variable (h : Consistent num value fork id common base forks rows chain)
include h

variable {r : ρ}

theorem push (hnum : num (value r) = chain.length + 1)
    (hfork : ∀ g ∈ forks, id g ≤ fork r) (hex : ∃ g ∈ forks, fork r = id g) :
    Consistent num value fork id common base forks (rows ++ [r]) (chain ++ [value r]) where
  numbered := h.numbered.append hnum
  base_le := by
    rw [List.length_append]
    exact h.base_le.trans (Nat.le_add_right _ _)
  live_mem r' hr' hl := by
    rcases List.mem_append.mp hr' with hr' | hr'
    · exact List.mem_append_left _ (h.live_mem r' hr' hl)
    · rw [List.mem_singleton.mp hr']
      exact List.mem_append_right _ List.mem_cons_self
  above := by
    have hlive : Live num value fork id common forks r := by
      intro g hg hlt
      have := hfork g hg
      omega
    have hbase : base < num (value r) := by
      have := h.base_le
      omega
    rw [List.filter_append, List.map_append, h.above, List.drop_append_of_le_length h.base_le]
    simp [hlive, hbase]
  fork_le r' hr' := by
    rcases List.mem_append.mp hr' with hr' | hr'
    · exact h.fork_le r' hr'
    · obtain ⟨g, hg, he⟩ := hex
      exact ⟨g, hg, (List.mem_singleton.mp hr' ▸ he).le⟩

theorem branch {g : φ} (hid : ∀ g' ∈ forks, id g' < id g) (hbase : base ≤ common g)
    (hcommon : common g ≤ chain.length) :
    Consistent num value fork id common base (forks ++ [g]) rows (chain.take (common g)) := by
  have hnew : ∀ r ∈ rows, (Live num value fork id common (forks ++ [g]) r ↔
      Live num value fork id common forks r ∧ num (value r) ≤ common g) := by
    intro r hr
    obtain ⟨g', hg', hle⟩ := h.fork_le r hr
    have hlt := hid g' hg'
    constructor
    · intro hl
      exact ⟨fun x hx ↦ hl x (List.mem_append_left _ hx),
        hl g (List.mem_append_right _ List.mem_cons_self) (by omega)⟩
    · rintro ⟨hl, hle'⟩ x hx hfx
      rcases List.mem_append.mp hx with hx | hx
      · exact hl x hx hfx
      · exact List.mem_singleton.mp hx ▸ hle'
  refine ⟨h.numbered.take _, ?_, ?_, ?_, ?_⟩
  · rw [List.length_take, Nat.min_eq_left hcommon]
    exact hbase
  · intro r hr hl
    obtain ⟨hlive, hle⟩ := (hnew r hr).mp hl
    have hmem := h.live_mem r hr hlive
    have hget := h.numbered.getElem? hmem
    have hpos : num (value r) - 1 < common g := by
      obtain ⟨i, hi⟩ := List.mem_iff_getElem?.mp hmem
      have := h.numbered i _ hi
      omega
    rw [List.mem_iff_getElem?]
    exact ⟨num (value r) - 1, by rw [List.getElem?_take_of_lt hpos, hget]⟩
  · rw [← h.numbered.drop_filter_le, ← h.above, List.filter_map, List.filter_filter]
    congr 1
    apply List.filter_congr
    intro r hr
    rw [Bool.eq_iff_iff, Bool.and_eq_true, decide_eq_true_eq, decide_eq_true_eq,
      Function.comp_apply, decide_eq_true_eq, hnew r hr, and_assoc, and_left_comm]
  · intro r hr
    obtain ⟨g', hg', hle⟩ := h.fork_le r hr
    exact ⟨g', List.mem_append_left _ hg', hle⟩

theorem raise {n : ℕ} (hn : base ≤ n) (hlen : n ≤ chain.length) :
    Consistent num value fork id common n forks rows chain where
  numbered := h.numbered
  base_le := hlen
  live_mem := h.live_mem
  above := by
    rw [← h.numbered.drop_filter_lt hn, ← h.above, List.filter_map, List.filter_filter]
    congr 1
    apply List.filter_congr
    intro r _
    simp only [Function.comp_apply, Bool.decide_and]
    by_cases h₁ : n < num (value r)
    · have h₂ : base < num (value r) := by omega
      simp [h₁, h₂]
    · simp [h₁]
  fork_le := h.fork_le

theorem grow {a : α} (hnum : num a = chain.length + 1) (hlen : chain.length = base) :
    Consistent num value fork id common (base + 1) forks rows (chain ++ [a]) where
  numbered := h.numbered.append hnum
  base_le := by
    rw [List.length_append, hlen]
    rfl
  live_mem r hr hl := List.mem_append_left _ (h.live_mem r hr hl)
  above := by
    have hempty : rows.filter (fun r ↦ decide (Live num value fork id common forks r ∧
        base + 1 < num (value r))) = [] := by
      rw [List.filter_eq_nil_iff]
      intro r hr
      simp only [decide_eq_true_eq]
      rintro ⟨hl, hlt⟩
      have := h.numbered.num_le (h.live_mem r hr hl)
      omega
    rw [hempty, List.map_nil, List.drop_eq_nil_of_le (by simp [hlen])]
  fork_le := h.fork_le

theorem delete {keep : ρ → Bool}
    (hkeep : ∀ r ∈ rows, Live num value fork id common forks r → base < num (value r) →
      keep r = true) :
    Consistent num value fork id common base forks (rows.filter keep) chain where
  numbered := h.numbered
  base_le := h.base_le
  live_mem r hr := h.live_mem r (List.mem_of_mem_filter hr)
  above := by
    rw [← h.above, List.filter_filter]
    congr 1
    apply List.filter_congr
    intro r hr
    rw [Bool.and_eq_left_iff_imp, decide_eq_true_eq]
    exact fun hl ↦ hkeep r hr hl.1 hl.2
  fork_le r hr := h.fork_le r (List.mem_of_mem_filter hr)

theorem live_unique {r' : ρ} (hr : r ∈ rows) (hr' : r' ∈ rows)
    (hl : Live num value fork id common forks r) (hl' : Live num value fork id common forks r')
    (hnum : num (value r) = num (value r')) (hbase : base < num (value r)) : r = r' := by
  have hnodup : ((rows.filter (fun r ↦ decide (Live num value fork id common forks r ∧
      base < num (value r)))).map value).Nodup := by
    rw [h.above]
    exact h.numbered.nodup.sublist (List.drop_sublist _ _)
  have hval : value r = value r' :=
    h.numbered.inj (h.live_mem r hr hl) (h.live_mem r' hr' hl') hnum
  refine List.inj_on_of_nodup_map hnodup ?_ ?_ hval
  · exact List.mem_filter.mpr ⟨hr, by simpa using ⟨hl, hbase⟩⟩
  · exact List.mem_filter.mpr ⟨hr', by simpa using ⟨hl', hnum ▸ hbase⟩⟩

theorem exists_live {a : α} (ha : a ∈ chain) (hbase : base < num a) :
    ∃ r ∈ rows, value r = a ∧ Live num value fork id common forks r := by
  have hmem : a ∈ chain.drop base := by
    rw [← h.numbered.drop_filter_lt le_rfl, List.mem_filter]
    refine ⟨?_, by simpa using hbase⟩
    rw [List.mem_iff_getElem?]
    have hget := h.numbered.getElem? ha
    exact ⟨num a - 1 - base, by rw [List.getElem?_drop, ← hget]; congr 1; omega⟩
  rw [← h.above, List.mem_map] at hmem
  obtain ⟨r, hr, rfl⟩ := hmem
  obtain ⟨hr, hl⟩ := List.mem_filter.mp hr
  exact ⟨r, hr, rfl, (of_decide_eq_true hl).1⟩

theorem fork_le_of_live {r' : ρ} (hr : r ∈ rows) (hr' : r' ∈ rows)
    (hl : Live num value fork id common forks r) (hnum : num (value r') = num (value r))
    (hbase : base < num (value r)) : fork r' ≤ fork r := by
  by_contra hlt
  rw [not_le] at hlt
  have hl' : Live num value fork id common forks r' := by
    intro g hg hfg
    rw [hnum]
    exact hl g hg (hlt.trans hfg)
  have := h.live_unique hr hr' hl hl' hnum.symm hbase
  subst this
  exact absurd hlt (lt_irrefl _)

theorem live_of_newest (hbase : base < num (value r)) (hlen : num (value r) ≤ chain.length)
    (hnew : ∀ r' ∈ rows, num (value r') = num (value r) → fork r' ≤ fork r) :
    Live num value fork id common forks r := by
  have hget : chain[num (value r) - 1]? = some chain[num (value r) - 1] :=
    List.getElem?_eq_getElem (by omega)
  have hnum := h.numbered _ _ hget
  obtain ⟨r', hr', hval, hl⟩ := h.exists_live (List.mem_of_getElem? hget) (by omega)
  have hnum' : num (value r') = num (value r) := by rw [hval]; omega
  have hle := hnew r' hr' hnum'
  intro g hg hfg
  rw [← hnum']
  exact hl g hg (by omega)

end Operations

end Consistent

end ForkStore
