import Mathlib

namespace UndoLog

variable {σ ρ : Type} (key : ρ → ℕ) (undo : ρ → σ → σ)

/-- Undoes the records whose key is above `b`, the newest first. -/
def undoAbove (b : ℕ) (log : List ρ) (s : σ) : σ :=
  (log.filter (fun r ↦ decide (b < key r))).foldr undo s

variable {key undo} {b c : ℕ} {log rs : List ρ} {s t : σ}

theorem undoAbove_eq_self (h : ∀ r ∈ log, key r ≤ b) : undoAbove key undo b log s = s := by
  have hf : log.filter (fun r ↦ decide (b < key r)) = [] := by
    simpa only [List.filter_eq_nil_iff, decide_eq_true_eq, not_lt] using h
  rw [undoAbove, hf, List.foldr_nil]

theorem undoAbove_append (h : ∀ r ∈ rs, b < key r) :
    undoAbove key undo b (log ++ rs) s = undoAbove key undo b log (rs.foldr undo s) := by
  have hf : rs.filter (fun r ↦ decide (b < key r)) = rs := by
    simpa only [List.filter_eq_self, decide_eq_true_eq] using h
  rw [undoAbove, List.filter_append, hf, List.foldr_append, undoAbove]

theorem undoAbove_filter_lt (h : c ≤ b) :
    undoAbove key undo b (log.filter (fun r ↦ decide (c < key r))) s =
      undoAbove key undo b log s := by
  have hf : ∀ r ∈ log, (decide (b < key r) && decide (c < key r)) = decide (b < key r) := by
    intro r _
    rw [Bool.and_eq_left_iff_imp, decide_eq_true_eq, decide_eq_true_eq]
    omega
  rw [undoAbove, List.filter_filter, List.filter_congr hf, undoAbove]

theorem filter_lt_eq_append (hlog : log.Pairwise (key · ≤ key ·)) (h : b ≤ c) :
    log.filter (fun r ↦ decide (b < key r)) =
      (log.filter (fun r ↦ decide (key r ≤ c))).filter (fun r ↦ decide (b < key r)) ++
        log.filter (fun r ↦ decide (c < key r)) := by
  induction log with
  | nil => rfl
  | cons r log ih =>
    rw [List.pairwise_cons] at hlog
    by_cases hr : key r ≤ c
    · by_cases hb : b < key r <;> simp [hr, hb, ih hlog.2, Nat.not_lt.mpr hr]
    · -- everything after a record above `c` is above `c` as well
      have hlow : log.filter (fun r ↦ decide (key r ≤ c)) = [] := by
        simp only [List.filter_eq_nil_iff, decide_eq_true_eq]
        intro x hx
        have := hlog.1 x hx
        omega
      have ih' := ih hlog.2
      rw [hlow, List.filter_nil, List.nil_append] at ih'
      have hbr : b < key r := by omega
      simp [hr, hlow, ih', hbr, Nat.lt_of_not_le hr]

theorem undoAbove_undoAbove (hlog : log.Pairwise (key · ≤ key ·)) (h : b ≤ c) :
    undoAbove key undo b (log.filter (fun r ↦ decide (key r ≤ c))) (undoAbove key undo c log s) =
      undoAbove key undo b log s := by
  rw [undoAbove, undoAbove, undoAbove, filter_lt_eq_append hlog h, List.foldr_append]

theorem undoAbove_congr {R : σ → σ → Prop} (hundo : ∀ r s t, R s t → R (undo r s) (undo r t))
    (h : R s t) : R (undoAbove key undo b log s) (undoAbove key undo b log t) := by
  rw [undoAbove, undoAbove]
  induction log.filter (fun r ↦ decide (b < key r)) with
  | nil => exact h
  | cons r rs ih => exact hundo r _ _ ih

/-- The state is right for the key `cur`, and undoing to any key from `base` on gives a state that
is right for that key. -/
structure Restorable (key : ρ → ℕ) (undo : ρ → σ → σ) (P : ℕ → σ → Prop) (base cur : ℕ)
    (log : List ρ) (s : σ) : Prop where
  ordered : log.Pairwise (key · ≤ key ·)
  bounded : ∀ r ∈ log, key r ≤ cur
  current : P cur s
  restores : ∀ b, base ≤ b → b < cur → P b (undoAbove key undo b log s)

namespace Restorable

variable {P P' : ℕ → σ → Prop} {base cur cur' : ℕ}

theorem restores_le (h : Restorable key undo P base cur log s) (hb : base ≤ b) (hc : b ≤ cur) :
    P b (undoAbove key undo b log s) := by
  rcases hc.eq_or_lt with rfl | hlt
  · rw [undoAbove_eq_self h.bounded]
    exact h.current
  · exact h.restores b hb hlt

theorem of_le_base (hlog : log.Pairwise (key · ≤ key ·)) (hbound : ∀ r ∈ log, key r ≤ cur)
    (hs : P cur s) (hcur : cur ≤ base) : Restorable key undo P base cur log s :=
  ⟨hlog, hbound, hs, fun b hb hc ↦ absurd hc (by omega)⟩

theorem mono_base (h : Restorable key undo P base cur log s) (hb : base ≤ c) :
    Restorable key undo P c cur log s :=
  ⟨h.ordered, h.bounded, h.current, fun b hc hcur ↦ h.restores b (hb.trans hc) hcur⟩

theorem purge (h : Restorable key undo P base cur log s) (hb : base ≤ c) :
    Restorable key undo P c cur (log.filter (fun r ↦ decide (c < key r))) s where
  ordered := h.ordered.filter _
  bounded r hr := h.bounded r (List.mem_of_mem_filter hr)
  current := h.current
  restores b hcb hcur := by
    rw [undoAbove_filter_lt hcb]
    exact h.restores b (hb.trans hcb) hcur

theorem rewind (h : Restorable key undo P base cur log s) (hb : base ≤ c) (hc : c ≤ cur) :
    Restorable key undo P base c (log.filter (fun r ↦ decide (key r ≤ c)))
      (undoAbove key undo c log s) where
  ordered := h.ordered.filter _
  bounded r hr := by simpa using (List.mem_filter.mp hr).2
  current := h.restores_le hb hc
  restores b hbb hbc := by
    rw [undoAbove_undoAbove h.ordered hbc.le]
    exact h.restores b hbb (hbc.trans_le hc)

theorem extend {R : σ → σ → Prop} (hundo : ∀ r s t, R s t → R (undo r s) (undo r t))
    (hP : ∀ b s t, R s t → P b t → P b s) (h : Restorable key undo P base cur log s)
    (hcur : cur ≤ cur') (hrs : ∀ r ∈ rs, key r = cur') (ht : R (rs.foldr undo t) s)
    (hagree : ∀ b s, b < cur' → P b s → P' b s) (hmid : ∀ b, base ≤ b → cur < b → b < cur' → P b s)
    (hcurrent : P' cur' t) : Restorable key undo P' base cur' (log ++ rs) t where
  ordered := by
    rw [List.pairwise_append]
    refine ⟨h.ordered, ?_, ?_⟩
    · rw [List.pairwise_iff_getElem]
      intro i j hi hj _
      rw [hrs _ (List.getElem_mem hi), hrs _ (List.getElem_mem hj)]
    · intro r hr r' hr'
      rw [hrs r' hr']
      exact (h.bounded r hr).trans hcur
  bounded r hr := by
    rcases List.mem_append.mp hr with hr | hr
    · exact (h.bounded r hr).trans hcur
    · exact (hrs r hr).le
  current := hcurrent
  restores b hb hbc := by
    have hkey : ∀ r ∈ rs, b < key r := fun r hr ↦ (hrs r hr).symm ▸ hbc
    rw [undoAbove_append hkey]
    apply hagree b _ hbc
    apply hP b _ _ (undoAbove_congr hundo ht)
    rcases Nat.lt_or_ge cur b with hlt | hle
    · rw [undoAbove_eq_self fun r hr ↦ (h.bounded r hr).trans hlt.le]
      exact hmid b hb hlt hbc
    · exact h.restores_le hb hle

end Restorable

end UndoLog
