import HiveForkManager.World

namespace HiveForkManager

namespace HistoryEntry

def irr (a : HistoryEntry) : ℕ := a.consistentBlock.getD 0

def height (a : HistoryEntry) : ℕ := a.chain.length

def origin : HistoryEntry := ⟨⟨0, .newIrreversible, 0⟩, [], 1, none⟩

def Follows (a b : HistoryEntry) : Prop :=
  match b.event.event with
  | .newBlock => (∃ d, b.chain = a.chain ++ [d]) ∧ b.event.blockNum = b.height ∧
      b.forkId = a.forkId ∧ b.consistentBlock = a.consistentBlock
  | .backFromFork => b.chain = a.chain.take b.height ∧ a.irr ≤ b.height ∧
      b.forkId = a.forkId + 1 ∧ b.event.blockNum = b.forkId ∧
      b.consistentBlock = a.consistentBlock
  | .newIrreversible => b.chain = a.chain ∧ b.forkId = a.forkId ∧
      b.consistentBlock = some b.event.blockNum ∧ a.irr ≤ b.event.blockNum ∧
      b.event.blockNum ≤ b.height ∧ 0 < b.event.blockNum
  | .massiveSync => a.chain <+: b.chain ∧ a.height = a.irr ∧ b.forkId = a.forkId ∧
      b.consistentBlock = some b.event.blockNum ∧ b.event.blockNum = b.height ∧
      0 < b.event.blockNum

section Cases

variable {a b : HistoryEntry}

theorem Follows.newBlock (h : a.Follows b) (hev : b.event.event = .newBlock) :
    (∃ d, b.chain = a.chain ++ [d]) ∧ b.event.blockNum = b.height ∧ b.forkId = a.forkId ∧
      b.consistentBlock = a.consistentBlock := by
  unfold Follows at h
  simpa only [hev] using h

theorem Follows.backFromFork (h : a.Follows b) (hev : b.event.event = .backFromFork) :
    b.chain = a.chain.take b.height ∧ a.irr ≤ b.height ∧ b.forkId = a.forkId + 1 ∧
      b.event.blockNum = b.forkId ∧ b.consistentBlock = a.consistentBlock := by
  unfold Follows at h
  simpa only [hev] using h

theorem Follows.newIrreversible (h : a.Follows b) (hev : b.event.event = .newIrreversible) :
    b.chain = a.chain ∧ b.forkId = a.forkId ∧ b.consistentBlock = some b.event.blockNum ∧
      a.irr ≤ b.event.blockNum ∧ b.event.blockNum ≤ b.height ∧ 0 < b.event.blockNum := by
  unfold Follows at h
  simpa only [hev] using h

theorem Follows.massiveSync (h : a.Follows b) (hev : b.event.event = .massiveSync) :
    a.chain <+: b.chain ∧ a.height = a.irr ∧ b.forkId = a.forkId ∧
      b.consistentBlock = some b.event.blockNum ∧ b.event.blockNum = b.height ∧
      0 < b.event.blockNum := by
  unfold Follows at h
  simpa only [hev] using h

end Cases

/-- What an earlier event has to do with a later one: irreversible blocks stay, and without a fork
in between all blocks stay. -/
structure Precedes (a b : HistoryEntry) : Prop where
  irr : a.irr ≤ b.irr
  fork : a.forkId ≤ b.forkId
  irreversible : a.chain.take a.irr <+: b.chain
  sameFork : a.forkId = b.forkId → a.chain <+: b.chain

theorem Precedes.refl (a : HistoryEntry) : a.Precedes a :=
  ⟨le_rfl, le_rfl, List.take_prefix _ _, fun _ ↦ List.prefix_refl _⟩

variable {a b : HistoryEntry}

theorem Precedes.trans {c : HistoryEntry} (hab : a.Precedes b) (hbc : b.Precedes c) :
    a.Precedes c where
  irr := hab.irr.trans hbc.irr
  fork := hab.fork.trans hbc.fork
  irreversible := by
    have hlen : (a.chain.take a.irr).length ≤ b.irr :=
      (List.length_take_le _ _).trans hab.irr
    exact (List.prefix_take_iff.mpr ⟨hab.irreversible, hlen⟩).trans hbc.irreversible
  sameFork h := by
    have h₁ := hab.fork
    have h₂ := hbc.fork
    exact (hab.sameFork (by omega)).trans (hbc.sameFork (by omega))

instance : Trans Precedes Precedes Precedes := ⟨Precedes.trans⟩

theorem Follows.precedes (h : a.Follows b) : a.Precedes b := by
  cases hev : b.event.event with
  | newBlock =>
    obtain ⟨⟨d, hd⟩, -, hf, hc⟩ := h.newBlock hev
    have hpre : a.chain <+: b.chain := hd ▸ List.prefix_append _ _
    exact ⟨by rw [irr, irr, hc], hf.ge, (List.take_prefix _ _).trans hpre, fun _ ↦ hpre⟩
  | backFromFork =>
    obtain ⟨hch, hirr, hf, -, hc⟩ := h.backFromFork hev
    refine ⟨by rw [irr, irr, hc], by omega, ?_, fun he ↦ by omega⟩
    rw [hch]
    exact List.take_prefix_take_left hirr
  | newIrreversible =>
    obtain ⟨hch, hf, hc, hirr, -, -⟩ := h.newIrreversible hev
    refine ⟨by simpa [irr, hc] using hirr, hf.ge, hch ▸ List.take_prefix _ _,
      fun _ ↦ hch ▸ List.prefix_refl _⟩
  | massiveSync =>
    obtain ⟨hpre, hlen, hf, hc, hnum, -⟩ := h.massiveSync hev
    have hle : a.height ≤ b.height := hpre.length_le
    refine ⟨?_, hf.ge, (List.take_prefix _ _).trans hpre, fun _ ↦ hpre⟩
    rw [← hlen, irr, hc, Option.getD_some, hnum]
    exact hle

end HistoryEntry

open HistoryEntry

structure IsHistory (history : List HistoryEntry) : Prop where
  first : history.head? = some origin
  ids : ∀ (i : ℕ) (a : HistoryEntry), history[i]? = some a → a.event.id = i
  follows : history.IsChain Follows

namespace IsHistory

variable {history : List HistoryEntry} {i j : ℕ} {a b : HistoryEntry}

theorem initial : IsHistory [origin] where
  first := rfl
  ids i a h := by
    cases i with
    | zero => simp only [List.getElem?_cons_zero, Option.some.injEq] at h; exact h ▸ rfl
    | succ i => simp at h
  follows := List.isChain_singleton _

theorem length_pos (h : IsHistory history) : 0 < history.length := by
  cases history with
  | nil => exact absurd h.first (by simp)
  | cons a l => simp

theorem getElem?_zero (h : IsHistory history) : history[0]? = some origin := by
  rw [← h.first, List.head?_eq_getElem?]

theorem exists_of_mem (h : IsHistory history) (ha : a ∈ history) :
    history[a.event.id]? = some a := by
  obtain ⟨i, hi⟩ := List.mem_iff_getElem?.mp ha
  rw [h.ids i a hi]
  exact hi

theorem succ_follows (h : IsHistory history) (ha : history[i]? = some a)
    (hb : history[i + 1]? = some b) : a.Follows b := by
  obtain ⟨hi, rfl⟩ := List.getElem?_eq_some_iff.mp ha
  obtain ⟨hj, rfl⟩ := List.getElem?_eq_some_iff.mp hb
  exact List.isChain_iff_getElem.mp h.follows i hj

theorem precedes (h : IsHistory history) (hij : i ≤ j) (ha : history[i]? = some a)
    (hb : history[j]? = some b) : a.Precedes b := by
  obtain ⟨hi, rfl⟩ := List.getElem?_eq_some_iff.mp ha
  obtain ⟨hj, rfl⟩ := List.getElem?_eq_some_iff.mp hb
  rcases hij.eq_or_lt with rfl | hlt
  · exact Precedes.refl _
  · have hpair := List.isChain_iff_pairwise.mp (h.follows.imp fun _ _ ↦ Follows.precedes)
    exact List.pairwise_iff_getElem.mp hpair i j hi hj hlt

theorem exists_pred (h : IsHistory history) (hb : history[i + 1]? = some b) :
    ∃ a, history[i]? = some a ∧ a.Follows b := by
  obtain ⟨hj, -⟩ := List.getElem?_eq_some_iff.mp hb
  have ha : history[i]? = some history[i] := List.getElem?_eq_getElem (by omega)
  exact ⟨_, ha, h.succ_follows ha hb⟩

theorem between (h : IsHistory history) {P : HistoryEntry → Prop} (hij : i ≤ j)
    (ha : history[i]? = some a) (hb : history[j]? = some b) (hP : P a)
    (hstep : ∀ k x y, i ≤ k → k < j → history[k]? = some x → history[k + 1]? = some y →
      x.Follows y → P x → P y) : P b := by
  induction j, hij using Nat.le_induction generalizing b with
  | base =>
    rw [ha, Option.some.injEq] at hb
    exact hb ▸ hP
  | succ k hik ih =>
    obtain ⟨x, hx, hfollows⟩ := h.exists_pred hb
    refine hstep k x b hik k.lt_succ_self hx hb hfollows (ih hx fun l x y hl hlk ↦ ?_)
    exact hstep l x y hl (hlk.trans k.lt_succ_self)

theorem irr_of_irreversible (h : IsHistory history) (ha : history[i]? = some a)
    (htype : a.event.event = .newIrreversible ∨ a.event.event = .massiveSync) :
    a.irr = a.event.blockNum := by
  cases i with
  | zero =>
    rw [h.getElem?_zero, Option.some.injEq] at ha
    exact ha ▸ rfl
  | succ i =>
    obtain ⟨b, -, hstep⟩ := h.exists_pred ha
    rcases htype with hev | hev
    · obtain ⟨-, -, hc, -⟩ := hstep.newIrreversible hev
      rw [irr, hc, Option.getD_some]
    · obtain ⟨-, -, -, hc, -⟩ := hstep.massiveSync hev
      rw [irr, hc, Option.getD_some]

theorem blockNum_of_newBlock (h : IsHistory history) (ha : history[i]? = some a)
    (hev : a.event.event = .newBlock) : a.event.blockNum = a.height := by
  cases i with
  | zero =>
    rw [h.getElem?_zero, Option.some.injEq] at ha
    subst ha
    cases hev
  | succ i =>
    obtain ⟨b, -, hstep⟩ := h.exists_pred ha
    exact (hstep.newBlock hev).2.1

theorem exists_newBlock (h : IsHistory history) {n : ℕ}
    (hirr : ∀ x ∈ history, x.irr ≤ n) (ha : history[i]? = some a) (hn : n < a.height) :
    ∃ j b, j ≤ i ∧ history[j]? = some b ∧ b.event.event = .newBlock ∧ b.height = n + 1 := by
  induction i generalizing a with
  | zero =>
    rw [h.getElem?_zero, Option.some.injEq] at ha
    subst ha
    exact absurd hn (Nat.not_lt_zero _)
  | succ i ih =>
    obtain ⟨x, hx, hstep⟩ := h.exists_pred ha
    by_cases hlt : n < x.height
    · obtain ⟨j, b, hj, hb⟩ := ih hx hlt
      exact ⟨j, b, by omega, hb⟩
    · cases hev : a.event.event with
      | newBlock =>
        obtain ⟨⟨d, hd⟩, -⟩ := hstep.newBlock hev
        have hlen : a.height = x.height + 1 := by rw [height, hd, List.length_append]; rfl
        exact ⟨i + 1, a, le_rfl, ha, hev, by omega⟩
      | backFromFork =>
        have hlen : a.height ≤ x.height := by
          rw [height, (hstep.backFromFork hev).1, List.length_take]
          exact Nat.min_le_right _ _
        omega
      | newIrreversible =>
        have hlen : a.height = x.height := by rw [height, (hstep.newIrreversible hev).1, height]
        omega
      | massiveSync =>
        have hle := hirr a (List.mem_of_getElem? ha)
        have hnum := (hstep.massiveSync hev).2.2.2.2.1
        rw [h.irr_of_irreversible ha (.inr hev), hnum] at hle
        omega

theorem forkId_eq (h : IsHistory history) (hij : i ≤ j) (ha : history[i]? = some a)
    (hb : history[j]? = some b)
    (hfork : ∀ k x, i < k → k ≤ j → history[k]? = some x → x.event.event ≠ .backFromFork) :
    b.forkId = a.forkId := by
  refine h.between (P := fun x ↦ x.forkId = a.forkId) hij ha hb rfl fun k x y hk hkj _ hy hxy hx ↦ ?_
  rw [← hx]
  cases hev : y.event.event with
  | newBlock => exact (hxy.newBlock hev).2.2.1
  | backFromFork => exact absurd hev (hfork (k + 1) y (by omega) hkj hy)
  | newIrreversible => exact (hxy.newIrreversible hev).2.1
  | massiveSync => exact (hxy.massiveSync hev).2.2.1

theorem append (h : IsHistory history) (ha : history.getLast? = some a) (hb : a.Follows b)
    (hid : b.event.id = history.length) : IsHistory (history ++ [b]) where
  first := by rw [List.head?_append, h.first, Option.some_or]
  ids i c hc := by
    rcases Nat.lt_or_ge i history.length with hi | hi
    · rw [List.getElem?_append_left hi] at hc
      exact h.ids i c hc
    · rw [List.getElem?_append_right hi, List.getElem?_singleton] at hc
      split at hc
      · rw [← Option.some.inj hc, hid]
        omega
      · exact absurd hc (by simp)
  follows := by
    rw [List.isChain_append]
    refine ⟨h.follows, List.isChain_singleton _, ?_⟩
    intro x hx y hy
    rw [ha, Option.mem_some_iff] at hx
    rw [List.head?_cons, Option.mem_some_iff] at hy
    exact hx ▸ hy ▸ hb

end IsHistory

end HiveForkManager
