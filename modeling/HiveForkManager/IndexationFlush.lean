import HiveForkManager.Indexation
import HiveForkManager.Lib.ExceptList

namespace HiveForkManager

variable {β : Type}

def Ascending (blocks : List (AppliedBlock β)) : Prop :=
  blocks.Pairwise fun a b ↦ a.num < b.num

@[simp] theorem rowsOf_nil : rowsOf ([] : List (AppliedBlock β)) = fun _ ↦ [] := rfl

theorem rowsOf_cons (b : AppliedBlock β) (blocks : List (AppliedBlock β)) (kind : CacheKind) :
    rowsOf (b :: blocks) kind = (b.rows kind).map (⟨b.num, ·⟩) ++ rowsOf blocks kind := rfl

theorem rowsOf_append (xs ys : List (AppliedBlock β)) (kind : CacheKind) :
    rowsOf (xs ++ ys) kind = rowsOf xs kind ++ rowsOf ys kind := by
  simp [rowsOf]

variable {blocks : List (AppliedBlock β)}

theorem exists_of_mem_rowsOf {kind : CacheKind}
    {r : CachedRow β} (hr : r ∈ rowsOf blocks kind) : ∃ b ∈ blocks, r.blockNumber = b.num := by
  simp only [rowsOf, List.mem_flatMap, List.mem_map] at hr
  obtain ⟨b, hb, _, -, rfl⟩ := hr
  exact ⟨b, hb, rfl⟩

theorem length_rowsOf_blocks (blocks : List (AppliedBlock β)) :
    (rowsOf blocks .blocks).length = blocks.length := by
  induction blocks with
  | nil => rfl
  | cons b blocks ih => simp [rowsOf_cons, ih, b.one_block, Nat.add_comm]

theorem isEmpty_rowsOf_blocks (blocks : List (AppliedBlock β)) :
    (rowsOf blocks .blocks).isEmpty = blocks.isEmpty := by
  cases blocks with
  | nil => rfl
  | cons b blocks =>
    have h := length_rowsOf_blocks (b :: blocks)
    cases hrows : rowsOf (b :: blocks) .blocks with
    | nil => simp [hrows] at h
    | cons => rfl

theorem sorted_rowsOf (h : Ascending blocks) (kind : CacheKind) :
    (rowsOf blocks kind).Pairwise fun r r' ↦ r.blockNumber ≤ r'.blockNumber := by
  induction blocks with
  | nil => exact .nil
  | cons b blocks ih =>
    obtain ⟨hb, hblocks⟩ := List.pairwise_cons.1 h
    rw [rowsOf_cons]
    refine List.pairwise_append.2 ⟨?_, ih hblocks, fun r hr r' hr' ↦ ?_⟩
    · exact List.pairwise_map.2 (List.pairwise_of_forall fun _ _ ↦ le_rfl)
    · obtain ⟨_, -, rfl⟩ := List.mem_map.1 hr
      obtain ⟨b', hb', heq⟩ := exists_of_mem_rowsOf hr'
      exact heq ▸ (hb b' hb').le

theorem Ascending.splitAt (h : Ascending blocks) (n : ℕ) :
    ∃ front back, blocks = front ++ back ∧ (∀ b ∈ front, b.num ≤ n) ∧ ∀ b ∈ back, n < b.num := by
  induction blocks with
  | nil => exact ⟨[], [], rfl, by simp, by simp⟩
  | cons b blocks ih =>
    obtain ⟨hb, hblocks⟩ := List.pairwise_cons.1 h
    by_cases hn : b.num ≤ n
    · obtain ⟨front, back, rfl, hfront, hback⟩ := ih hblocks
      exact ⟨b :: front, back, rfl, List.forall_mem_cons.2 ⟨hn, hfront⟩, hback⟩
    · refine ⟨[], b :: blocks, rfl, by simp, List.forall_mem_cons.2 ⟨by omega, fun b' hb' ↦ ?_⟩⟩
      have := hb b' hb'
      omega

theorem IndexationState.massive_of_collectBlocks {st : IndexationState} (hst : st ≠ .live)
    (hcollect : ¬ st.collectBlocks = false) : st = .reindex ∨ st = .p2p := by
  cases st <;> simp_all [IndexationState.collectBlocks]

section Split

variable {front back : List (AppliedBlock β)} {n : ℕ}

theorem takeWhile_rowsOf (hfront : ∀ b ∈ front, b.num ≤ n) (hback : ∀ b ∈ back, n < b.num)
    (kind : CacheKind) :
    (rowsOf (front ++ back) kind).takeWhile (fun r ↦ decide (r.blockNumber ≤ n)) =
      rowsOf front kind := by
  rw [rowsOf_append, List.takeWhile_append_of_pos fun r hr ↦ ?_]
  · cases hrows : rowsOf back kind with
    | nil => simp
    | cons r rows =>
      obtain ⟨b, hb, heq⟩ := exists_of_mem_rowsOf (hrows ▸ List.mem_cons_self : r ∈ rowsOf back kind)
      have := hback b hb
      simp [show ¬ r.blockNumber ≤ n by omega]
  · obtain ⟨b, hb, heq⟩ := exists_of_mem_rowsOf hr
    simpa [heq] using hfront b hb

theorem moveItemsUptoBlock_rowsOf (hfront : ∀ b ∈ front, b.num ≤ n)
    (hback : ∀ b ∈ back, n < b.num) :
    moveItemsUptoBlock n (rowsOf (front ++ back)) = (rowsOf front, rowsOf back) := by
  refine Prod.ext (funext (takeWhile_rowsOf hfront hback)) (funext fun kind ↦ ?_)
  have h := List.takeWhile_append_dropWhile (p := fun r ↦ decide (r.blockNumber ≤ n))
    (l := rowsOf (front ++ back) kind)
  rw [takeWhile_rowsOf hfront hback] at h
  exact List.append_cancel_left (h.trans (rowsOf_append front back kind))

theorem Ascending.split_irreversible {cache : CachedData β} (h : Ascending blocks)
    (hcache : cache = rowsOf blocks) (irr : Option ℕ) :
    ∃ front back, blocks = front ++ back ∧ (∀ b ∈ front, ∃ n, irr = some n ∧ b.num ≤ n) ∧
      (∀ b ∈ back, ∀ n, irr = some n → n < b.num) ∧
      moveIrreversibleBlocks irr cache = (rowsOf front, rowsOf back) := by
  subst hcache
  cases irr with
  | none => exact ⟨[], blocks, rfl, by simp, by simp, by simp [moveIrreversibleBlocks]⟩
  | some n =>
    obtain ⟨front, back, rfl, hfront, hback⟩ := h.splitAt n
    refine ⟨front, back, rfl, fun b hb ↦ ⟨n, rfl, hfront b hb⟩, fun b hb m hm ↦ ?_, ?_⟩
    · exact Option.some.inj hm ▸ hback b hb
    · rw [moveIrreversibleBlocks, moveItemsUptoBlock_rowsOf hfront hback]

theorem filter_num_le (hfront : ∀ b ∈ front, b.num ≤ n) (hback : ∀ b ∈ back, n < b.num) :
    (front ++ back).filter (fun b ↦ decide (b.num ≤ n)) = front := by
  rw [List.filter_append, List.filter_eq_self.2 fun b hb ↦ decide_eq_true (hfront b hb),
    List.filter_eq_nil_iff.2 fun b hb ↦ by simpa using hback b hb, List.append_nil]

theorem eraseItemsGreaterThanBlock_rowsOf (hfront : ∀ b ∈ front, b.num ≤ n)
    (hback : ∀ b ∈ back, n < b.num) :
    eraseItemsGreaterThanBlock n (rowsOf (front ++ back)) = rowsOf front := by
  funext kind
  simpa only [eraseItemsGreaterThanBlock, Nat.lt_succ_iff] using takeWhile_rowsOf hfront hback kind

end Split

def liveBatch (b : AppliedBlock β) : DumpedBatch β := ⟨rowsOf [b], b.num, true⟩

namespace Indexation

def massiveBatch (front : List (AppliedBlock β)) (n : ℕ) : List (DumpedBatch β) :=
  if front.isEmpty then [] else [⟨rowsOf front, n, false⟩]

variable {s : Indexation β}

theorem flushMoved_massive (hs : s.state = .reindex ∨ s.state = .p2p)
    (front back : List (AppliedBlock β)) (n : ℕ) :
    flushMoved (rowsOf front, rowsOf back) n s =
      .ok { s with cache := rowsOf back, dumped := s.dumped ++ massiveBatch front n } := by
  simp only [flushMoved, forceTriggerFlush, isEmpty_rowsOf_blocks, massiveBatch]
  cases front with
  | nil => simp [bind, Except.bind, pure, Except.pure]
  | cons b front => rcases hs with hs | hs <;> simp [hs, bind, Except.bind, pure, Except.pure]

theorem flushCache_massive (hs : s.state = .reindex ∨ s.state = .p2p)
    {tail : List (AppliedBlock β)} (hcache : s.cache = rowsOf tail) (n : ℕ) :
    flushCache n s =
      .ok { s with cache := rowsOf [], dumped := s.dumped ++ massiveBatch tail n } := by
  simp only [flushCache, forceTriggerFlush, hcache, isEmpty_rowsOf_blocks, massiveBatch]
  cases tail with
  | nil => simp [bind, Except.bind, pure, Except.pure]
  | cons b tail => rcases hs with hs | hs <;> simp [hs, bind, Except.bind, pure, Except.pure]

theorem flushCache_nil (hcache : s.cache = rowsOf []) (n : ℕ) :
    flushCache n s = .ok s := by
  simp [flushCache, forceTriggerFlush, hcache, bind, Except.bind, pure, Except.pure]
  rw [← rowsOf_nil, ← hcache]

theorem flushMoved_live (hs : s.state = .live) (b : AppliedBlock β) (back : List (AppliedBlock β)) :
    flushMoved (rowsOf [b], rowsOf back) b.num s =
      .ok { s with cache := rowsOf back, dumped := s.dumped ++ [liveBatch b] } := by
  have hlen := length_rowsOf_blocks [b]
  simp only [flushMoved, forceTriggerFlush, isEmpty_rowsOf_blocks, hs, hlen]
  rfl

theorem flushOneByOne_eq {accept : ℕ → Bool} {front back : List (AppliedBlock β)}
    (hfront : ∀ b ∈ front, accept b.num = true) (hback : ∀ b ∈ back.head?, accept b.num = false)
    {turns : ℕ} (hturns : front.length ≤ turns) (hs : s.state = .live)
    (hasc : Ascending (front ++ back)) (hcache : s.cache = rowsOf (front ++ back)) :
    flushOneByOne accept turns s =
      .ok { s with cache := rowsOf back, dumped := s.dumped ++ front.map liveBatch } := by
  have hfirst : ∀ b (blocks : List (AppliedBlock β)), ∃ r rows,
      rowsOf (b :: blocks) .blocks = r :: rows ∧ r.blockNumber = b.num := fun b blocks ↦ by
    obtain ⟨x, hx⟩ := List.length_eq_one_iff.1 b.one_block
    exact ⟨⟨b.num, x⟩, rowsOf blocks .blocks, by simp [rowsOf_cons, hx], rfl⟩
  induction front generalizing turns s with
  | nil =>
    simp only [List.nil_append] at hcache
    suffices h : flushOneByOne accept turns s = .ok s by
      rw [h, ← hcache, List.map_nil, List.append_nil]
    cases turns with
    | zero => rfl
    | succ turns =>
      cases back with
      | nil => simp [flushOneByOne, hcache]
      | cons b back =>
        obtain ⟨r, rows, hrows, hr⟩ := hfirst b back
        simp [flushOneByOne, hcache, hrows, hr, hback b rfl]
  | cons b front ih =>
    obtain ⟨turns, rfl⟩ : ∃ t, turns = t + 1 := ⟨turns - 1, by simp at hturns; omega⟩
    obtain ⟨hb, hrest⟩ := List.pairwise_cons.1 hasc
    obtain ⟨haccept, hfront⟩ := List.forall_mem_cons.1 hfront
    obtain ⟨r, rows, hrows, hr⟩ := hfirst b (front ++ back)
    have hmove : moveItemsUptoBlock b.num (rowsOf (b :: (front ++ back))) =
        (rowsOf [b], rowsOf (front ++ back)) :=
      moveItemsUptoBlock_rowsOf (by simp : ∀ b' ∈ [b], b'.num ≤ b.num) hb
    rw [List.cons_append] at hcache
    simp only [flushOneByOne, hcache, hrows, hr, haccept, if_true, hmove, flushMoved_live hs]
    refine (ih hfront (by simpa using hturns) ?_ hrest ?_).trans ?_
    · exact hs
    · rfl
    · simp

end Indexation

end HiveForkManager
