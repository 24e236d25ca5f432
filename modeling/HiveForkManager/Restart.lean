import HiveForkManager.IrreversibleRows
import HiveForkManager.Views

namespace HiveForkManager

open ExceptList

structure Instance extends Hafd where
  isDirty : Bool
  liteSchema : Bool
  /-- `fk_1_hive_irreversible_data` is there; a massive sync drops it. -/
  stateForeignKey : Bool
  deriving DecidableEq, Repr

namespace Instance

variable {s s' : Instance}

/-- `hive.remove_inconsistent_irreversible_data`. A comparison with `NULL` deletes nothing. -/
def removeInconsistentIrreversibleData (s : Instance) : Instance :=
  if s.isDirty then
    { s with
      irreversible := s.irreversible.cut (fun n ↦ !s.consistentBlock.any (fun c ↦ decide (c < n)))
      isDirty := false }
  else s

section Exact

/-- The rows of the blocks up to a bound, when the transaction of a hash is in block `blockOf`. -/
def rowsUpTo (bound : Option ℕ) (blockOf : Bytea → ℕ) (t : IrreversibleTables) :
    IrreversibleTables where
  blocks := t.blocks.filter (fun b ↦ bound.any (fun c ↦ decide (b.num ≤ c)))
  transactions := t.transactions.filter (fun x ↦ bound.any (fun c ↦ decide (x.blockNum ≤ c)))
  transactionsMultisig := t.transactionsMultisig.filter
    (fun s ↦ bound.any (fun c ↦ decide (blockOf s.trxHash ≤ c)))
  operations := t.operations.filter
    (fun o ↦ bound.any (fun c ↦ decide (operationIdToBlockNum o.id ≤ c)))
  accounts := t.accounts.filter
    (fun a ↦ bound.any (fun c ↦ a.blockNum.all (fun n ↦ decide (n ≤ c))))
  accountOperations := t.accountOperations.filter
    (fun a ↦ bound.any (fun c ↦ decide (operationIdToBlockNum a.operationId ≤ c)))
  appliedHardforks := t.appliedHardforks.filter
    (fun x ↦ bound.any (fun c ↦ decide (x.blockNum ≤ c)))

theorem signatures_cut {t : IrreversibleTables} {blockOf : Bytea → ℕ} {c : ℕ}
    (hblockOf : ∀ x ∈ t.transactions, blockOf x.trxHash = x.blockNum)
    (hsigned : ∀ m ∈ t.transactionsMultisig, c < blockOf m.trxHash →
      ∃ x ∈ t.transactions, x.trxHash = m.trxHash) :
    (t.cut (fun n ↦ decide (n ≤ c))).transactionsMultisig =
      t.transactionsMultisig.filter (fun m ↦ decide (blockOf m.trxHash ≤ c)) := by
  refine List.filter_congr fun m hm ↦ ?_
  rw [Bool.eq_iff_iff, Bool.not_eq_true', List.any_eq_false, decide_eq_true_iff]
  constructor
  · intro hnone
    by_contra hlt
    obtain ⟨x, hx, hhash⟩ := hsigned m hm (not_le.mp hlt)
    rw [← hhash, hblockOf x hx] at hlt
    exact hnone x hx (by simp [hhash, hlt])
  · intro hle x hx hdeleted
    simp only [Bool.and_eq_true, Bool.not_eq_true', decide_eq_false_iff_not,
      decide_eq_true_eq] at hdeleted
    rw [← hdeleted.2, hblockOf x hx] at hle
    exact hdeleted.1 hle

theorem signed_of_cut {t : IrreversibleTables} {blockOf : Bytea → ℕ} {c : ℕ}
    (hcut : (t.cut (fun n ↦ decide (n ≤ c))).transactionsMultisig =
      t.transactionsMultisig.filter (fun m ↦ decide (blockOf m.trxHash ≤ c)))
    {m : TransactionMultisig} (hm : m ∈ t.transactionsMultisig) (hlt : c < blockOf m.trxHash) :
    ∃ x ∈ t.transactions, x.trxHash = m.trxHash := by
  by_contra hnone
  have hkept : m ∈ (t.cut (fun n ↦ decide (n ≤ c))).transactionsMultisig := by
    refine List.mem_filter.mpr ⟨hm, ?_⟩
    rw [Bool.not_eq_true', List.any_eq_false]
    intro x hx hdeleted
    exact hnone ⟨x, hx, of_decide_eq_true (Bool.and_eq_true_iff.mp hdeleted).2⟩
  rw [hcut] at hkept
  exact absurd (of_decide_eq_true (List.mem_filter.mp hkept).2) (not_le.mpr hlt)

/-- A signature of a block above the consistent one has its transaction row; without a consistent
block there are no rows. -/
def Removable (blockOf : Bytea → ℕ) (s : Instance) : Prop :=
  match s.consistentBlock with
  | some c => ∀ m ∈ s.irreversible.transactionsMultisig, c < blockOf m.trxHash →
      ∃ x ∈ s.irreversible.transactions, x.trxHash = m.trxHash
  | none => s.irreversible = {}

theorem cut_true (t : IrreversibleTables) : t.cut (fun _ ↦ true) = t := by
  have hsigned : t.transactionsMultisig.filter (fun s ↦ !t.transactions.any
      (fun x ↦ !true && decide (x.trxHash = s.trxHash))) = t.transactionsMultisig := by
    refine List.filter_eq_self.mpr fun s _ ↦ ?_
    rw [Bool.not_eq_true', List.any_eq_false]
    exact fun x _ ↦ Bool.false_ne_true
  rw [IrreversibleTables.cut, hsigned]
  simp

/-- After an interrupted massive sync exactly the rows up to the consistent block are left and the
state is clean, if and only if no signature was written ahead of its transaction, and no row at all
where there is no consistent block. -/
theorem remove_inconsistent_exact {blockOf : Bytea → ℕ} (hdirty : s.isDirty = true)
    (hblockOf : ∀ x ∈ s.irreversible.transactions, blockOf x.trxHash = x.blockNum) :
    s.removeInconsistentIrreversibleData =
        { s with irreversible := rowsUpTo s.consistentBlock blockOf s.irreversible
                 isDirty := false } ↔
      s.Removable blockOf := by
  rw [removeInconsistentIrreversibleData, if_pos hdirty, Removable]
  cases hc : s.consistentBlock with
  | none =>
    have hrows : rowsUpTo none blockOf s.irreversible = {} := by
      simp [rowsUpTo]
    have hcut : s.irreversible.cut (fun n ↦ !(none : Option ℕ).any fun c ↦ decide (c < n)) =
        s.irreversible := cut_true _
    rw [hrows, hcut]
    exact ⟨fun h ↦ congrArg (fun s : Instance ↦ s.irreversible) h, fun h ↦ by rw [h]⟩
  | some c =>
    have hkeep : (fun n ↦ !(some c).any (fun c ↦ decide (c < n))) = fun n ↦ decide (n ≤ c) := by
      funext n
      rw [Option.any_some, ← decide_not]
      exact decide_eq_decide.mpr not_lt
    rw [hkeep]
    constructor
    · intro h m hm hlt
      exact signed_of_cut (congrArg (fun s : Instance ↦ s.irreversible.transactionsMultisig) h) hm
        hlt
    · intro hsigned
      have hrows : s.irreversible.cut (fun n ↦ decide (n ≤ c)) =
          rowsUpTo (some c) blockOf s.irreversible := by
        rw [IrreversibleTables.mk.injEq]
        exact ⟨rfl, rfl, signatures_cut hblockOf hsigned, rfl, rfl, rfl, rfl⟩
      rw [hrows]

def numbered (num : ℕ) : Block := { (default : Block) with num }

def hashed (blockNum : ℕ) (trxHash : Bytea) : Transaction :=
  { (default : Transaction) with blockNum, trxHash }

def interrupted (consistentBlock : Option ℕ) (transactions : List Transaction) : Instance :=
  { Hafd.initial with
    hiveState := { consistentBlock }
    irreversible :=
      { blocks := [numbered 1, numbered 2]
        transactions
        transactionsMultisig := [⟨[2], [7]⟩] }
    isDirty := true
    liteSchema := false
    stateForeignKey := false }

theorem interrupted_exact :
    (interrupted (some 1) [hashed 2 [2]]).removeInconsistentIrreversibleData =
      { interrupted (some 1) [hashed 2 [2]] with
        irreversible := rowsUpTo (some 1) (fun _ ↦ 2)
          (interrupted (some 1) [hashed 2 [2]]).irreversible
        isDirty := false } :=
  (remove_inconsistent_exact rfl (by decide)).mpr (by simp [Removable, interrupted, hashed,
    Hafd.consistentBlock])

/-- Without a consistent block nothing is removed. A signature that was written before its
transaction stays. Both times the state is marked clean. -/
theorem inconsistent_rows_stay :
    ((interrupted none []).removeInconsistentIrreversibleData.irreversible.blocks =
        [numbered 1, numbered 2] ∧
      (rowsUpTo none (fun _ ↦ 2) (interrupted none []).irreversible).blocks = [] ∧
      (interrupted none []).removeInconsistentIrreversibleData.isDirty = false) ∧
    ((interrupted (some 1) []).removeInconsistentIrreversibleData.irreversible.transactionsMultisig =
        [⟨[2], [7]⟩] ∧
      (rowsUpTo (some 1) (fun _ ↦ 2) (interrupted (some 1) []).irreversible).transactionsMultisig =
        [] ∧
      (interrupted (some 1) []).removeInconsistentIrreversibleData.isDirty = false) := by
  decide

end Exact

section Connect

/-- `hive.blocks_view`, which the lite schema restricts to the irreversible table. -/
def blocksView (s : Instance) : List Block :=
  if s.liteSchema then s.irreversible.blocks else s.toHafd.blocksView

/-- The reversible blocks that `hive.blocks_view` shows in the full schema. -/
def shownReversible (s : Instance) : List Block :=
  joinForks (fun x ↦ some x.num) s.headForks s.reversible.blocks

/-- The part of `hive.connect` that chooses the schema. -/
def chooseSchema (liteSchema : Bool) (s : Instance) : Except Error Instance :=
  if liteSchema && !s.liteSchema then
    if s.headOfBlocks = 0 then .ok { s with liteSchema := true }
    else .error (.raiseException "Cannot enable lite schema on database with existing blocks")
  else .ok s

/-- The `DELETE` statements of `hive.connect` in lite mode, which are those of
`hive.back_from_fork`. -/
def deleteAbove (blockNum : ℕ) (s : Instance) : Except Error Instance :=
  if s.stateForeignKey && s.irreversible.blocks.any
      (fun b ↦ decide (blockNum < b.num ∧ s.consistentBlock = some b.num)) then
    .error (.foreignKeyViolation "fk_1_hive_irreversible_data")
  else .ok { s with toHafd := backFromForkLite blockNum s.toHafd }

/-- hived is behind the blocks that are shown; a comparison with `NULL` is not true. -/
def isAhead (blockNum : ℕ) (s : Instance) : Bool :=
  (s.blocksView.map Block.num).max?.any (fun maxBlock ↦ decide (blockNum < maxBlock)) ||
    decide (blockNum = 0)

/-- The part of `hive.connect` that takes back the blocks above the head of hived. -/
def takeBack (blockNum : ℕ) (liteMode : Bool) (s : Instance) : Except Error Instance :=
  if liteMode then
    if s.isAhead blockNum then s.deleteAbove blockNum else .ok s
  else if blockNum < s.headOfBlocks then
    .error (.raiseException "HAF database irreversible top block is above hived head block")
  else if s.isAhead blockNum then do
    let h ← backFromFork blockNum s.toHafd
    pure { s with toHafd := h }
  else .ok s

def setPruning (pruning : ℕ) (s : Instance) : Except Error Instance :=
  if 0 < s.hiveState.pruning ∧ pruning = 0 then
    .error (.assertFailure "Cannot initialize as non-pruned: existing database is pruned")
  else .ok { s with hiveState := { s.hiveState with pruning } }

def connect (blockNum pruning : ℕ) (liteMode liteSchema : Bool) (s : Instance) :
    Except Error Instance := do
  let s ← s.chooseSchema liteSchema
  if s.liteSchema && !liteMode then
    .error (.raiseException "Cannot run full mode on a lite-schema database")
  else if 0 < s.headOfBlocks ∧ s.hiveState.liteMode ≠ liteMode then
    .error (.assertFailure "Cannot switch lite mode")
  else do
    let moded : Instance := { s with hiveState := { s.hiveState with liteMode } }
    let taken ← moded.removeInconsistentIrreversibleData.takeBack blockNum liteMode
    taken.setPruning pruning

/-- A block of this number is in `hafd.blocks`. -/
def Stored (s : Instance) (n : ℕ) : Prop := ∃ b ∈ s.irreversible.blocks, b.num = n

/-- What a start can rely on: the consistent block is stored; the rows that are not left over from
an interrupted massive sync belong to stored blocks; a signature has its transaction; and a massive
sync was interrupted only after a block had been announced. -/
structure Left (s : Instance) : Prop where
  consistent : ∀ c ∈ s.consistentBlock, s.Stored c
  rows : s.irreversible.Within (fun n ↦
    (s.isDirty = true → ∀ c ∈ s.consistentBlock, n ≤ c) → s.Stored n)
  announced : s.isDirty = true → s.consistentBlock ≠ none

/-- What holds after a start of hived at the head block `blockNum`. -/
structure Coherent (s : Instance) (blockNum : ℕ) (s' : Instance) : Prop where
  consistent : ∀ c ∈ s'.consistentBlock, s'.Stored c ∧ c ≤ blockNum
  rows : s'.irreversible.Within (fun n ↦ n ≤ s'.headOfBlocks)
  takenBack : ∀ b ∈ s.blocksView, blockNum < b.num → b ∉ s'.blocksView ∨
    ∃ f ∈ s'.forks, f.blockNum = blockNum ∧ ∀ f' ∈ s.forks, f'.id < f.id

theorem Stored.le_headOfBlocks {n : ℕ} (h : s.Stored n) : n ≤ s.headOfBlocks := by
  obtain ⟨b, hb, rfl⟩ := h
  have hmem : b.num ∈ s.irreversible.blocks.map Block.num := List.mem_map_of_mem hb
  cases hmax : (s.irreversible.blocks.map Block.num).max? with
  | none => rw [List.max?_eq_none_iff] at hmax; rw [hmax] at hmem; cases hmem
  | some m =>
    rw [Hafd.headOfBlocks, hmax]
    exact (List.max?_eq_some_iff.mp hmax).2 _ hmem

/-- After the cleanup all rows belong to stored blocks, and the state is as it was otherwise. -/
structure Cleaned (s s₁ : Instance) : Prop where
  consistent : ∀ c ∈ s₁.consistentBlock, s₁.Stored c
  rows : s₁.irreversible.Within s₁.Stored
  forks : s₁.forks = s.forks
  reversible : s₁.reversible = s.reversible
  consistentBlock : s₁.consistentBlock = s.consistentBlock
  stateForeignKey : s₁.stateForeignKey = s.stateForeignKey

theorem Left.cleaned (h : s.Left) : Cleaned s s.removeInconsistentIrreversibleData := by
  rw [removeInconsistentIrreversibleData]
  split
  case isTrue hdirty =>
    obtain ⟨c, hc⟩ := Option.ne_none_iff_exists'.mp (h.announced hdirty)
    have hkeep : ∀ {n}, (!s.consistentBlock.any (fun c ↦ decide (c < n))) = true ↔ n ≤ c := by
      intro n
      simp [hc]
    have hstored : ∀ n, s.Stored n → n ≤ c → ∃ b ∈ (s.irreversible.cut
        (fun n ↦ !s.consistentBlock.any (fun c ↦ decide (c < n)))).blocks, b.num = n := by
      rintro _ ⟨b, hb, rfl⟩ hle
      exact ⟨b, List.mem_filter.mpr ⟨hb, hkeep.mpr hle⟩, rfl⟩
    refine ⟨?_, ?_, rfl, rfl, rfl, rfl⟩
    · intro c' hc'
      obtain rfl : c' = c := Option.some.inj (hc'.symm.trans hc)
      exact hstored c' (h.consistent c' hc) le_rfl
    · refine h.rows.cut.imp fun n hn ↦ hstored n (hn.1 fun _ c' hc' ↦ ?_) (hkeep.mp hn.2)
      obtain rfl : c' = c := Option.some.inj (hc'.symm.trans hc)
      exact hkeep.mp hn.2
  case isFalse hclean =>
    exact ⟨h.consistent, h.rows.imp fun n hn ↦ hn fun hdirty ↦ absurd hdirty hclean,
      rfl, rfl, rfl, rfl⟩

theorem backFromForkLite_eq (n : ℕ) (h : Hafd) :
    (backFromForkLite n h).irreversible =
      { h.irreversible.cut (fun m ↦ decide (m ≤ n)) with
        accounts := IrreversibleTables.forgetBlocks (fun m ↦ decide (m ≤ n))
          h.irreversible.accounts } := by
  have hsignatures : (fun s : TransactionMultisig ↦ !h.irreversible.transactions.any
      (fun x ↦ decide (s.trxHash = x.trxHash ∧ n < x.blockNum))) =
      fun s ↦ !h.irreversible.transactions.any
        (fun x ↦ !decide (x.blockNum ≤ n) && decide (x.trxHash = s.trxHash)) := by
    funext s
    congr 2
    funext x
    rw [Bool.eq_iff_iff]
    simp only [decide_eq_true_eq, Bool.and_eq_true, Bool.not_eq_true', decide_eq_false_iff_not,
      not_le]
    exact ⟨fun h ↦ ⟨h.2, h.1.symm⟩, fun h ↦ ⟨h.2.symm, h.1⟩⟩
  have haccounts : (fun a : Account ↦ if a.blockNum.any (fun m ↦ decide (n < m)) = true then
      { a with blockNum := none } else a) =
      fun a ↦ if a.blockNum.all (fun m ↦ decide (m ≤ n)) then a
        else { a with blockNum := none } := by
    funext a
    cases ha : a.blockNum with
    | none => simp
    | some m =>
      by_cases hm : n < m
      · simp [hm]
      · simp [hm, not_lt.mp hm]
  simp only [backFromForkLite, IrreversibleTables.cut, IrreversibleTables.forgetBlocks, hsignatures,
    haccounts]

section Lite

variable {blockNum : ℕ} {s₁ s₂ : Instance}

theorem Cleaned.shownReversible (h : Cleaned s s₁) : s₁.shownReversible = s.shownReversible := by
  have hhead : s₁.irreversibleHead = s.irreversibleHead :=
    congrArg (fun c ↦ Option.getD c 0) h.consistentBlock
  rw [Instance.shownReversible, Instance.shownReversible, Hafd.headForks, Hafd.headForks,
    h.reversible, hhead]

theorem Cleaned.deleteAbove (h : Cleaned s s₁) (hok : s₁.deleteAbove blockNum = .ok s₂)
    (hshown : s₁.liteSchema = false → ∀ b ∈ s.shownReversible, b.num ≤ blockNum)
    (hkey : ∀ c ∈ s.consistentBlock, c ≤ blockNum) : Coherent s blockNum s₂ := by
  rw [Instance.deleteAbove] at hok
  split at hok
  · cases hok
  case isFalse hfree =>
    cases hok
    have hstored : ∀ n, s₁.Stored n → n ≤ blockNum →
        ∃ b ∈ (backFromForkLite blockNum s₁.toHafd).irreversible.blocks, b.num = n := by
      rintro _ ⟨b, hb, rfl⟩ hle
      exact ⟨b, List.mem_filter.mpr ⟨hb, decide_eq_true hle⟩, rfl⟩
    have hle : ∀ c ∈ s₁.consistentBlock, c ≤ blockNum := fun c hc ↦
      hkey c (h.consistentBlock ▸ hc)
    have hrows : (backFromForkLite blockNum s₁.toHafd).irreversible.Within
        (fun n ↦ ∃ b ∈ (backFromForkLite blockNum s₁.toHafd).irreversible.blocks, b.num = n) := by
      have hcut : (s₁.irreversible.cut (fun m ↦ decide (m ≤ blockNum))).Within _ := h.rows.cut
      have hmem : ∀ n, s₁.Stored n ∧ decide (n ≤ blockNum) = true →
          ∃ b ∈ (backFromForkLite blockNum s₁.toHafd).irreversible.blocks, b.num = n :=
        fun n hn ↦ hstored n hn.1 (of_decide_eq_true hn.2)
      rw [backFromForkLite_eq]
      rw [backFromForkLite_eq] at hmem
      have hcut := hcut.imp hmem
      exact ⟨hcut.blocks, hcut.transactions, hcut.signatures, hcut.operations,
        fun a ha n hn ↦ hmem n (h.rows.forgetBlocks ha n hn), hcut.accountOperations,
        hcut.appliedHardforks⟩
    refine ⟨fun c hc ↦ ⟨hstored c (h.consistent c hc) (hle c hc), hle c hc⟩,
      hrows.imp fun n hn ↦ Stored.le_headOfBlocks (s := { s₁ with toHafd := _ }) hn, ?_⟩
    intro b _ hlt
    refine .inl fun hb ↦ ?_
    have hirr : b ∈ (backFromForkLite blockNum s₁.toHafd).irreversible.blocks := by
      rw [blocksView] at hb
      split at hb
      case isTrue => exact hb
      case isFalse hschema =>
        rcases List.mem_append.mp hb with hb | hb
        · exact hb
        · have hshown₁ : b ∈ s₁.shownReversible := hb
          rw [h.shownReversible] at hshown₁
          exact absurd (hshown (Bool.eq_false_iff.mpr hschema) b hshown₁) (not_le.mpr hlt)
    exact absurd (of_decide_eq_true (List.mem_filter.mp hirr).2) (not_le.mpr hlt)

end Lite

variable {blockNum : ℕ} {s₁ : Instance}

theorem le_of_not_isAhead (h : ¬ s.isAhead blockNum = true) {b : Block}
    (hb : b ∈ s.blocksView) : b.num ≤ blockNum := by
  rw [isAhead, Bool.or_eq_true, not_or] at h
  have hmem : b.num ∈ s.blocksView.map Block.num := List.mem_map_of_mem hb
  cases hmax : (s.blocksView.map Block.num).max? with
  | none => rw [List.max?_eq_none_iff] at hmax; rw [hmax] at hmem; cases hmem
  | some m =>
    have hle := (List.max?_eq_some_iff.mp hmax).2 _ hmem
    have hm : ¬ blockNum < m := by simpa [hmax] using h.1
    omega

theorem mem_blocksView {b : Block} (hb : b ∈ s.irreversible.blocks) : b ∈ s.blocksView := by
  rw [blocksView]
  split
  · exact hb
  · exact List.mem_append_left _ hb

theorem Cleaned.coherent_of_not_isAhead (h : Cleaned s s₁)
    (hahead : ¬ s₁.isAhead blockNum = true) : Coherent s blockNum s₁ where
  consistent c hc := by
    obtain ⟨b, hb, rfl⟩ := h.consistent c hc
    exact ⟨⟨b, hb, rfl⟩, le_of_not_isAhead hahead (mem_blocksView hb)⟩
  rows := h.rows.imp fun _ ↦ Stored.le_headOfBlocks
  takenBack _ _ hlt := .inl fun hb ↦ absurd (le_of_not_isAhead hahead hb) (not_le.mpr hlt)

theorem lt_maxFork_succ {h : Hafd} {f : Fork} (hf : f ∈ h.forks) : f.id < h.maxFork + 1 := by
  have hmem : f.id ∈ h.forks.map Fork.id := List.mem_map_of_mem hf
  rw [Hafd.maxFork]
  cases hmax : (h.forks.map Fork.id).max? with
  | none => rw [List.max?_eq_none_iff] at hmax; rw [hmax] at hmem; cases hmem
  | some m => exact Nat.lt_succ_of_le ((List.max?_eq_some_iff.mp hmax).2 _ hmem)

theorem Cleaned.backFromFork {h' : Hafd} (h : Cleaned s s₁)
    (hlite : s₁.hiveState.liteMode = false) (hhead : s₁.headOfBlocks ≤ blockNum)
    (hok : backFromFork blockNum s₁.toHafd = .ok h') :
    Coherent s blockNum { s₁ with toHafd := h' } := by
  rw [HiveForkManager.backFromFork, if_neg (by simp [hlite]), Hafd.insertEvent] at hok
  split at hok
  · cases hok
  · cases hok
    refine ⟨fun c hc ↦ ⟨h.consistent c hc, (h.consistent c hc).le_headOfBlocks.trans hhead⟩,
      h.rows.imp fun _ hn ↦ hn.le_headOfBlocks, fun b _ _ ↦ .inr ?_⟩
    exact ⟨_, List.mem_append_right _ List.mem_cons_self, rfl,
      fun f hf ↦ lt_maxFork_succ (h.forks ▸ hf)⟩

theorem removeInconsistentIrreversibleData_hiveState :
    s.removeInconsistentIrreversibleData.hiveState = s.hiveState := by
  rw [removeInconsistentIrreversibleData]
  split <;> rfl

theorem Cleaned.takeBack {liteMode : Bool} {s₂ : Instance} (h : Cleaned s s₁)
    (hmode : s₁.hiveState.liteMode = liteMode)
    (hkey : ∀ c ∈ s.consistentBlock, c ≤ blockNum)
    (hshown : liteMode = true → s₁.liteSchema = false → ∀ b ∈ s.shownReversible, b.num ≤ blockNum)
    (hok : s₁.takeBack blockNum liteMode = .ok s₂) : Coherent s blockNum s₂ := by
  rw [Instance.takeBack] at hok
  split at hok
  case isTrue hl =>
    split at hok
    · exact h.deleteAbove hok (hshown hl) hkey
    case isFalse hahead =>
      cases hok
      exact h.coherent_of_not_isAhead hahead
  case isFalse hl =>
    split at hok
    · cases hok
    split at hok
    case isFalse.isTrue hhead _ =>
      obtain ⟨h', hfork, hok⟩ := bind_eq_ok.mp hok
      cases hok
      exact h.backFromFork (hmode.trans (Bool.eq_false_iff.mpr hl)) (not_lt.mp hhead) hfork
    case isFalse.isFalse hahead =>
      cases hok
      exact h.coherent_of_not_isAhead hahead

/-- What `takeBack` leaves alone; in lite mode no fork is created and the reversible blocks stay. -/
theorem takeBack_frame {liteMode : Bool} {s₂ : Instance}
    (hmode : s₁.hiveState.liteMode = liteMode) (hok : s₁.takeBack blockNum liteMode = .ok s₂) :
    s₂.consistentBlock = s₁.consistentBlock ∧ (liteMode = true → s₂.forks = s₁.forks ∧
      s₂.liteSchema = s₁.liteSchema ∧ s₂.shownReversible = s₁.shownReversible) := by
  rw [Instance.takeBack] at hok
  split at hok
  case isTrue hl =>
    split at hok
    · rw [Instance.deleteAbove] at hok
      split at hok <;> cases hok
      exact ⟨rfl, fun _ ↦ ⟨rfl, rfl, rfl⟩⟩
    · cases hok
      exact ⟨rfl, fun _ ↦ ⟨rfl, rfl, rfl⟩⟩
  case isFalse hl =>
    refine ⟨?_, fun h ↦ absurd h hl⟩
    split at hok
    · cases hok
    split at hok
    · obtain ⟨h', hfork, hok⟩ := bind_eq_ok.mp hok
      cases hok
      rw [HiveForkManager.backFromFork, if_neg (by simp [hmode, hl]), Hafd.insertEvent] at hfork
      split at hfork <;> cases hfork
      rfl
    · cases hok
      rfl

/-- The consistent block is not above the head of hived, and a lite mode that keeps the full schema
finds no reversible block above it. -/
def Connectable (blockNum : ℕ) (liteMode liteSchema : Bool) (s : Instance) : Prop :=
  (∀ c ∈ s.consistentBlock, c ≤ blockNum) ∧
    (liteMode = true → s.liteSchema = false → liteSchema = false →
      ∀ b ∈ s.shownReversible, b.num ≤ blockNum)

theorem chooseSchema_ok {liteSchema : Bool} {s₀ : Instance}
    (h : s.chooseSchema liteSchema = .ok s₀) :
    s₀.toHafd = s.toHafd ∧ s₀.isDirty = s.isDirty ∧ s₀.stateForeignKey = s.stateForeignKey ∧
      (s₀.liteSchema = false ↔ s.liteSchema = false ∧ liteSchema = false) := by
  rw [chooseSchema] at h
  split at h
  case isTrue hchoose =>
    split at h <;> cases h
    simp only [Bool.and_eq_true] at hchoose
    exact ⟨rfl, rfl, rfl, by simp [hchoose.1]⟩
  case isFalse hchoose =>
    cases h
    refine ⟨rfl, rfl, rfl, fun hs ↦ ⟨hs, ?_⟩, fun hs ↦ hs.1⟩
    simpa [hs] using hchoose

/-- A start that succeeds leaves a coherent state if and only if the consistent block is not above
the head of hived and a lite mode finds no reversible block there. -/
theorem connect_coherent {blockNum pruning : ℕ} {liteMode liteSchema : Bool} (hleft : s.Left)
    (hok : s.connect blockNum pruning liteMode liteSchema = .ok s') :
    Coherent s blockNum s' ↔ s.Connectable blockNum liteMode liteSchema := by
  obtain ⟨s₀, hschema, hok⟩ := bind_eq_ok.mp hok
  obtain ⟨hhafd, hdirty, hkey, hlite⟩ := chooseSchema_ok hschema
  split at hok
  · cases hok
  split at hok
  · cases hok
  obtain ⟨s₁, htaken, hpruning⟩ := bind_eq_ok.mp hok
  obtain ⟨h₀, dirty₀, schema₀, key₀⟩ := s₀
  obtain rfl : h₀ = s.toHafd := hhafd
  obtain rfl : dirty₀ = s.isDirty := hdirty
  obtain rfl : key₀ = s.stateForeignKey := hkey
  have hcleaned : Cleaned s (Instance.removeInconsistentIrreversibleData
      ⟨{ s.toHafd with hiveState := { s.hiveState with liteMode } }, s.isDirty, schema₀,
        s.stateForeignKey⟩) := by
    have hmoded := Left.cleaned (s := ⟨{ s.toHafd with
      hiveState := { s.hiveState with liteMode } }, s.isDirty, schema₀, s.stateForeignKey⟩)
      ⟨hleft.consistent, hleft.rows, hleft.announced⟩
    exact { hmoded with }
  have hschema₁ : (Instance.removeInconsistentIrreversibleData
      ⟨{ s.toHafd with hiveState := { s.hiveState with liteMode } }, s.isDirty, schema₀,
        s.stateForeignKey⟩).liteSchema = schema₀ := by
    rw [removeInconsistentIrreversibleData]
    split <;> rfl
  rw [setPruning] at hpruning
  split at hpruning
  · cases hpruning
  cases hpruning
  constructor
  · intro hcoherent
    obtain ⟨hconsistent, hframe⟩ :=
      takeBack_frame (by rw [removeInconsistentIrreversibleData_hiveState]) htaken
    refine ⟨fun c hc ↦ (hcoherent.consistent c ?_).2, fun hl hs hls b hb ↦ ?_⟩
    · exact (hconsistent.trans hcleaned.consistentBlock).trans hc
    · obtain ⟨hforks, hschema₂, hshown⟩ := hframe hl
      rw [hcleaned.shownReversible] at hshown
      rw [hcleaned.forks] at hforks
      replace hschema₂ := (hschema₂.trans hschema₁).trans (hlite.mpr ⟨hs, hls⟩)
      by_contra hlt
      have hbefore : b ∈ s.blocksView := by
        rw [blocksView, if_neg (by simp [hs])]
        exact List.mem_append_right _ hb
      rcases hcoherent.takenBack b hbefore (not_le.mp hlt) with hgone | ⟨f, hf, -, hnew⟩
      · refine hgone ?_
        rw [blocksView, if_neg (Bool.eq_false_iff.mp hschema₂)]
        exact List.mem_append_right _ (hshown ▸ hb : b ∈ s₁.shownReversible)
      · exact lt_irrefl _ (hnew f (hforks ▸ hf))
  · rintro ⟨hconsistent, hshown⟩
    have hcoherent := hcleaned.takeBack (by rw [removeInconsistentIrreversibleData_hiveState])
      hconsistent (fun hl hs ↦ hshown hl (hlite.mp (hschema₁ ▸ hs)).1
        (hlite.mp (hschema₁ ▸ hs)).2) htaken
    exact ⟨hcoherent.consistent, hcoherent.rows, hcoherent.takenBack⟩

def unprotected (liteMode : Bool) : Instance :=
  { Hafd.initial with
    hiveState := { consistentBlock := some 2, liteMode }
    irreversible := { blocks := [numbered 1, numbered 2] }
    isDirty := false
    liteSchema := false
    stateForeignKey := false }

/-- hived is at block 1, and the database has block 2 as well: an irreversible block without a
foreign key in lite mode, a reversible one in full mode. -/
def ahead (liteMode : Bool) : Instance :=
  { unprotected liteMode with
    hiveState := { consistentBlock := some 1, liteMode }
    irreversible := { blocks := if liteMode then [numbered 1, numbered 2] else [numbered 1] }
    reversible := { blocks := if liteMode then [] else [⟨numbered 2, 1⟩] } }

theorem ahead_left (liteMode : Bool) : (ahead liteMode).Left where
  consistent c hc := by
    obtain rfl := Option.some.inj hc
    exact ⟨numbered 1, by cases liteMode <;> simp [ahead], rfl⟩
  rows :=
    { blocks := fun b hb _ ↦ ⟨b, hb, rfl⟩
      transactions := fun _ hx ↦ nomatch hx
      signatures := fun _ hx ↦ nomatch hx
      operations := fun _ hx ↦ nomatch hx
      accounts := fun _ hx ↦ nomatch hx
      accountOperations := fun _ hx ↦ nomatch hx
      appliedHardforks := fun _ hx ↦ nomatch hx }
  announced h := nomatch h

theorem ahead_connected :
    (∃ s', (ahead true).connect 1 0 true false = .ok s' ∧ s'.irreversible.blocks = [numbered 1] ∧
      Coherent (ahead true) 1 s') ∧
    ∃ s', (ahead false).connect 1 0 false false = .ok s' ∧ s'.forks = [⟨1, 1⟩, ⟨2, 1⟩] ∧
      Coherent (ahead false) 1 s' := by
  have hlite : (ahead true).connect 1 0 true false = .ok _ := rfl
  have hfull : (ahead false).connect 1 0 false false = .ok _ := rfl
  refine ⟨⟨_, hlite, rfl, (connect_coherent (ahead_left true) hlite).mpr ⟨?_, ?_⟩⟩,
    _, hfull, rfl, (connect_coherent (ahead_left false) hfull).mpr ⟨?_, ?_⟩⟩
  · decide
  · decide
  · decide
  · intro h
    cases h

/-- Four starts that succeed. In lite mode, without the foreign key, the consistent block is deleted
and still named. After a massive sync that was interrupted before its first announcement, a
transaction is left above all blocks. A signature written ahead of its transaction stays. A change
to lite mode leaves a reversible block above the head of hived that no fork takes back. -/
theorem connect_incoherent :
    ((unprotected true).connect 1 0 true false).toOption.map
        (fun s ↦ (s.consistentBlock, s.irreversible.blocks)) = some (some 2, [numbered 1]) ∧
    ((Instance.connect 0 0 false false { unprotected false with
        hiveState := {}
        isDirty := true
        irreversible := { transactions := [hashed 1 [1]] } })).toOption.map
          (fun s ↦ (s.isDirty, s.headOfBlocks, s.irreversible.transactions)) =
      some (false, 0, [hashed 1 [1]]) ∧
    ((interrupted (some 1) []).connect 1 0 false false).toOption.map
        (fun s ↦ (s.isDirty, s.headOfBlocks, s.irreversible.transactions,
          s.irreversible.transactionsMultisig)) = some (false, 1, [], [⟨[2], [7]⟩]) ∧
    ((Instance.connect 1 0 true false { unprotected false with
        hiveState := {}
        irreversible := {}
        reversible := { blocks := [⟨numbered 1, 1⟩, ⟨numbered 2, 1⟩] } })).toOption.map
          (fun s ↦ (s.blocksView, s.forks)) = some ([numbered 1, numbered 2], [⟨1, 1⟩]) := by
  decide

end Connect

end Instance

end HiveForkManager
