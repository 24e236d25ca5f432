import HiveForkManager.HivedApi

namespace HiveForkManager.IrreversibleTables

variable {t : IrreversibleTables} {P Q : ℕ → Prop} {keep : ℕ → Bool}

/-- The `DELETE` statements that leave only rows of blocks to keep. A signature goes with its
transaction; an account without a block stays. -/
def cut (keep : ℕ → Bool) (t : IrreversibleTables) : IrreversibleTables where
  accountOperations := t.accountOperations.filter
    (fun a ↦ keep (operationIdToBlockNum a.operationId))
  appliedHardforks := t.appliedHardforks.filter (fun x ↦ keep x.blockNum)
  operations := t.operations.filter (fun o ↦ keep (operationIdToBlockNum o.id))
  transactionsMultisig := t.transactionsMultisig.filter (fun s ↦ !t.transactions.any
    (fun x ↦ !keep x.blockNum && decide (x.trxHash = s.trxHash)))
  transactions := t.transactions.filter (fun x ↦ keep x.blockNum)
  accounts := t.accounts.filter (fun a ↦ a.blockNum.all keep)
  blocks := t.blocks.filter (fun b ↦ keep b.num)

/-- `UPDATE hafd.accounts SET block_num = NULL` for the blocks that are not kept. -/
def forgetBlocks (keep : ℕ → Bool) (accounts : List Account) : List Account :=
  accounts.map (fun a ↦ if a.blockNum.all keep then a else { a with blockNum := none })

/-- Every row belongs to a block of the kind `P`; a signature has its transaction. -/
structure Within (P : ℕ → Prop) (t : IrreversibleTables) : Prop where
  blocks : ∀ b ∈ t.blocks, P b.num
  transactions : ∀ x ∈ t.transactions, P x.blockNum
  signatures : ∀ s ∈ t.transactionsMultisig, ∃ x ∈ t.transactions, x.trxHash = s.trxHash
  operations : ∀ o ∈ t.operations, P (operationIdToBlockNum o.id)
  accounts : ∀ a ∈ t.accounts, ∀ n ∈ a.blockNum, P n
  accountOperations : ∀ a ∈ t.accountOperations, P (operationIdToBlockNum a.operationId)
  appliedHardforks : ∀ x ∈ t.appliedHardforks, P x.blockNum

theorem Within.imp (h : t.Within P) (hPQ : ∀ n, P n → Q n) : t.Within Q where
  blocks b hb := hPQ _ (h.blocks b hb)
  transactions x hx := hPQ _ (h.transactions x hx)
  signatures := h.signatures
  operations o ho := hPQ _ (h.operations o ho)
  accounts a ha n hn := hPQ _ (h.accounts a ha n hn)
  accountOperations a ha := hPQ _ (h.accountOperations a ha)
  appliedHardforks x hx := hPQ _ (h.appliedHardforks x hx)

theorem exists_transaction_of_mem_cut
    (hsigned : ∀ s ∈ t.transactionsMultisig, ∃ x ∈ t.transactions, x.trxHash = s.trxHash)
    {s : TransactionMultisig} (hs : s ∈ (t.cut keep).transactionsMultisig) :
    ∃ x ∈ (t.cut keep).transactions, x.trxHash = s.trxHash := by
  obtain ⟨hmem, hnone⟩ := List.mem_filter.mp hs
  obtain ⟨x, hx, hhash⟩ := hsigned s hmem
  refine ⟨x, List.mem_filter.mpr ⟨hx, ?_⟩, hhash⟩
  rw [Bool.not_eq_true', List.any_eq_false] at hnone
  simpa [hhash] using hnone x hx

theorem Within.cut (h : t.Within P) : (t.cut keep).Within (fun n ↦ P n ∧ keep n = true) where
  blocks b hb := ⟨h.blocks b (List.mem_filter.mp hb).1, (List.mem_filter.mp hb).2⟩
  transactions x hx := ⟨h.transactions x (List.mem_filter.mp hx).1, (List.mem_filter.mp hx).2⟩
  signatures _ hs := exists_transaction_of_mem_cut h.signatures hs
  operations o ho := ⟨h.operations o (List.mem_filter.mp ho).1, (List.mem_filter.mp ho).2⟩
  accounts a ha n hn := by
    obtain ⟨hmem, hall⟩ := List.mem_filter.mp ha
    refine ⟨h.accounts a hmem n hn, ?_⟩
    rwa [Option.mem_def.mp hn] at hall
  accountOperations a ha :=
    ⟨h.accountOperations a (List.mem_filter.mp ha).1, (List.mem_filter.mp ha).2⟩
  appliedHardforks x hx :=
    ⟨h.appliedHardforks x (List.mem_filter.mp hx).1, (List.mem_filter.mp hx).2⟩

theorem Within.forgetBlocks (h : t.Within P) {a : Account}
    (ha : a ∈ forgetBlocks keep t.accounts) : ∀ n ∈ a.blockNum, P n ∧ keep n = true := by
  obtain ⟨a, hmem, rfl⟩ := List.mem_map.mp ha
  intro n hn
  split at hn
  case isTrue hall =>
    rw [Option.mem_def] at hn
    rw [hn] at hall
    exact ⟨h.accounts a hmem n hn, hall⟩
  case isFalse => cases hn

end HiveForkManager.IrreversibleTables
