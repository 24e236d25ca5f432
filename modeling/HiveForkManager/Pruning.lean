import HiveForkManager.IrreversibleRows
import HiveForkManager.System

namespace HiveForkManager

variable {ρ : Type}

/-- The lowest block of the contexts, or the highest stored block if there are no contexts. -/
def Db.upperBoundBlockNum (db : Db ρ) : Option ℕ :=
  (db.contexts.map Context.currentBlockNum).min?.or (db.irreversible.blocks.map Block.num).max?

/-- The statements of `hive.prune_blocks_data`. The account operations are joined with their
operations; accounts are not removed. -/
def IrreversibleTables.prune (upperBound : ℕ) (t : IrreversibleTables) : IrreversibleTables :=
  { t.cut (fun n ↦ decide (upperBound < n)) with
    accountOperations := t.accountOperations.filter (fun a ↦ !t.operations.any (fun o ↦
      decide (a.operationId = o.id ∧ operationIdToBlockNum o.id ≤ upperBound)))
    accounts := forgetBlocks (fun n ↦ decide (upperBound < n)) t.accounts }

/-- `hive.prune_blocks_data`; `stateForeignKey` says that `fk_1_hive_irreversible_data` is there. -/
def pruneBlocksData (tailSize : ℤ) (stateForeignKey : Bool) (db : Db ρ) : Except Error (Db ρ) :=
  if tailSize < 0 then
    .error (.raiseException "Blocks tail cannot be lower than 0")
  else if tailSize = 0 then .ok db
  else match db.upperBoundBlockNum with
    | none => .ok db
    | some lowest =>
      if (lowest : ℤ) ≤ tailSize then .ok db
      else
        let upperBound := lowest - tailSize.toNat
        if stateForeignKey && db.irreversible.blocks.any
            (fun b ↦ decide (b.num ≤ upperBound ∧ db.consistentBlock = some b.num)) then
          .error (.foreignKeyViolation "fk_1_hive_irreversible_data")
        else .ok { db with irreversible := db.irreversible.prune upperBound }

namespace IrreversibleTables

variable {t : IrreversibleTables} {P Q : ℕ → Prop} {upperBound : ℕ}

structure References (t : IrreversibleTables) : Prop where
  transactions : ∀ x ∈ t.transactions, ∃ b ∈ t.blocks, b.num = x.blockNum
  signatures : ∀ s ∈ t.transactionsMultisig, ∃ x ∈ t.transactions, x.trxHash = s.trxHash
  operations : ∀ o ∈ t.operations, ∃ b ∈ t.blocks, b.num = operationIdToBlockNum o.id
  accountOperations : ∀ a ∈ t.accountOperations, ∃ o ∈ t.operations, o.id = a.operationId
  hardforkBlocks : ∀ x ∈ t.appliedHardforks, ∃ b ∈ t.blocks, b.num = x.blockNum
  hardforkOperations : ∀ x ∈ t.appliedHardforks, ∃ o ∈ t.operations, o.id = x.hardforkVopId

/-- The rows of the blocks of the kind `P` are still there. An account may lose its block only. -/
structure Keeps (P : ℕ → Prop) (t t' : IrreversibleTables) : Prop where
  blocks : ∀ b ∈ t.blocks, P b.num → b ∈ t'.blocks
  transactions : ∀ x ∈ t.transactions, P x.blockNum → x ∈ t'.transactions
  signatures : ∀ s ∈ t.transactionsMultisig, ∀ x ∈ t.transactions, x.trxHash = s.trxHash →
    P x.blockNum → s ∈ t'.transactionsMultisig
  operations : ∀ o ∈ t.operations, P (operationIdToBlockNum o.id) → o ∈ t'.operations
  accounts : ∀ a ∈ t.accounts, ∃ a' ∈ t'.accounts, a'.id = a.id ∧ a'.name = a.name ∧
    ((∀ n ∈ a.blockNum, P n) → a' = a)
  accountOperations : ∀ a ∈ t.accountOperations, P (operationIdToBlockNum a.operationId) →
    a ∈ t'.accountOperations
  appliedHardforks : ∀ x ∈ t.appliedHardforks, P x.blockNum → x ∈ t'.appliedHardforks

theorem Keeps.refl (P : ℕ → Prop) (t : IrreversibleTables) : Keeps P t t where
  blocks _ h _ := h
  transactions _ h _ := h
  signatures _ h _ _ _ _ := h
  operations _ h _ := h
  accounts a h := ⟨a, h, rfl, rfl, fun _ ↦ rfl⟩
  accountOperations _ h _ := h
  appliedHardforks _ h _ := h

theorem Keeps.mono {t' : IrreversibleTables} (h : Keeps P t t') (hQP : ∀ n, Q n → P n) :
    Keeps Q t t' where
  blocks b hb hn := h.blocks b hb (hQP _ hn)
  transactions x hx hn := h.transactions x hx (hQP _ hn)
  signatures s hs x hx hhash hn := h.signatures s hs x hx hhash (hQP _ hn)
  operations o ho hn := h.operations o ho (hQP _ hn)
  accounts a ha := by
    obtain ⟨a', ha', hid, hname, heq⟩ := h.accounts a ha
    exact ⟨a', ha', hid, hname, fun hn ↦ heq fun n hm ↦ hQP _ (hn n hm)⟩
  accountOperations a ha hn := h.accountOperations a ha (hQP _ hn)
  appliedHardforks x hx hn := h.appliedHardforks x hx (hQP _ hn)

theorem mem_prune_accountOperations {a : AccountOperation} :
    a ∈ (t.prune upperBound).accountOperations ↔ a ∈ t.accountOperations ∧
      ∀ o ∈ t.operations, a.operationId = o.id → upperBound < operationIdToBlockNum o.id := by
  rw [prune, List.mem_filter, Bool.not_eq_true', List.any_eq_false]
  simp only [decide_eq_true_eq, not_and, not_le]

theorem mem_filter_lt {α : Type} {num : α → ℕ} {l : List α} {a : α} :
    a ∈ l.filter (fun x ↦ decide (upperBound < num x)) ↔ a ∈ l ∧ upperBound < num a := by
  rw [List.mem_filter, decide_eq_true_iff]

theorem prune_keeps (hhashes : (t.transactions.map Transaction.trxHash).Nodup) :
    Keeps (upperBound < ·) t (t.prune upperBound) where
  blocks b hb hlt := mem_filter_lt.mpr ⟨hb, hlt⟩
  transactions x hx hlt := mem_filter_lt.mpr ⟨hx, hlt⟩
  signatures s hs x hx hhash hlt := by
    refine List.mem_filter.mpr ⟨hs, ?_⟩
    rw [Bool.not_eq_true', List.any_eq_false]
    intro x' hx' hdeleted
    simp only [Bool.and_eq_true, Bool.not_eq_true', decide_eq_false_iff_not,
      decide_eq_true_eq] at hdeleted
    obtain rfl := List.inj_on_of_nodup_map hhashes hx' hx (hdeleted.2.trans hhash.symm)
    exact hdeleted.1 hlt
  operations o ho hlt := mem_filter_lt.mpr ⟨ho, hlt⟩
  accounts a ha := by
    refine ⟨_, List.mem_map_of_mem ha, ?_, ?_, ?_⟩
    · split <;> rfl
    · split <;> rfl
    · intro hall
      refine if_pos ?_
      cases hn : a.blockNum with
      | none => rfl
      | some n => exact decide_eq_true (hall n hn)
  accountOperations a ha hlt :=
    mem_prune_accountOperations.mpr ⟨ha, fun _ _ hid ↦ hid ▸ hlt⟩
  appliedHardforks x hx hlt := mem_filter_lt.mpr ⟨hx, hlt⟩

theorem References.prune (h : t.References)
    (hvops : ∀ x ∈ t.appliedHardforks, operationIdToBlockNum x.hardforkVopId = x.blockNum) :
    (t.prune upperBound).References where
  transactions x hx := by
    obtain ⟨hmem, hlt⟩ := mem_filter_lt.mp hx
    obtain ⟨b, hb, hnum⟩ := h.transactions x hmem
    exact ⟨b, mem_filter_lt.mpr ⟨hb, hnum ▸ hlt⟩, hnum⟩
  signatures s hs := by
    have hcut : s ∈ (t.cut (fun n ↦ decide (upperBound < n))).transactionsMultisig := hs
    exact exists_transaction_of_mem_cut h.signatures hcut
  operations o ho := by
    obtain ⟨hmem, hlt⟩ := mem_filter_lt.mp ho
    obtain ⟨b, hb, hnum⟩ := h.operations o hmem
    exact ⟨b, mem_filter_lt.mpr ⟨hb, hnum ▸ hlt⟩, hnum⟩
  accountOperations a ha := by
    obtain ⟨hmem, hall⟩ := mem_prune_accountOperations.mp ha
    obtain ⟨o, ho, hid⟩ := h.accountOperations a hmem
    exact ⟨o, mem_filter_lt.mpr ⟨ho, hall o ho hid.symm⟩, hid⟩
  hardforkBlocks x hx := by
    obtain ⟨hmem, hlt⟩ := mem_filter_lt.mp hx
    obtain ⟨b, hb, hnum⟩ := h.hardforkBlocks x hmem
    exact ⟨b, mem_filter_lt.mpr ⟨hb, hnum ▸ hlt⟩, hnum⟩
  hardforkOperations x hx := by
    obtain ⟨hmem, hlt⟩ := mem_filter_lt.mp hx
    obtain ⟨o, ho, hid⟩ := h.hardforkOperations x hmem
    refine ⟨o, mem_filter_lt.mpr ⟨ho, ?_⟩, hid⟩
    rwa [hid, hvops x hmem]

end IrreversibleTables

structure SafelyPruned (tailSize : ℕ) (db db' : Db ρ) : Prop where
  rest : db' = { db with irreversible := db'.irreversible }
  tail : ∀ lowest ∈ db.upperBoundBlockNum,
    IrreversibleTables.Keeps (fun n ↦ lowest < n + tailSize) db.irreversible db'.irreversible
  consistent : ∀ b ∈ db.irreversible.blocks, db.consistentBlock = some b.num →
    b ∈ db'.irreversible.blocks
  references : db'.irreversible.References

/-- A failed call leaves the database as it was. -/
def Db.afterPruning (tailSize : ℤ) (stateForeignKey : Bool) (db : Db ρ) : Db ρ :=
  (pruneBlocksData tailSize stateForeignKey db).toOption.getD db

/-- The bound computed from the positions of the contexts reaches the consistent block. -/
def Db.CutsConsistent (tailSize : ℕ) (db : Db ρ) : Prop :=
  ∃ b ∈ db.irreversible.blocks, db.consistentBlock = some b.num ∧
    ∃ lowest ∈ db.upperBoundBlockNum, tailSize < lowest ∧ b.num + tailSize ≤ lowest

theorem prune_safe_of_kept {tailSize : ℕ} {stateForeignKey : Bool} {db : Db ρ}
    (htail : 1 ≤ tailSize)
    (hhashes : (db.irreversible.transactions.map Transaction.trxHash).Nodup)
    (hrefs : db.irreversible.References)
    (hvops : ∀ x ∈ db.irreversible.appliedHardforks,
      operationIdToBlockNum x.hardforkVopId = x.blockNum)
    (hkept : stateForeignKey = false → ¬ db.CutsConsistent tailSize) :
    SafelyPruned tailSize db (db.afterPruning tailSize stateForeignKey) := by
  have hsame : SafelyPruned tailSize db db := ⟨rfl, fun _ _ ↦ .refl _ _, fun _ hb _ ↦ hb, hrefs⟩
  rw [Db.afterPruning, pruneBlocksData, if_neg (by omega), if_neg (by omega)]
  cases hlowest : db.upperBoundBlockNum with
  | none => exact hsame
  | some lowest =>
    simp only
    split
    · exact hsame
    case isFalse hlt =>
      split
      · exact hsame
      case isFalse hfree =>
        refine ⟨rfl, ?_, fun b hb hc ↦ ?_, hrefs.prune hvops⟩
        · rintro _ hmem
          obtain rfl := Option.some.inj (hlowest.symm.trans hmem)
          exact (IrreversibleTables.prune_keeps hhashes).mono fun n hn ↦ by omega
        · refine IrreversibleTables.mem_filter_lt.mpr ⟨hb, ?_⟩
          by_contra hle
          cases hkey : stateForeignKey with
          | false => exact hkept hkey ⟨b, hb, hc, lowest, hlowest, by omega, by omega⟩
          | true =>
            refine hfree ?_
            rw [hkey, Bool.true_and, List.any_eq_true]
            exact ⟨b, hb, decide_eq_true ⟨not_lt.mp hle, hc⟩⟩

theorem afterPruning_of_unprotected {tailSize lowest : ℕ} {db : Db ρ} (htail : 1 ≤ tailSize)
    (hlowest : db.upperBoundBlockNum = some lowest) (hlt : tailSize < lowest) :
    (db.afterPruning tailSize false).irreversible.blocks =
      db.irreversible.blocks.filter fun b ↦ decide (lowest - tailSize < b.num) := by
  rw [Db.afterPruning, pruneBlocksData, if_neg (by omega), if_neg (by omega), hlowest]
  simp only [if_neg (show ¬ (lowest : ℤ) ≤ tailSize by omega), Bool.false_and, Bool.false_eq_true,
    if_false]
  rfl

/-- Pruning is safe if and only if the foreign key of the consistent block is there, which fails a
call that would remove it, or the bound does not reach that block. -/
theorem prune_safe {tailSize : ℕ} {stateForeignKey : Bool} {db : Db ρ} (htail : 1 ≤ tailSize)
    (hhashes : (db.irreversible.transactions.map Transaction.trxHash).Nodup)
    (hrefs : db.irreversible.References)
    (hvops : ∀ x ∈ db.irreversible.appliedHardforks,
      operationIdToBlockNum x.hardforkVopId = x.blockNum) :
    SafelyPruned tailSize db (db.afterPruning tailSize stateForeignKey) ↔
      (stateForeignKey = false → ¬ db.CutsConsistent tailSize) := by
  refine ⟨?_, prune_safe_of_kept htail hhashes hrefs hvops⟩
  rintro hsafe rfl ⟨b, hb, hc, lowest, hlowest, hlt, hcut⟩
  have hmem := hsafe.consistent b hb hc
  rw [afterPruning_of_unprotected htail hlowest hlt] at hmem
  have := of_decide_eq_true (List.mem_filter.mp hmem).2
  omega

/-- A pruned live instance on which an application has processed all three blocks, of which only
the first one is irreversible. -/
def aheadOfIrreversible : World ℕ :=
  World.run { World.initial ℕ .live with
      db := { (World.initial ℕ .live).db with hiveState := { state := .live, pruning := 1 } } }
    [.hived (.pushBlock (emptyBlock 1 1 0)), .hived (.pushBlock (emptyBlock 2 2 1)),
      .hived (.pushBlock (emptyBlock 3 3 2)), .hived (.setIrreversible 1 true),
      .createContext (.ready 0) "a" true true none 1, .nextBlock (.ready 0) ["a"] none,
      .nextBlock (.ready 0) ["a"] none, .nextBlock (.ready 0) ["a"] none]

theorem aheadOfIrreversible_pruned :
    SafelyPruned 3 aheadOfIrreversible.db (aheadOfIrreversible.db.afterPruning 3 false) ∧
      SafelyPruned 1 aheadOfIrreversible.db (aheadOfIrreversible.db.afterPruning 1 true) := by
  have hupper : aheadOfIrreversible.db.upperBoundBlockNum = some 3 := by decide +kernel
  refine ⟨(prune_safe (by decide : 1 ≤ 3) (by decide +kernel)
    (by constructor <;> decide +kernel) (by decide +kernel)).mpr ?_,
    (prune_safe (by decide : 1 ≤ 1) (by decide +kernel)
      (by constructor <;> decide +kernel) (by decide +kernel)).mpr fun h ↦ by cases h⟩
  rintro - ⟨b, -, -, lowest, hlowest, hlt, -⟩
  obtain rfl := Option.some.inj (hupper.symm.trans hlowest)
  exact absurd hlt (by decide)

/-- With a tail of one block the consistent block goes, or its foreign key fails the call. -/
theorem prune_removes_consistent_block :
    aheadOfIrreversible.db.consistentBlock = some 1 ∧
    aheadOfIrreversible.db.contexts.map Context.currentBlockNum = [3] ∧
    (aheadOfIrreversible.db.irreversible.blocks.map Block.num) = [1] ∧
    ((pruneBlocksData 1 false aheadOfIrreversible.db).toOption.map
      (fun db ↦ (db.consistentBlock, db.irreversible.blocks))) = some (some 1, []) ∧
    pruneBlocksData 1 true aheadOfIrreversible.db =
      .error (.foreignKeyViolation "fk_1_hive_irreversible_data") := by
  decide +kernel

end HiveForkManager
