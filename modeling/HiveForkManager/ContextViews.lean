import HiveForkManager.StorageCopy
import HiveForkManager.Views

namespace HiveForkManager

open ForkStore

variable {ρ α : Type} {h : Hafd} {chain : List BlockData} {stored : List (Reversible BlockData)}
  {c : Context ρ}

namespace Context

def Visible (stored : List (Reversible BlockData)) (c : Context ρ) (r : Reversible BlockData) :
    Prop :=
  c.inRange r.row.num r.forkId ∧ ∀ r' ∈ stored, c.inRange r'.row.num r'.forkId →
    r'.row.num = r.row.num → r'.forkId ≤ r.forkId

instance (stored : List (Reversible BlockData)) (c : Context ρ) (r : Reversible BlockData) :
    Decidable (c.Visible stored r) := by
  unfold Visible; infer_instance

def seen (chain : List BlockData) (stored : List (Reversible BlockData)) (c : Context ρ) :
    List BlockData :=
  chain.take c.minBlock ++
    (stored.filter (fun r ↦ decide (c.Visible stored r))).map Reversible.row

theorem exists_visible {r : Reversible BlockData} (hr : r ∈ stored)
    (hrange : c.inRange r.row.num r.forkId) :
    ∃ r' ∈ stored, c.Visible stored r' ∧ r'.row.num = r.row.num ∧ r.forkId ≤ r'.forkId := by
  let same := stored.filter (fun x ↦
    decide (c.inRange x.row.num x.forkId ∧ x.row.num = r.row.num))
  have hsame : ∀ {x}, x ∈ same ↔ x ∈ stored ∧ c.inRange x.row.num x.forkId ∧
      x.row.num = r.row.num := by
    intro x
    rw [List.mem_filter, decide_eq_true_eq]
  have hr' : r ∈ same := hsame.mpr ⟨hr, hrange, rfl⟩
  cases hmax : same.argmax Reversible.forkId with
  | none =>
    rw [List.argmax_eq_none] at hmax
    rw [hmax] at hr'
    exact absurd hr' (by simp)
  | some m =>
    obtain ⟨hm, hmrange, hnum⟩ := hsame.mp (List.argmax_mem hmax)
    refine ⟨m, hm, ⟨hmrange, fun x hx hxrange hxm ↦ ?_⟩, hnum, List.le_of_mem_argmax hr' hmax⟩
    exact List.le_of_mem_argmax (hsame.mpr ⟨hx, hxrange, hxm.trans hnum⟩) hmax

theorem mem_visibleForks (hrev : h.reversible = .ofStored stored) {nf : ℕ × ℕ} :
    nf ∈ c.visibleForks h ↔ ∃ r ∈ stored, c.Visible stored r ∧ (r.row.num, r.forkId) = nf := by
  have hmem : ∀ {x : Reversible Block},
      x ∈ h.reversible.blocks.filter (fun rb ↦ decide (c.inRange rb.row.num rb.forkId)) ↔
        ∃ r ∈ stored, c.inRange r.row.num r.forkId ∧ x = ⟨r.row.block, r.forkId⟩ := by
    intro x
    rw [List.mem_filter, decide_eq_true_eq, hrev, ReversibleTables.ofStored, mem_storedRows]
    constructor
    · rintro ⟨⟨r, hr, hx, hf⟩, hrange⟩
      rw [List.mem_singleton] at hx
      rw [hx, hf] at hrange
      exact ⟨r, hr, hrange, by rw [← hx, ← hf]⟩
    · rintro ⟨r, hr, hrange, rfl⟩
      exact ⟨⟨r, hr, List.mem_cons_self, rfl⟩, hrange⟩
  rw [visibleForks, mem_newestNumAndForks]
  constructor
  · rintro ⟨x, hx, rfl⟩
    obtain ⟨hx, hnewest⟩ := mem_newestForks.mp hx
    obtain ⟨r, hr, hrange, rfl⟩ := hmem.mp hx
    refine ⟨r, hr, ⟨hrange, fun r' hr' hrange' hnum ↦ ?_⟩, rfl⟩
    exact hnewest ⟨r'.row.block, r'.forkId⟩ (hmem.mpr ⟨r', hr', hrange', rfl⟩) hnum
  · rintro ⟨r, hr, ⟨hrange, hnewest⟩, rfl⟩
    refine ⟨⟨r.row.block, r.forkId⟩, mem_newestForks.mpr ⟨hmem.mpr ⟨r, hr, hrange, rfl⟩, ?_⟩, rfl⟩
    intro x hx hnum
    obtain ⟨r', hr', hrange', rfl⟩ := hmem.mp hx
    exact hnewest r' hr' hrange' hnum

theorem decide_mem_visibleForks (hrev : h.reversible = .ofStored stored)
    {r : Reversible BlockData} (hr : r ∈ stored) :
    decide ((r.row.num, r.forkId) ∈ c.visibleForks h) = decide (c.Visible stored r) := by
  rw [decide_eq_decide, mem_visibleForks hrev]
  constructor
  · rintro ⟨r', -, hvisible, he⟩
    rw [Prod.mk.injEq] at he
    rwa [Visible, he.1, he.2] at hvisible
  · exact fun hvisible ↦ ⟨r, hr, hvisible, rfl⟩

theorem filter_flatMap_le {f : BlockData → List α} {blockNum : α → Option ℕ} {n : ℕ}
    (hnum : Numbered BlockData.num chain)
    (hf : ∀ d ∈ chain, ∀ a ∈ f d, blockNum a = some d.num) :
    (chain.flatMap f).filter (fun x ↦ decide ((blockNum x).getD 1 ≤ n)) =
      (chain.take n).flatMap f := by
  have hfilter : chain.filter (fun d ↦ decide (d.num ≤ n)) = chain.take n := by
    simpa only [List.drop_zero] using hnum.drop_filter_le (b := 0) (k := n)
  rw [← hfilter, List.filter_flatMap]
  refine flatMap_filter fun d hd ↦ ?_
  have hcongr : ∀ a ∈ f d, decide ((blockNum a).getD 1 ≤ n) = decide (d.num ≤ n) := by
    intro a ha
    rw [hf d hd a ha, Option.getD_some]
  rw [List.filter_congr hcongr]
  cases decide (d.num ≤ n) <;> simp

theorem view_eq (inv : StorageInv h chain stored) (hirr : c.irreversibleBlock ≤ h.headOfBlocks)
    (f : BlockData → List α) (blockNum : α → Option ℕ)
    (hchain : ∀ d ∈ chain, ∀ a ∈ f d, blockNum a = some d.num)
    (hstored : ∀ r ∈ stored, ∀ a ∈ f r.row, blockNum a = some r.row.num) :
    c.view blockNum ((chain.take h.headOfBlocks).flatMap f) (storedRows f stored) h =
      (c.seen chain stored).flatMap f := by
  have hmin : min c.minBlock h.headOfBlocks = c.minBlock :=
    Nat.min_eq_left ((Nat.min_le_left _ _).trans hirr)
  have hleft := filter_flatMap_le (n := c.minBlock)
    (inv.consistent.numbered.take h.headOfBlocks)
    fun d hd ↦ hchain d (List.mem_of_mem_take hd)
  have hright : stored.filter (fun r ↦ decide ((r.row.num, r.forkId) ∈ c.visibleForks h)) =
      stored.filter (fun r ↦ decide (c.Visible stored r)) :=
    List.filter_congr fun r hr ↦ decide_mem_visibleForks inv.reversible hr
  rw [view, hleft, joinForks_storedRows hstored, hright, List.take_take, hmin, seen,
    List.flatMap_append]

end Context

def ContextViews.ofBlocks (blocks : List BlockData) : ContextViews where
  blocks := blocks.map BlockData.block
  transactions := blocks.flatMap BlockData.transactions
  operations := blocks.flatMap BlockData.operations
  accounts := (blocks.flatMap BlockData.accounts).map (fun a ↦ (a.id, a.name))
  accountOperations := blocks.flatMap BlockData.accountOperations

namespace BlockData.WellFormed

theorem operationId {d : BlockData} (hd : d.WellFormed) {a : AccountOperation}
    (ha : a ∈ d.accountOperations) : operationIdToBlockNum a.operationId = d.num := by
  obtain ⟨o, ho, hid⟩ := List.mem_map.mp (hd.accountOperations a ha)
  rw [← hid, hd.operations o ho, BlockData.num]

end BlockData.WellFormed

namespace Context

variable (inv : StorageInv h chain stored) (hirr : c.irreversibleBlock ≤ h.headOfBlocks)

include inv hirr

theorem view_eq_of_wellFormed (f : BlockData → List α) (blockNum : α → Option ℕ)
    (hf : ∀ d : BlockData, d.WellFormed → ∀ a ∈ f d, blockNum a = some d.num)
    {irreversible : List α} {reversible : List (Reversible α)}
    (hi : irreversible = (chain.take h.headOfBlocks).flatMap f)
    (hr : reversible = storedRows f stored) :
    c.view blockNum irreversible reversible h = (c.seen chain stored).flatMap f := by
  rw [hi, hr]
  exact view_eq inv hirr f blockNum (fun d hd ↦ hf d (inv.wellFormed d hd))
    fun r hr ↦ hf r.row (inv.storedWellFormed r hr)

theorem blocksView_eq : c.blocksView h = (c.seen chain stored).map BlockData.block := by
  rw [blocksView, List.map_eq_flatMap]
  refine view_eq_of_wellFormed inv hirr _ _ (fun d _ a ha ↦ ?_) ?_
    (congrArg ReversibleTables.blocks inv.reversible)
  · rw [List.mem_singleton.mp ha, BlockData.num]
  · rw [inv.irreversible, IrreversibleTables.ofChain, List.map_eq_flatMap]

theorem views_eq : c.views h = .ofBlocks (c.seen chain stored) := by
  have hblocks := blocksView_eq inv hirr
  have htransactions : c.transactionsView h = (c.seen chain stored).flatMap BlockData.transactions :=
    view_eq_of_wellFormed inv hirr _ _
      (fun d hd a ha ↦ by rw [hd.transactions a ha, BlockData.num])
      (congrArg IrreversibleTables.transactions inv.irreversible)
      (congrArg ReversibleTables.transactions inv.reversible)
  have hoperations : c.operationsView h = (c.seen chain stored).flatMap BlockData.operations :=
    view_eq_of_wellFormed inv hirr _ _
      (fun d hd a ha ↦ by rw [hd.operations a ha, BlockData.num])
      (congrArg IrreversibleTables.operations inv.irreversible)
      (congrArg ReversibleTables.operations inv.reversible)
  have haccounts := view_eq_of_wellFormed inv hirr BlockData.accounts Account.blockNum
    (fun d hd a ha ↦ hd.accounts a ha)
    (congrArg IrreversibleTables.accounts inv.irreversible)
    (congrArg ReversibleTables.accounts inv.reversible)
  have haccountOperations : c.accountOperationsView h =
      (c.seen chain stored).flatMap BlockData.accountOperations :=
    view_eq_of_wellFormed inv hirr _ _ (fun d hd a ha ↦ by rw [hd.operationId ha])
      (congrArg IrreversibleTables.accountOperations inv.irreversible)
      (congrArg ReversibleTables.accountOperations inv.reversible)
  rw [views, hblocks, htransactions, hoperations, accountsView, haccounts, haccountOperations]
  rfl

end Context

end HiveForkManager
