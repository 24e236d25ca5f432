import HiveForkManager.IrreversibleChain
import HiveForkManager.Views

namespace HiveForkManager

open ForkStore

variable {h : Hafd} {chain : List BlockData} {stored : List (Reversible BlockData)} {w : World ℕ}

theorem headForks_eq (hpub : h.headOfBlocks = h.irreversibleHead)
    (hrows : ∀ r ∈ h.reversible.blocks, r.row.num ≤ chain.length) :
    h.headForks = numAndForks h.headOfBlocks chain.length h.reversible := by
  rw [Hafd.headForks, newestNumAndForks, numAndForks, blocksInRange, ← hpub]
  congr 2
  apply List.filter_congr
  intro r hr
  simp only [hrows r hr, true_and]

theorem head_view_eq {α : Type} (inv : StorageInv h chain stored)
    (hpub : h.headOfBlocks = h.irreversibleHead)
    (hrows : ∀ r ∈ h.reversible.blocks, r.row.num ≤ chain.length) (f : BlockData → List α)
    (blockNum : α → Option ℕ) (hf : ∀ r ∈ stored, ∀ a ∈ f r.row, blockNum a = some r.row.num) :
    (chain.take h.headOfBlocks).flatMap f ++ joinForks blockNum h.headForks (storedRows f stored) =
      chain.flatMap f := by
  rw [headForks_eq hpub hrows, joinForks_storedRows hf, filter_numAndForks inv le_rfl,
    List.take_length, ← List.flatMap_append, List.take_append_drop]

theorem blocksView_eq (inv : StorageInv h chain stored)
    (hpub : h.headOfBlocks = h.irreversibleHead)
    (hrows : ∀ r ∈ h.reversible.blocks, r.row.num ≤ chain.length) :
    h.blocksView = chain.map BlockData.block := by
  have hview := head_view_eq inv hpub hrows (fun d ↦ [d.block]) (fun x ↦ some x.num)
    fun r _ a ha ↦ by rw [List.mem_singleton.mp ha]; rfl
  rw [← List.map_eq_flatMap, ← List.map_eq_flatMap] at hview
  rw [Hafd.blocksView, inv.irreversible, inv.reversible, ← hview]
  rfl

theorem transactionsView_eq (inv : StorageInv h chain stored)
    (hpub : h.headOfBlocks = h.irreversibleHead)
    (hrows : ∀ r ∈ h.reversible.blocks, r.row.num ≤ chain.length) :
    h.transactionsView = chain.flatMap BlockData.transactions := by
  rw [Hafd.transactionsView, inv.irreversible, inv.reversible]
  refine head_view_eq inv hpub hrows _ _ fun r hr a ha ↦ ?_
  rw [(inv.storedWellFormed r hr).transactions a ha, BlockData.num]

theorem operationsView_eq (inv : StorageInv h chain stored)
    (hpub : h.headOfBlocks = h.irreversibleHead)
    (hrows : ∀ r ∈ h.reversible.blocks, r.row.num ≤ chain.length) :
    h.operationsView = chain.flatMap BlockData.operations := by
  rw [Hafd.operationsView, inv.irreversible, inv.reversible]
  refine head_view_eq inv hpub hrows _ _ fun r hr a ha ↦ ?_
  rw [(inv.storedWellFormed r hr).operations a ha, BlockData.num]

theorem exists_num_mem_blocksView {r : Reversible Block} (hr : r ∈ h.reversible.blocks)
    (hlt : h.irreversibleHead < r.row.num) : ∃ b ∈ h.blocksView, b.num = r.row.num := by
  have hshown : r ∈ h.reversible.blocks.filter (fun rb ↦
      decide (h.irreversibleHead < rb.row.num)) :=
    List.mem_filter.mpr ⟨hr, decide_eq_true hlt⟩
  obtain ⟨r', hr', hnum, -⟩ := exists_newestForks hshown
  have hmem := List.mem_of_mem_filter (mem_newestForks.mp hr').1
  refine ⟨r'.row, List.mem_append_right _ (mem_joinForks.mpr ⟨r', hmem, rfl, ?_⟩), hnum⟩
  exact ⟨_, mem_newestNumAndForks.mpr ⟨r', hr', rfl⟩, rfl, rfl⟩

/-- The head-block views show exactly the blocks of hived's chain if and only if no stored block is
above its head: after a fork the views go on showing the abandoned blocks above the common one. -/
theorem head_views_eq_chain_iff (hw : Reachable (fun w call ↦ call.Lawful w) w)
    (hpub : w.Published) :
    (w.db.blocksView.Perm (w.chain.map BlockData.block) ∧
      w.db.transactionsView.Perm (w.chain.flatMap BlockData.transactions) ∧
      w.db.operationsView.Perm (w.chain.flatMap BlockData.operations)) ↔
    ∀ r ∈ w.db.reversible.blocks, r.row.num ≤ w.chain.length := by
  obtain ⟨stored, lo, inv⟩ := hw.worldInv fun _ _ h ↦ h
  constructor
  · rintro ⟨hblocks, -, -⟩ r hr
    rcases Nat.lt_or_ge w.db.irreversibleHead r.row.num with hlt | hle
    · obtain ⟨b, hb, hnum⟩ := exists_num_mem_blocksView hr hlt
      obtain ⟨d, hd, rfl⟩ := List.mem_map.mp (hblocks.mem_iff.mp hb)
      rw [← hnum]
      exact inv.storage.consistent.numbered.num_le hd
    · have hhead := inv.storage.head_le_length
      rw [show w.db.headOfBlocks = w.db.irreversibleHead from hpub] at hhead
      exact hle.trans hhead
  · intro hrows
    exact ⟨.of_eq (blocksView_eq inv.storage hpub hrows),
      .of_eq (transactionsView_eq inv.storage hpub hrows),
      .of_eq (operationsView_eq inv.storage hpub hrows)⟩

theorem head_views_eq_chain_after_fork :
    worldAfterFork.db.blocksView.Perm (worldAfterFork.chain.map BlockData.block) ∧
      worldAfterFork.db.transactionsView.Perm
        (worldAfterFork.chain.flatMap BlockData.transactions) ∧
      worldAfterFork.db.operationsView.Perm (worldAfterFork.chain.flatMap BlockData.operations) :=
  (head_views_eq_chain_iff ((Reachable.initial .live).run (by decide +kernel))
    (by decide +kernel)).mpr (by decide +kernel)

def worldAtFork : World ℕ := (World.initial ℕ .live).run
  [.hived (.pushBlock (emptyBlock 1 1 0)), .hived (.pushBlock (emptyBlock 2 2 1)),
    .hived (.backFromFork 1)]

/-- After the fork hived is on a chain of one block, and `hive.blocks_view` still shows two. -/
theorem blocksView_shows_abandoned_block :
    Reachable (fun w call ↦ call.Lawful w) worldAtFork ∧ worldAtFork.chain = [emptyBlock 1 1 0] ∧
      worldAtFork.db.blocksView = [(emptyBlock 1 1 0).block, (emptyBlock 2 2 1).block] :=
  ⟨(Reachable.initial .live).run (by decide +kernel), by decide +kernel, by decide +kernel⟩

end HiveForkManager
