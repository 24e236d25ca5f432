import HiveForkManager.Lib.ForkStore
import HiveForkManager.History

namespace HiveForkManager

open ForkStore

variable {ρ α : Type}

namespace BlockData

def num (d : BlockData) : ℕ := d.block.num

end BlockData

def storedRows (f : BlockData → List α) (stored : List (Reversible BlockData)) :
    List (Reversible α) :=
  stored.flatMap (fun r ↦ (f r.row).map (⟨·, r.forkId⟩))

def ReversibleTables.ofStored (stored : List (Reversible BlockData)) : ReversibleTables where
  blocks := storedRows (fun d ↦ [d.block]) stored
  transactions := storedRows BlockData.transactions stored
  transactionsMultisig := storedRows BlockData.signatures stored
  operations := storedRows BlockData.operations stored
  accounts := storedRows BlockData.accounts stored
  accountOperations := storedRows BlockData.accountOperations stored
  appliedHardforks := storedRows BlockData.appliedHardforks stored

def IrreversibleTables.ofChain (chain : List BlockData) : IrreversibleTables where
  blocks := chain.map BlockData.block
  transactions := chain.flatMap BlockData.transactions
  transactionsMultisig := chain.flatMap BlockData.signatures
  operations := chain.flatMap BlockData.operations
  accounts := chain.flatMap BlockData.accounts
  accountOperations := chain.flatMap BlockData.accountOperations
  appliedHardforks := chain.flatMap BlockData.appliedHardforks

section StoredRows

variable {f : BlockData → List α} {stored : List (Reversible BlockData)}

theorem mem_storedRows {x : Reversible α} :
    x ∈ storedRows f stored ↔ ∃ r ∈ stored, x.row ∈ f r.row ∧ x.forkId = r.forkId := by
  simp only [storedRows, List.mem_flatMap, List.mem_map]
  constructor
  · rintro ⟨r, hr, a, ha, rfl⟩
    exact ⟨r, hr, ha, rfl⟩
  · rintro ⟨r, hr, ha, he⟩
    exact ⟨r, hr, x.row, ha, by rw [← he]⟩

theorem filter_storedRows {p : Reversible α → Bool} {q : Reversible BlockData → Bool}
    (h : ∀ r ∈ stored, ∀ a ∈ f r.row, p ⟨a, r.forkId⟩ = q r) :
    (storedRows f stored).filter p = storedRows f (stored.filter q) := by
  induction stored with
  | nil => rfl
  | cons r stored ih =>
    have hhead : ((f r.row).map (fun a ↦ (⟨a, r.forkId⟩ : Reversible α))).filter p =
        if q r then (f r.row).map (fun a ↦ (⟨a, r.forkId⟩ : Reversible α)) else [] := by
      rw [List.filter_map]
      have hcongr : ∀ a ∈ f r.row, (p ∘ fun a ↦ (⟨a, r.forkId⟩ : Reversible α)) a = q r :=
        fun a ha ↦ h r List.mem_cons_self a ha
      rw [List.filter_congr hcongr]
      cases q r <;> simp
    have htail := ih fun r' hr' ↦ h r' (List.mem_cons_of_mem _ hr')
    simp only [storedRows, List.flatMap_cons, List.filter_append, List.filter_cons] at htail ⊢
    rw [hhead, htail]
    cases q r <;> simp

theorem map_row_storedRows :
    (storedRows f stored).map Reversible.row = (stored.map Reversible.row).flatMap f := by
  simp only [storedRows, List.map_flatMap, List.flatMap_map]
  congr 1
  funext r
  rw [List.map_map]
  exact List.map_id _

theorem joinForks_storedRows {blockNum : α → Option ℕ} {forks : List (ℕ × ℕ)}
    (h : ∀ r ∈ stored, ∀ a ∈ f r.row, blockNum a = some r.row.num) :
    joinForks blockNum forks (storedRows f stored) =
      ((stored.filter (fun r ↦ decide ((r.row.num, r.forkId) ∈ forks))).map
        Reversible.row).flatMap f := by
  rw [joinForks, filter_storedRows (q := fun r ↦ decide ((r.row.num, r.forkId) ∈ forks)),
    map_row_storedRows]
  intro r hr a ha
  rw [Bool.eq_iff_iff, List.any_eq_true, decide_eq_true_eq]
  simp only [h r hr a ha, Option.some.injEq, decide_eq_true_eq]
  constructor
  · rintro ⟨nf, hnf, h₁, h₂⟩
    rwa [h₁, h₂]
  · exact fun hmem ↦ ⟨_, hmem, rfl, rfl⟩

end StoredRows

theorem superseded_iff {forks : List Fork} {num forkId : ℕ} :
    superseded forks num forkId = true ↔ ∃ g ∈ forks, forkId < g.id ∧ g.blockNum < num := by
  rw [superseded]
  cases hmin : ((forks.filter (fun f ↦ decide (forkId < f.id))).map Fork.blockNum).min? with
  | none =>
    rw [List.min?_eq_none_iff, List.map_eq_nil_iff, List.filter_eq_nil_iff] at hmin
    simp only [Bool.false_eq_true, false_iff, not_exists, not_and]
    intro g hg hlt
    exact absurd (hmin g hg) (by simpa using hlt)
  | some m =>
    rw [List.min?_eq_some_iff] at hmin
    obtain ⟨hm, hle⟩ := hmin
    simp only [List.mem_map, List.mem_filter, decide_eq_true_eq] at hm hle ⊢
    constructor
    · intro hlt
      obtain ⟨g, ⟨hg, hgf⟩, rfl⟩ := hm
      exact ⟨g, hg, hgf, hlt⟩
    · rintro ⟨g, hg, hgf, hlt⟩
      exact (hle _ ⟨g, ⟨hg, hgf⟩, rfl⟩).trans_lt hlt

/-- The block is on hived's chain, as far as forks can tell. -/
abbrev LiveBlock (forks : List Fork) (r : Reversible BlockData) : Prop :=
  Live BlockData.num Reversible.row Reversible.forkId Fork.id Fork.blockNum forks r

theorem superseded_eq_false_iff {forks : List Fork} {r : Reversible BlockData} :
    superseded forks r.row.num r.forkId = false ↔ LiveBlock forks r := by
  rw [← Bool.not_eq_true, superseded_iff]
  simp only [Live, not_exists, not_and, not_lt]

structure StoredBlocks (t : ReversibleTables) (stored : List (Reversible BlockData)) : Prop where
  reversible : t = .ofStored stored
  wellFormed : ∀ r ∈ stored, r.row.WellFormed
  nodup : stored.Nodup
  transactions : ∀ r ∈ stored, ∀ r' ∈ stored, r.forkId = r'.forkId →
    ∀ t ∈ r.row.transactions, ∀ t' ∈ r'.row.transactions, t.trxHash = t'.trxHash → r = r'

structure StorageInv (h : Hafd) (chain : List BlockData) (stored : List (Reversible BlockData)) :
    Prop where
  full : h.hiveState.liteMode = false
  reversible : h.reversible = .ofStored stored
  irreversible : h.irreversible = .ofChain (chain.take h.headOfBlocks)
  consistent : Consistent BlockData.num Reversible.row Reversible.forkId Fork.id Fork.blockNum
    h.headOfBlocks h.forks stored chain
  wellFormed : ∀ d ∈ chain, d.WellFormed
  storedWellFormed : ∀ r ∈ stored, r.row.WellFormed
  nodup : (stored.map fun r ↦ (r.row.num, r.forkId)).Nodup
  newTransactions : chain.Pairwise (fun d d' ↦ ∀ t ∈ d.transactions, ∀ t' ∈ d'.transactions,
    t.trxHash ≠ t'.trxHash)
  storedTransactions : ∀ r ∈ stored, ∀ r' ∈ stored, r.forkId = r'.forkId →
    ∀ t ∈ r.row.transactions, ∀ t' ∈ r'.row.transactions, t.trxHash = t'.trxHash → r = r'
  forkIds : h.forks.map Fork.id = List.range' 1 h.forks.length
  forks_pos : 0 < h.forks.length
  head_le : h.irreversibleHead ≤ h.headOfBlocks
  dumping : h.irreversibleHead < h.headOfBlocks → chain.length = h.headOfBlocks

theorem headOfBlocks_of_irreversible {h : Hafd} {chain : List BlockData} {n : ℕ}
    (hn : n ≤ chain.length) (hnum : Numbered BlockData.num chain)
    (hirr : h.irreversible = .ofChain (chain.take n)) : h.headOfBlocks = n := by
  have hmap := Numbered.map_num (hnum.take n)
  rw [List.length_take_of_le hn] at hmap
  have hblocks : h.irreversible.blocks.map Block.num = List.range' 1 n := by
    rw [hirr, IrreversibleTables.ofChain, List.map_map]
    exact hmap
  rw [Hafd.headOfBlocks, hblocks]
  cases n with
  | zero => rfl
  | succ n =>
    have hmax : (List.range' 1 (n + 1)).max? = some (n + 1) := by
      rw [List.max?_eq_some_iff]
      constructor
      · rw [List.mem_range'_1]
        omega
      · intro b hb
        rw [List.mem_range'_1] at hb
        omega
    rw [hmax, Option.getD_some]

namespace StorageInv

variable {h : Hafd} {chain : List BlockData} {stored : List (Reversible BlockData)}

theorem storedBlocks (inv : StorageInv h chain stored) : StoredBlocks h.reversible stored :=
  ⟨inv.reversible, inv.storedWellFormed, inv.nodup.of_map, inv.storedTransactions⟩

theorem maxFork_eq (inv : StorageInv h chain stored) : h.maxFork = h.forks.length := by
  have hpos := inv.forks_pos
  have hmax : (h.forks.map Fork.id).max? = some h.forks.length := by
    rw [inv.forkIds, List.max?_eq_some_iff]
    constructor
    · rw [List.mem_range'_1]
      omega
    · intro b hb
      rw [List.mem_range'_1] at hb
      omega
  rw [Hafd.maxFork, hmax, Option.getD_some]

theorem id_le_maxFork (inv : StorageInv h chain stored) {g : Fork} (hg : g ∈ h.forks) :
    g.id ≤ h.maxFork := by
  have hmem := List.mem_map_of_mem (f := Fork.id) hg
  rw [inv.forkIds, List.mem_range'_1] at hmem
  rw [inv.maxFork_eq]
  omega

theorem exists_maxFork (inv : StorageInv h chain stored) : ∃ g ∈ h.forks, h.maxFork = g.id := by
  have hmem : h.maxFork ∈ h.forks.map Fork.id := by
    have hpos := inv.forks_pos
    rw [inv.forkIds, List.mem_range'_1, inv.maxFork_eq]
    omega
  obtain ⟨g, hg, he⟩ := List.mem_map.mp hmem
  exact ⟨g, hg, he.symm⟩

theorem head_le_length (inv : StorageInv h chain stored) : h.headOfBlocks ≤ chain.length :=
  inv.consistent.base_le

theorem live_of_maxFork (inv : StorageInv h chain stored) {r : Reversible BlockData}
    (hr : r.forkId = h.maxFork) : LiveBlock h.forks r := by
  intro g hg hlt
  have := inv.id_le_maxFork hg
  omega

end StorageInv

end HiveForkManager
