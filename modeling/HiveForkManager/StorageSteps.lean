import HiveForkManager.Storage

namespace HiveForkManager

open ForkStore

variable {ρ : Type} {h : Hafd} {chain : List BlockData} {stored : List (Reversible BlockData)}

namespace StorageInv

theorem events (inv : StorageInv h chain stored) (queue : List Event) (seq : ℕ) :
    StorageInv { h with eventsQueue := queue, eventsIdSeq := seq } chain stored :=
  { inv with }

variable {d : BlockData}

theorem push (inv : StorageInv h chain stored) (hd : d.Extends chain)
    (hpub : h.headOfBlocks = h.irreversibleHead) :
    StorageInv { h with reversible := h.reversible.insert d h.maxFork } (chain ++ [d])
      (stored ++ [⟨d, h.maxFork⟩]) where
  full := inv.full
  reversible := by
    rw [inv.reversible]
    simp [ReversibleTables.ofStored, ReversibleTables.insert, storedRows]
  irreversible := by
    refine inv.irreversible.trans ?_
    congr 1
    exact (List.take_append_of_le_length inv.head_le_length).symm
  consistent :=
    inv.consistent.push (r := ⟨d, h.maxFork⟩) hd.num (fun _ hg ↦ inv.id_le_maxFork hg)
      inv.exists_maxFork
  wellFormed d' hd' := by
    rcases List.mem_append.mp hd' with hd' | hd'
    · exact inv.wellFormed d' hd'
    · exact List.mem_singleton.mp hd' ▸ hd.wellFormed
  storedWellFormed r hr := by
    rcases List.mem_append.mp hr with hr | hr
    · exact inv.storedWellFormed r hr
    · exact List.mem_singleton.mp hr ▸ hd.wellFormed
  nodup := by
    rw [List.map_append, List.nodup_append]
    refine ⟨inv.nodup, List.nodup_singleton _, ?_⟩
    rintro _ hr _ hr' rfl
    obtain ⟨r, hr, heq⟩ := List.mem_map.mp hr
    obtain ⟨hnum, hfork⟩ := Prod.mk.inj (heq.trans (List.mem_singleton.mp hr'))
    have hle : r.row.num ≤ chain.length := inv.consistent.numbered.num_le
      (inv.consistent.live_mem _ hr (inv.live_of_maxFork hfork))
    have hnew : d.num = chain.length + 1 := hd.num
    rw [hnum] at hle
    exact absurd (hnew ▸ hle) (Nat.not_succ_le_self _)
  newTransactions := by
    rw [List.pairwise_append]
    refine ⟨inv.newTransactions, List.pairwise_singleton _ _, ?_⟩
    intro d₁ h₁ d₂ h₂ t ht t' ht'
    rw [List.mem_singleton.mp h₂] at ht'
    exact (hd.newTransactions d₁ h₁ t' ht' t ht).symm
  storedTransactions := by
    have hnew : ∀ r ∈ stored, r.forkId = h.maxFork → ∀ t ∈ r.row.transactions,
        ∀ t' ∈ d.transactions, t.trxHash ≠ t'.trxHash := by
      intro r hr hf t ht t' ht'
      have hmem := inv.consistent.live_mem r hr (inv.live_of_maxFork hf)
      exact (hd.newTransactions r.row hmem t' ht' t ht).symm
    intro r hr r' hr' hf t ht t' ht' hh
    rcases List.mem_append.mp hr with hr | hr <;> rcases List.mem_append.mp hr' with hr' | hr'
    · exact inv.storedTransactions r hr r' hr' hf t ht t' ht' hh
    · rw [List.mem_singleton.mp hr'] at hf ht'
      exact absurd hh (hnew r hr hf t ht t' ht')
    · rw [List.mem_singleton.mp hr] at hf ht
      exact absurd hh.symm (hnew r' hr' hf.symm t' ht' t ht)
    · rw [List.mem_singleton.mp hr, List.mem_singleton.mp hr']
  forkIds := inv.forkIds
  forks_pos := inv.forks_pos
  head_le := inv.head_le
  dumping hlt := absurd hpub (Nat.ne_of_gt hlt)

theorem branch (inv : StorageInv h chain stored) {k : ℕ} (hk : h.headOfBlocks ≤ k)
    (hlen : k ≤ chain.length) (hpub : h.headOfBlocks = h.irreversibleHead) :
    StorageInv { h with forks := h.forks ++ [⟨h.maxFork + 1, k⟩] } (chain.take k) stored where
  full := inv.full
  reversible := inv.reversible
  irreversible := by
    refine inv.irreversible.trans ?_
    congr 1
    rw [List.take_take]
    congr 1
    exact (Nat.min_eq_left hk).symm
  consistent := by
    apply inv.consistent.branch (g := (⟨h.maxFork + 1, k⟩ : Fork)) _ hk hlen
    intro g hg
    exact Nat.lt_succ_of_le (inv.id_le_maxFork hg)
  wellFormed d hd := inv.wellFormed d (List.mem_of_mem_take hd)
  storedWellFormed := inv.storedWellFormed
  nodup := inv.nodup
  newTransactions := inv.newTransactions.sublist (List.take_sublist _ _)
  storedTransactions := inv.storedTransactions
  forkIds := by
    rw [List.map_append, inv.forkIds, List.length_append, List.length_singleton, List.map_singleton,
      List.range'_concat, inv.maxFork_eq]
    simp [Nat.add_comm]
  forks_pos := by simp
  head_le := inv.head_le
  dumping hlt := absurd hpub (Nat.ne_of_gt hlt)

theorem irreversible_insert (inv : StorageInv h chain stored) (d : BlockData)
    (hlen : chain.length = h.headOfBlocks) :
    h.irreversible.insert d = .ofChain (chain ++ [d]) := by
  rw [inv.irreversible, ← hlen, List.take_length]
  simp [IrreversibleTables.insert, IrreversibleTables.ofChain]

theorem headOfBlocks_insert (inv : StorageInv h chain stored)
    (hd : d.Extends chain) (hlen : chain.length = h.headOfBlocks) :
    ({ h with irreversible := h.irreversible.insert d } : Hafd).headOfBlocks =
      h.headOfBlocks + 1 := by
  have hnum := (inv.consistent.grow (a := d) hd.num hlen).numbered
  have hle : h.headOfBlocks + 1 ≤ (chain ++ [d]).length := by simp [hlen]
  apply headOfBlocks_of_irreversible hle hnum
  rw [List.take_of_length_le (by simp [hlen])]
  exact inv.irreversible_insert d hlen

theorem dump (inv : StorageInv h chain stored) (hd : d.Extends chain)
    (hlen : chain.length = h.headOfBlocks) :
    StorageInv { h with irreversible := h.irreversible.insert d } (chain ++ [d]) stored := by
  have hirr := inv.irreversible_insert d hlen
  have hcons := inv.consistent.grow (a := d) hd.num hlen
  have hhead := inv.headOfBlocks_insert hd hlen
  refine ⟨inv.full, inv.reversible, ?_, ?_, ?_, inv.storedWellFormed, inv.nodup, ?_,
    inv.storedTransactions, inv.forkIds, inv.forks_pos, ?_, ?_⟩
  · rw [hhead, List.take_of_length_le (by simp [hlen])]
    exact hirr
  · rw [hhead]
    exact hcons
  · intro d' hd'
    rcases List.mem_append.mp hd' with hd' | hd'
    · exact inv.wellFormed d' hd'
    · exact List.mem_singleton.mp hd' ▸ hd.wellFormed
  · rw [List.pairwise_append]
    refine ⟨inv.newTransactions, List.pairwise_singleton _ _, ?_⟩
    intro d₁ h₁ d₂ h₂ t ht t' ht'
    rw [List.mem_singleton.mp h₂] at ht'
    exact (hd.newTransactions d₁ h₁ t' ht' t ht).symm
  · rw [hhead]
    exact inv.head_le.trans (Nat.le_succ _)
  · intro _
    rw [hhead, List.length_append, List.length_singleton, hlen]

theorem announce (inv : StorageInv h chain stored) {n : ℕ} (hn : n ≤ h.headOfBlocks)
    (hlen : n < h.headOfBlocks → chain.length = h.headOfBlocks) :
    StorageInv { h with hiveState := { h.hiveState with consistentBlock := some n } }
      chain stored :=
  { inv with head_le := hn, dumping := hlen }

end StorageInv

section Cleanup

theorem obsoleteBlockBound_le (n : ℕ) (db : Db ρ) : db.obsoleteBlockBound n ≤ n :=
  Nat.min_le_right _ _

def Db.kept (n : ℕ) (db : Db ρ) (stored : List (Reversible BlockData)) :
    List (Reversible BlockData) :=
  stored.filter (fun r ↦ !db.isObsolete n r.row.num r.forkId)

theorem removeObsoleteReversibleData_eq {db : Db ρ} (hfull : db.hiveState.liteMode = false)
    (hstored : StoredBlocks db.reversible stored) (n : ℕ) :
    removeObsoleteReversibleData n db = { db with reversible := .ofStored (db.kept n stored) } := by
  rw [removeObsoleteReversibleData, hfull, if_neg Bool.false_ne_true]
  have hrev := hstored.reversible
  congr 2
  simp only [hrev, ReversibleTables.ofStored, ReversibleTables.mk.injEq]
  refine ⟨?_, ?_, ?_, ?_, ?_, ?_, ?_⟩
  · apply filter_storedRows
    intro r hr a ha
    rw [List.mem_singleton.mp ha]
    rfl
  · apply filter_storedRows
    intro r hr a ha
    rw [(hstored.wellFormed r hr).transactions a ha]
    rfl
  · apply filter_storedRows
    intro r hr s hs
    congr 1
    rw [Bool.eq_iff_iff, List.any_eq_true]
    simp only [Bool.and_eq_true, decide_eq_true_eq]
    constructor
    · rintro ⟨x, hx, ⟨hf, hh⟩, hob⟩
      obtain ⟨r', hr', hx', hf'⟩ := mem_storedRows.mp hx
      obtain ⟨t, ht, hts⟩ := List.mem_map.mp ((hstored.wellFormed r hr).signatures s hs)
      have heq := hstored.transactions r' hr' r hr (hf' ▸ hf) x.row hx' t ht (hh.trans hts.symm)
      rw [heq] at hx' hf'
      rwa [(hstored.wellFormed r hr).transactions _ hx', hf'] at hob
    · intro hob
      obtain ⟨t, ht, hts⟩ := List.mem_map.mp ((hstored.wellFormed r hr).signatures s hs)
      refine ⟨⟨t, r.forkId⟩, mem_storedRows.mpr ⟨r, hr, ht, rfl⟩, ⟨rfl, hts⟩, ?_⟩
      rw [(hstored.wellFormed r hr).transactions t ht]
      exact hob
  · apply filter_storedRows
    intro r hr a ha
    rw [(hstored.wellFormed r hr).operations a ha]
    rfl
  · apply filter_storedRows
    intro r hr a ha
    rw [(hstored.wellFormed r hr).accounts a ha]
    rfl
  · apply filter_storedRows
    intro r hr a ha
    congr 1
    rw [Bool.eq_iff_iff, List.any_eq_true]
    simp only [Bool.and_eq_true, decide_eq_true_eq]
    constructor
    · rintro ⟨o, ho, ⟨hid, hf⟩, hob⟩
      obtain ⟨o', ho', hoid⟩ := List.mem_map.mp ((hstored.wellFormed r hr).accountOperations a ha)
      have hnum := (hstored.wellFormed r hr).operations o' ho'
      rwa [← hid, ← hoid, hnum, ← hf] at hob
    · intro hob
      obtain ⟨o, ho, hid⟩ := List.mem_map.mp ((hstored.wellFormed r hr).accountOperations a ha)
      refine ⟨⟨o, r.forkId⟩, mem_storedRows.mpr ⟨r, hr, ho, rfl⟩, ⟨hid.symm, rfl⟩, ?_⟩
      rw [(hstored.wellFormed r hr).operations o ho]
      exact hob
  · apply filter_storedRows
    intro r hr a ha
    rw [(hstored.wellFormed r hr).appliedHardforks a ha]
    rfl

theorem StorageInv.cleanup {db : Db ρ} (inv : StorageInv db.toHafd chain stored) {n : ℕ}
    (hn : n ≤ db.headOfBlocks) :
    StorageInv (removeObsoleteReversibleData n db).toHafd chain (db.kept n stored) := by
  rw [removeObsoleteReversibleData_eq inv.full inv.storedBlocks]
  refine ⟨inv.full, rfl, inv.irreversible, ?_, inv.wellFormed, ?_,
    inv.nodup.sublist (List.filter_sublist.map _),
    inv.newTransactions, ?_, inv.forkIds, inv.forks_pos, inv.head_le, inv.dumping⟩
  · apply inv.consistent.delete
    intro r _ hl hlt
    have hsup := superseded_eq_false_iff.mpr hl
    have hbound := obsoleteBlockBound_le n db
    have hnum : ¬ r.row.num ≤ db.obsoleteBlockBound n := by omega
    simp [Db.isObsolete, hsup, hnum]
  · exact fun r hr ↦ inv.storedWellFormed r (List.mem_of_mem_filter hr)
  · exact fun r hr r' hr' ↦
      inv.storedTransactions r (List.mem_of_mem_filter hr) r' (List.mem_of_mem_filter hr')

end Cleanup

end HiveForkManager
