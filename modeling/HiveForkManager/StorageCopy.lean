import HiveForkManager.StorageSteps

namespace HiveForkManager

open ForkStore

variable {ρ : Type} {h : Hafd} {chain : List BlockData} {stored : List (Reversible BlockData)}

variable {head n : ℕ}

theorem newestForks_eq (inv : StorageInv h chain stored) (hlen : n ≤ chain.length) :
    newestForks (blocksInRange h.headOfBlocks n h.reversible.blocks) =
      storedRows (fun d ↦ [d.block]) (stored.filter (fun r ↦ decide (LiveBlock h.forks r ∧
        h.headOfBlocks < r.row.num ∧ r.row.num ≤ n))) := by
  have hrange : blocksInRange h.headOfBlocks n h.reversible.blocks =
      storedRows (fun d ↦ [d.block]) (stored.filter (fun r ↦
        decide (r.row.num ≤ n ∧ h.headOfBlocks < r.row.num))) := by
    rw [inv.reversible]
    refine filter_storedRows (f := fun d ↦ [d.block]) ?_
    intro r _ a ha
    rw [List.mem_singleton.mp ha]
    rfl
  rw [hrange, newestForks, filter_storedRows (q := fun r ↦ decide (LiveBlock h.forks r)),
    List.filter_filter]
  · congr 1
    apply List.filter_congr
    intro r _
    simp only [Bool.decide_and, Bool.and_comm (decide (r.row.num ≤ n))]
  · intro r hr a ha
    rw [List.mem_singleton.mp ha, Bool.eq_iff_iff, List.all_eq_true, decide_eq_true_eq]
    simp only [List.mem_filter, decide_eq_true_eq] at hr
    obtain ⟨hr, hn, hlt⟩ := hr
    constructor
    · intro hall
      apply inv.consistent.live_of_newest hlt (hn.trans hlen)
      intro r' hr' hnum
      have hmem : (⟨r'.row.block, r'.forkId⟩ : Reversible Block) ∈
          storedRows (fun d ↦ [d.block]) (stored.filter (fun r ↦
            decide (r.row.num ≤ n ∧ h.headOfBlocks < r.row.num))) := by
        refine mem_storedRows.mpr ⟨r', List.mem_filter.mpr ⟨hr', ?_⟩, List.mem_cons_self, rfl⟩
        simp only [decide_eq_true_eq]
        omega
      exact of_decide_eq_true (hall _ hmem) hnum
    · intro hl x hx
      obtain ⟨r', hr', hx', hf⟩ := mem_storedRows.mp hx
      rw [List.mem_singleton] at hx'
      rw [decide_eq_true_eq, hf, hx']
      exact fun hnum ↦ inv.consistent.fork_le_of_live hr (List.mem_of_mem_filter hr') hl hnum hlt

theorem mem_numAndForks (inv : StorageInv h chain stored) (hlen : n ≤ chain.length)
    (r : Reversible BlockData) (hr : r ∈ stored) :
    (r.row.num, r.forkId) ∈ numAndForks h.headOfBlocks n h.reversible ↔
      LiveBlock h.forks r ∧ h.headOfBlocks < r.row.num ∧ r.row.num ≤ n := by
  simp only [numAndForks, newestForks_eq inv hlen, List.mem_map, mem_storedRows, List.mem_filter,
    decide_eq_true_eq, List.mem_singleton]
  constructor
  · rintro ⟨x, ⟨r', ⟨hr', hl, hlt, hle⟩, hx, hf⟩, he⟩
    rw [hx, Prod.mk.injEq] at he
    obtain ⟨hnum, hf'⟩ := he
    have hnum' : r'.row.num = r.row.num := hnum
    refine ⟨fun g hg hlt' ↦ ?_, hnum' ▸ hlt, hnum' ▸ hle⟩
    rw [← hnum']
    exact hl g hg (by rw [← hf, hf']; exact hlt')
  · rintro ⟨hl, hlt, hle⟩
    exact ⟨⟨r.row.block, r.forkId⟩, ⟨r, ⟨hr, hl, hlt, hle⟩, rfl, rfl⟩, rfl⟩

theorem filter_numAndForks (inv : StorageInv h chain stored) (hlen : n ≤ chain.length) :
    (stored.filter (fun r ↦ decide ((r.row.num, r.forkId) ∈
      numAndForks h.headOfBlocks n h.reversible))).map Reversible.row =
      (chain.take n).drop h.headOfBlocks := by
  rw [← inv.consistent.numbered.drop_filter_le, ← inv.consistent.above, List.filter_map,
    List.filter_filter]
  congr 1
  apply List.filter_congr
  intro r hr
  rw [Bool.eq_iff_iff, Bool.and_eq_true, decide_eq_true_eq, Function.comp_apply, decide_eq_true_eq,
    decide_eq_true_eq, mem_numAndForks inv hlen r hr, ← and_assoc, and_comm]

theorem flatMap_eq_of_unique {α β : Type} {l : List α} (hl : l.Nodup) {a : α} (ha : a ∈ l)
    {f : α → List β} (hf : ∀ b ∈ l, b ≠ a → f b = []) : l.flatMap f = f a := by
  induction l with
  | nil => exact absurd ha (by simp)
  | cons b l ih =>
    rw [List.nodup_cons] at hl
    rw [List.flatMap_cons]
    rcases List.mem_cons.mp ha with rfl | ha
    · have hnil : l.flatMap f = [] := by
        rw [List.flatMap_eq_nil_iff]
        intro b hb
        exact hf b (List.mem_cons_of_mem _ hb) fun he ↦ hl.1 (he ▸ hb)
      rw [hnil, List.append_nil]
    · have hne : b ≠ a := fun he ↦ hl.1 (he ▸ ha)
      rw [hf b List.mem_cons_self hne, List.nil_append]
      exact ih hl.2 ha fun c hc ↦ hf c (List.mem_cons_of_mem _ hc)

theorem transaction_of_signature (hstored : StoredBlocks h.reversible stored)
    {r : Reversible BlockData}
    (hr : r ∈ stored) {s : TransactionMultisig} (hs : s ∈ r.row.signatures) :
    ∃ t ∈ r.row.transactions, (h.reversible.transactions.filter (fun x ↦
      decide (x.row.trxHash = s.trxHash ∧ x.forkId = r.forkId))) = [⟨t, r.forkId⟩] := by
  have hwf := hstored.wellFormed r hr
  obtain ⟨t, ht, hts⟩ := List.mem_map.mp (hwf.signatures s hs)
  refine ⟨t, ht, ?_⟩
  rw [hstored.reversible]
  change (storedRows BlockData.transactions stored).filter _ = _
  rw [storedRows, List.filter_flatMap, flatMap_eq_of_unique hstored.nodup hr]
  · rw [List.filter_map]
    have hone : r.row.transactions.filter (fun x ↦ decide (x.trxHash = s.trxHash)) = [t] := by
      have hsub : ∀ x ∈ r.row.transactions, (decide (x.trxHash = s.trxHash)) = decide (x = t) := by
        intro x hx
        rw [decide_eq_decide, ← hts]
        exact ⟨fun he ↦ List.inj_on_of_nodup_map hwf.trxHashes hx ht he, fun he ↦ he ▸ rfl⟩
      rw [List.filter_congr hsub]
      have hnd : r.row.transactions.Nodup := List.Nodup.of_map _ hwf.trxHashes
      have hfilter := hnd.filter (fun x ↦ decide (x = t))
      have hmem : ∀ x, x ∈ r.row.transactions.filter (fun x ↦ decide (x = t)) ↔ x = t := by
        intro x
        simp only [List.mem_filter, decide_eq_true_eq]
        exact ⟨fun hx ↦ hx.2, fun hx ↦ ⟨hx ▸ ht, hx⟩⟩
      exact (List.perm_singleton.mp ((List.perm_ext_iff_of_nodup hfilter
        (List.nodup_singleton t)).mpr fun x ↦ by rw [hmem x, List.mem_singleton]))
    have hcomp : ((fun x : Reversible Transaction ↦
        decide (x.row.trxHash = s.trxHash ∧ x.forkId = r.forkId)) ∘
          fun x ↦ (⟨x, r.forkId⟩ : Reversible Transaction)) =
        fun x ↦ decide (x.trxHash = s.trxHash) := by
      funext x
      simp
    rw [hcomp, hone, List.map_singleton]
  · intro r' hr' hne
    rw [List.filter_eq_nil_iff]
    intro x hx
    obtain ⟨t', ht', rfl⟩ := List.mem_map.mp hx
    simp only [decide_eq_true_eq, not_and]
    intro hh hf
    exact hne (hstored.transactions r' hr' r hr hf t' ht' t ht (hh.trans hts.symm))

theorem flatMap_filter {α β : Type} {l : List α} {p : α → Bool} {f g : α → List β}
    (h : ∀ a ∈ l, f a = if p a then g a else []) : l.flatMap f = (l.filter p).flatMap g := by
  induction l with
  | nil => rfl
  | cons a l ih =>
    rw [List.flatMap_cons, h a List.mem_cons_self, ih fun b hb ↦ h b (List.mem_cons_of_mem _ hb),
      List.filter_cons]
    cases p a <;> simp

section Selected

variable (h) (head n) (stored)

def selectedBlocks : List BlockData :=
  (stored.filter fun r ↦ decide ((r.row.num, r.forkId) ∈ numAndForks head n h.reversible)).map
    Reversible.row

variable {h} {head n} {stored}

theorem copySignatures_eq (hstored : StoredBlocks h.reversible stored) :
    copySignaturesToIrreversible head n h.reversible =
      (selectedBlocks h stored head n).flatMap BlockData.signatures := by
  rw [selectedBlocks, copySignaturesToIrreversible]
  have hsig : h.reversible.transactionsMultisig = storedRows BlockData.signatures stored := by
    rw [hstored.reversible]
    rfl
  rw [hsig, storedRows, List.flatMap_assoc, List.flatMap_map]
  apply flatMap_filter
  intro r hr
  rw [List.flatMap_map]
  have hone : ∀ s ∈ r.row.signatures, (((h.reversible.transactions.filter (fun x ↦
      decide (x.row.trxHash = s.trxHash ∧ x.forkId = r.forkId))).filter (fun x ↦
        (numAndForks head n h.reversible).any (fun nf ↦
          decide (x.row.blockNum = nf.1 ∧ x.forkId = nf.2)))).map (fun _ ↦ s)) =
      if decide ((r.row.num, r.forkId) ∈ numAndForks head n h.reversible) then [s] else [] := by
    intro s hs
    obtain ⟨t, ht, hfilter⟩ := transaction_of_signature hstored hr hs
    have hany : (numAndForks head n h.reversible).any (fun nf ↦
        decide (t.blockNum = nf.1 ∧ r.forkId = nf.2)) =
        decide ((r.row.num, r.forkId) ∈ numAndForks head n h.reversible) := by
      rw [Bool.eq_iff_iff, List.any_eq_true, decide_eq_true_eq,
        (hstored.wellFormed r hr).transactions t ht]
      constructor
      · rintro ⟨nf, hnf, he⟩
        obtain ⟨h₁, h₂⟩ := of_decide_eq_true he
        rwa [BlockData.num, h₁, h₂]
      · exact fun hmem ↦ ⟨_, hmem, decide_eq_true ⟨rfl, rfl⟩⟩
    rw [hfilter, List.filter_singleton, hany]
    cases decide ((r.row.num, r.forkId) ∈ numAndForks head n h.reversible) <;> rfl
  rw [List.flatMap_congr hone]
  split
  · exact List.flatMap_singleton' _
  · simp

theorem newestForks_eq_filter (rows : List (Reversible Block)) :
    newestForks (blocksInRange head n rows) = rows.filter fun r ↦ decide ((r.row.num, r.forkId) ∈
      (newestForks (blocksInRange head n rows)).map fun r ↦ (r.row.num, r.forkId)) := by
  rw [newestForks]
  nth_rewrite 2 [blocksInRange]
  rw [List.filter_filter]
  refine List.filter_congr fun r hr ↦ ?_
  rw [Bool.eq_iff_iff]
  simp only [Bool.and_eq_true, decide_eq_true_iff, List.mem_map]
  constructor
  · rintro ⟨hall, hrange⟩
    exact ⟨r, List.mem_filter.mpr ⟨List.mem_filter.mpr ⟨hr, decide_eq_true hrange⟩, hall⟩, rfl⟩
  · rintro ⟨r', hr', he⟩
    rw [Prod.mk.injEq] at he
    obtain ⟨hr', hall⟩ := List.mem_filter.mp hr'
    have hrange := of_decide_eq_true (List.mem_filter.mp hr').2
    rw [he.1] at hrange
    rw [he.1, he.2] at hall
    exact ⟨hall, hrange⟩

theorem copyBlocks_eq (hstored : StoredBlocks h.reversible stored) :
    copyBlocksToIrreversible head n h.reversible =
      (selectedBlocks h stored head n).map BlockData.block := by
  have hblocks : h.reversible.blocks = storedRows (fun d ↦ [d.block]) stored := by
    rw [hstored.reversible]
    rfl
  have hrows : newestForks (blocksInRange head n h.reversible.blocks) =
      storedRows (fun d ↦ [d.block]) (stored.filter fun r ↦
        decide ((r.row.num, r.forkId) ∈ numAndForks head n h.reversible)) := by
    rw [← filter_storedRows (p := fun r ↦
      decide ((r.row.num, r.forkId) ∈ numAndForks head n h.reversible)), ← hblocks,
      newestForks_eq_filter]
    · rfl
    · intro r _ a ha
      rw [List.mem_singleton.mp ha]
      rfl
  rw [copyBlocksToIrreversible, hrows, map_row_storedRows, selectedBlocks,
    ← List.map_eq_flatMap]

theorem copyToIrreversible_selected {irreversible : List BlockData}
    (hstored : StoredBlocks h.reversible stored)
    (hirr : h.irreversible = .ofChain irreversible) :
    copyToIrreversible head n h =
      { h with irreversible := .ofChain (irreversible ++ selectedBlocks h stored head n) } := by
  have hrev := hstored.reversible
  have hjoin : ∀ {α : Type} (f : BlockData → List α) (blockNum : α → Option ℕ),
      (∀ r ∈ stored, ∀ a ∈ f r.row, blockNum a = some r.row.num) →
      joinForks blockNum (numAndForks head n h.reversible) (storedRows f stored) =
        (selectedBlocks h stored head n).flatMap f :=
    fun f blockNum hf ↦ joinForks_storedRows hf
  rw [copyToIrreversible]
  congr 1
  rw [hirr]
  simp only [IrreversibleTables.ofChain, List.map_append, List.flatMap_append,
    IrreversibleTables.mk.injEq, List.append_cancel_left_eq]
  refine ⟨copyBlocks_eq hstored, ?_, copySignatures_eq hstored, ?_, ?_, ?_, ?_⟩
  · rw [copyTransactionsToIrreversible]
    nth_rewrite 2 [hrev]
    exact hjoin _ _ fun r hr a ha ↦ by
      rw [(hstored.wellFormed r hr).transactions a ha, BlockData.num]
  · rw [copyOperationsToIrreversible]
    nth_rewrite 2 [hrev]
    exact hjoin _ _ fun r hr a ha ↦ by
      rw [(hstored.wellFormed r hr).operations a ha, BlockData.num]
  · rw [copyAccountsToIrreversible]
    nth_rewrite 2 [hrev]
    exact hjoin _ _ fun r hr a ha ↦ (hstored.wellFormed r hr).accounts a ha
  · rw [copyAccountOperationsToIrreversible]
    nth_rewrite 2 [hrev]
    refine hjoin _ _ fun r hr a ha ↦ ?_
    obtain ⟨o, ho, hid⟩ := List.mem_map.mp ((hstored.wellFormed r hr).accountOperations a ha)
    rw [← hid, (hstored.wellFormed r hr).operations o ho, BlockData.num]
  · rw [copyAppliedHardforksToIrreversible]
    nth_rewrite 2 [hrev]
    exact hjoin _ _ fun r hr a ha ↦ by
      rw [(hstored.wellFormed r hr).appliedHardforks a ha, BlockData.num]

end Selected

theorem copyToIrreversible_eq (inv : StorageInv h chain stored) (hn : h.headOfBlocks ≤ n)
    (hlen : n ≤ chain.length) :
    copyToIrreversible h.headOfBlocks n h =
      { h with irreversible := .ofChain (chain.take n) } := by
  have happ : chain.take n = chain.take h.headOfBlocks ++ (chain.take n).drop h.headOfBlocks := by
    conv_lhs => rw [← List.take_append_drop h.headOfBlocks (chain.take n), List.take_take,
      Nat.min_eq_left hn]
  rw [copyToIrreversible_selected inv.storedBlocks inv.irreversible, selectedBlocks,
    filter_numAndForks inv hlen, ← happ]

theorem StorageInv.copy (inv : StorageInv h chain stored) (hn : h.headOfBlocks ≤ n)
    (hlen : n ≤ chain.length) :
    StorageInv { h with
      irreversible := .ofChain (chain.take n)
      hiveState := { h.hiveState with consistentBlock := some n } } chain stored := by
  have hhead : ({ h with
      irreversible := .ofChain (chain.take n)
      hiveState := { h.hiveState with consistentBlock := some n } } : Hafd).headOfBlocks = n :=
    headOfBlocks_of_irreversible hlen inv.consistent.numbered rfl
  refine ⟨inv.full, inv.reversible, ?_, ?_, inv.wellFormed, inv.storedWellFormed, inv.nodup,
    inv.newTransactions, inv.storedTransactions, inv.forkIds, inv.forks_pos, ?_, ?_⟩
  · rw [hhead]
  · rw [hhead]
    exact inv.consistent.raise hn hlen
  · rw [hhead]
    exact le_rfl
  · rw [hhead]
    exact fun hlt ↦ absurd hlt (lt_irrefl n)

end HiveForkManager
