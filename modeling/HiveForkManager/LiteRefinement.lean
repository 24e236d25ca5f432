import HiveForkManager.Lib.LastValue
import HiveForkManager.WorldInv

namespace HiveForkManager.LiteRefinement

open ExceptList

variable {ρ : Type} {chain done rest kept blocks : List BlockData} {d : BlockData} {db : Db ρ}
  {n : ℕ} {lock : Bool}

/-- Blocks that follow one another, with every transaction and every account in one of them. -/
structure IsBlockChain (chain : List BlockData) : Prop where
  positive : ∀ d ∈ chain, 0 < d.num
  ascending : chain.Pairwise fun d d' ↦ d.num < d'.num
  wellFormed : ∀ d ∈ chain, d.WellFormed
  newTransactions : chain.Pairwise fun d d' ↦ ∀ t ∈ d.transactions, ∀ t' ∈ d'.transactions,
    t.trxHash ≠ t'.trxHash
  newAccounts : ((chain.flatMap BlockData.accounts).map Account.id).Nodup

structure Fresh (liteMode : Bool) (db : Db ρ) : Prop where
  mode : db.hiveState.liteMode = liteMode
  consistentBlock : db.consistentBlock = none
  irreversible : db.irreversible = {}
  reversible : db.reversible = {}

/-- The blocks of the chain are pushed in order, and between the pushes any blocks that are pushed
by then are made irreversible. -/
inductive Groups : List BlockData → List HivedCall → Prop
  | nil : Groups [] []
  | push {chain : List BlockData} {calls : List HivedCall} (h : Groups chain calls)
      (d : BlockData) : Groups (chain ++ [d]) (calls ++ [.pushBlock d])
  | irreversible {chain : List BlockData} {calls : List HivedCall} {d : BlockData}
      (h : Groups chain calls) (hd : d ∈ chain) (lock : Bool) :
      Groups chain (calls ++ [.setIrreversible d.num lock])

def runFull (calls : List HivedCall) (db : Db ρ) : Except Error (Db ρ) :=
  calls.foldlM HivedCall.run db

def runLite (pushes : List (BlockData × Bool)) (db : Db ρ) : Except Error (Db ρ) :=
  pushes.foldlM (fun db p ↦ pushBlockLite p.1 p.2 db) db

def lastNum (blocks : List BlockData) : Option ℕ := blocks.getLast?.map BlockData.num

section Chain

theorem IsBlockChain.sublist (h : IsBlockChain chain) (hsub : blocks.Sublist chain) :
    IsBlockChain blocks where
  positive d hd := h.positive d (hsub.subset hd)
  ascending := h.ascending.sublist hsub
  wellFormed d hd := h.wellFormed d (hsub.subset hd)
  newTransactions := h.newTransactions.sublist hsub
  newAccounts := h.newAccounts.sublist ((hsub.flatMap BlockData.accounts).map Account.id)

theorem IsBlockChain.nodup (h : IsBlockChain chain) : chain.Nodup :=
  h.ascending.imp fun hlt heq ↦ absurd (congrArg BlockData.num heq) (Nat.ne_of_lt hlt)

theorem IsBlockChain.lt_of_append (h : IsBlockChain (done ++ rest)) {d' : BlockData}
    (hd : d ∈ done) (hd' : d' ∈ rest) : d.num < d'.num :=
  (List.pairwise_append.mp h.ascending).2.2 d hd d' hd'

theorem IsBlockChain.lastNum_eq (h : IsBlockChain chain) (hd : d ∈ chain)
    (hmax : ∀ d' ∈ chain, d'.num ≤ d.num) : lastNum chain = some d.num := by
  induction chain using List.reverseRecOn with
  | nil => cases hd
  | append_singleton chain last _ =>
    rw [lastNum, List.getLast?_concat, Option.map_some, Option.some.injEq]
    rcases List.mem_append.mp hd with hd | hd
    · have hlt := h.lt_of_append hd List.mem_cons_self
      exact absurd (hmax last (List.mem_append_right _ List.mem_cons_self)) (Nat.not_le.mpr hlt)
    · rw [List.mem_singleton.mp hd]

theorem IsBlockChain.num_le_last (h : IsBlockChain chain) {m : ℕ} (hm : lastNum chain = some m)
    (hd : d ∈ chain) : d.num ≤ m := by
  induction chain using List.reverseRecOn with
  | nil => cases hd
  | append_singleton chain last _ =>
    rw [lastNum, List.getLast?_concat, Option.map_some, Option.some.injEq] at hm
    subst hm
    rcases List.mem_append.mp hd with hd | hd
    · exact le_of_lt (h.lt_of_append hd List.mem_cons_self)
    · rw [List.mem_singleton.mp hd]

theorem IsBlockChain.headOfBlocks_eq (h : IsBlockChain chain) {hafd : Hafd}
    (hirr : hafd.irreversible = .ofChain chain) : hafd.headOfBlocks = (lastNum chain).getD 0 := by
  have hnums : hafd.irreversible.blocks.map Block.num = chain.map BlockData.num := by
    rw [hirr, IrreversibleTables.ofChain, List.map_map]
    rfl
  rw [Hafd.headOfBlocks, hnums]
  cases hm : lastNum chain with
  | none =>
    rw [lastNum, Option.map_eq_none_iff, List.getLast?_eq_none_iff] at hm
    rw [hm]
    rfl
  | some m =>
    have hmax : (chain.map BlockData.num).max? = some m := by
      rw [List.max?_eq_some_iff]
      constructor
      · obtain ⟨d, hd, rfl⟩ := Option.map_eq_some_iff.mp hm
        exact List.mem_map_of_mem (List.mem_of_getLast? hd)
      · intro k hk
        obtain ⟨d, hd, rfl⟩ := List.mem_map.mp hk
        exact h.num_le_last hm hd
    rw [hmax]

def onFork (forkId : ℕ) (blocks : List BlockData) : List (Reversible BlockData) :=
  blocks.map (⟨·, forkId⟩)

theorem IsBlockChain.storedBlocks (h : IsBlockChain chain) (forkId : ℕ) :
    StoredBlocks (.ofStored (onFork forkId chain)) (onFork forkId chain) where
  reversible := rfl
  wellFormed r hr := by
    obtain ⟨d, hd, rfl⟩ := List.mem_map.mp hr
    exact h.wellFormed d hd
  nodup := h.nodup.map fun _ _ heq ↦ congrArg Reversible.row heq
  transactions r hr r' hr' _ t ht t' ht' heq := by
    obtain ⟨d, hd, rfl⟩ := List.mem_map.mp hr
    obtain ⟨d', hd', rfl⟩ := List.mem_map.mp hr'
    by_contra hne
    have : Std.Symm fun d d' : BlockData ↦ ∀ t ∈ d.transactions, ∀ t' ∈ d'.transactions,
        t.trxHash ≠ t'.trxHash := ⟨fun _ _ hnew t ht t' ht' ↦ (hnew t' ht' t ht).symm⟩
    exact h.newTransactions.forall hd hd' (fun hdd ↦ hne (hdd ▸ rfl)) t ht t' ht' heq

end Chain

section Lite

theorem foldl_upsertAccount {accounts new : List Account}
    (hnew : ((accounts ++ new).map Account.id).Nodup) :
    new.foldl upsertAccount accounts = accounts ++ new := by
  induction new generalizing accounts with
  | nil => rw [List.foldl_nil, List.append_nil]
  | cons a new ih =>
    have hfresh : accounts.any (fun x ↦ decide (x.id = a.id)) = false := by
      rw [List.any_eq_false]
      intro x hx hid
      rw [List.map_append, List.nodup_append] at hnew
      exact hnew.2.2 _ (List.mem_map_of_mem hx) _ (List.mem_map_of_mem List.mem_cons_self)
        (of_decide_eq_true hid)
    rw [List.append_cons] at hnew ⊢
    rw [List.foldl_cons, upsertAccount, hfresh, if_neg Bool.false_ne_true, ih hnew]

structure Written (db : Db ρ) (chain : List BlockData) : Prop where
  irreversible : db.irreversible = .ofChain chain
  consistentBlock : db.consistentBlock = lastNum chain

theorem Written.push (hw : Written db chain) (hchain : IsBlockChain (chain ++ [d]))
    (hseq : db.eventsIdSeq < unreachableEventId) (lock : Bool) :
    ∃ db', pushBlockLite d lock db = .ok db' ∧ Written db' (chain ++ [d]) ∧
      db'.eventsIdSeq = db.eventsIdSeq + 1 := by
  have hnew : db.irreversible.blocks.any (fun b ↦ decide (b.num = d.block.num)) = false := by
    rw [hw.irreversible, List.any_eq_false]
    intro b hb hnum
    obtain ⟨d', hd', rfl⟩ := List.mem_map.mp hb
    have hlt := hchain.lt_of_append hd' List.mem_cons_self
    exact absurd (of_decide_eq_true hnum) (Nat.ne_of_lt hlt)
  have haccounts : d.accounts.foldl upsertAccount db.irreversible.accounts =
      db.irreversible.accounts ++ d.accounts := by
    refine foldl_upsertAccount ?_
    have hids := hchain.newAccounts
    rw [List.flatMap_append, List.flatMap_singleton] at hids
    rw [hw.irreversible]
    exact hids
  have hinserted : ({ db.irreversible.insert d with
      accounts := d.accounts.foldl upsertAccount db.irreversible.accounts } : IrreversibleTables) =
      .ofChain (chain ++ [d]) := by
    rw [haccounts, hw.irreversible]
    simp [IrreversibleTables.insert, IrreversibleTables.ofChain]
  let written : Hafd := { db.toHafd with irreversible := .ofChain (chain ++ [d]) }
  have hannounce : written.announce .newIrreversible d.block.num =
      .ok ((written.withConsistentBlock d.num).withEvent .newIrreversible d.num) :=
    announce_eq_ok.mpr ⟨Nat.ne_of_lt hseq,
      ⟨d.block, by simp [written, IrreversibleTables.ofChain], rfl⟩, rfl⟩
  have hpush : pushBlockLite d lock db = (do
      let h ← written.announce .newIrreversible d.block.num
      let db : Db ρ := { db with toHafd := h }
      pure (if lock then removeUnecessaryEvents d.block.num db else db)) := by
    rw [pushBlockLite, hnew, if_neg Bool.false_ne_true]
    exact congrArg (fun tables ↦ do
      let h ← ({ db.toHafd with irreversible := tables } : Hafd).announce .newIrreversible
        d.block.num
      let db : Db ρ := { db with toHafd := h }
      pure (if lock then removeUnecessaryEvents d.block.num db else db)) hinserted
  have hlast : lastNum (chain ++ [d]) = some d.num := by
    rw [lastNum, List.getLast?_concat, Option.map_some]
  rw [hpush, hannounce, ok_bind]
  refine ⟨_, rfl, ?_⟩
  cases lock with
  | false => exact ⟨⟨rfl, hlast.symm⟩, rfl⟩
  | true => exact ⟨⟨rfl, hlast.symm⟩, rfl⟩

theorem pushBlockLite_stored (hstored : ∃ b ∈ db.irreversible.blocks, b.num = d.num) (lock : Bool) :
    pushBlockLite d lock db = .ok db := by
  obtain ⟨b, hb, hnum⟩ := hstored
  rw [pushBlockLite, if_pos (List.any_eq_true.mpr ⟨b, hb, decide_eq_true hnum⟩)]

theorem runLite_written {pushes : List (BlockData × Bool)} (hfresh : Fresh true db)
    (hchain : IsBlockChain (pushes.map Prod.fst))
    (hseq : db.eventsIdSeq + pushes.length ≤ unreachableEventId) :
    ∃ db', runLite pushes db = .ok db' ∧ Written db' (pushes.map Prod.fst) ∧
      db'.eventsIdSeq = db.eventsIdSeq + pushes.length := by
  induction pushes using List.reverseRecOn with
  | nil => exact ⟨db, rfl, ⟨hfresh.irreversible, hfresh.consistentBlock⟩, rfl⟩
  | append_singleton pushes p ih =>
    rw [List.map_append] at hchain ⊢
    rw [List.length_append, List.length_singleton] at hseq ⊢
    obtain ⟨db', hrun, hw, hseq'⟩ := ih (hchain.sublist (List.sublist_append_left _ _)) (by omega)
    obtain ⟨db'', hpush, hw', hseq''⟩ := hw.push hchain (by omega) p.2
    refine ⟨db'', ?_, hw', by omega⟩
    rw [runLite, List.foldlM_append]
    exact bind_eq_ok.mpr ⟨db', hrun, bind_eq_ok.mpr ⟨db'', hpush, rfl⟩⟩

end Lite

section Full

/-- What the full mode has after the blocks of a chain: those in `done` are copied, those in `rest`
wait in the reversible tables, where some of the copied ones are still kept. -/
structure Staged (db : Db ρ) (chain done rest kept : List BlockData) : Prop where
  full : db.hiveState.liteMode = false
  chain_eq : chain = done ++ rest
  kept_sublist : kept.Sublist done
  reversible : db.reversible = .ofStored (onFork db.maxFork (kept ++ rest))
  irreversible : db.irreversible = .ofChain done
  consistentBlock : db.consistentBlock = lastNum done

theorem Staged.sublist (hst : Staged db chain done rest kept) : (kept ++ rest).Sublist chain :=
  hst.chain_eq ▸ hst.kept_sublist.append_right rest

theorem Staged.storedBlocks (hst : Staged db chain done rest kept) (hchain : IsBlockChain chain) :
    StoredBlocks db.reversible (onFork db.maxFork (kept ++ rest)) :=
  hst.reversible ▸ (hchain.sublist hst.sublist).storedBlocks db.maxFork

theorem Staged.push (hst : Staged db chain done rest kept) (hchain : IsBlockChain (chain ++ [d]))
    (hseq : db.eventsIdSeq < unreachableEventId) (lock : Bool) :
    ∃ db', pushBlock d lock db = .ok db' ∧ Staged db' (chain ++ [d]) done (rest ++ [d]) kept ∧
      db'.eventsIdSeq = db.eventsIdSeq + 1 := by
  have hnew : ¬ (db.toHafd.withEvent .newBlock d.block.num).reversible.blocks.any
      (fun r ↦ decide (r.row.num = d.block.num ∧ r.forkId = db.maxFork)) = true := by
    rw [Bool.not_eq_true, List.any_eq_false]
    intro r hr hnum
    have hrev : r ∈ storedRows (fun d ↦ [d.block]) (onFork db.maxFork (kept ++ rest)) := by
      have hr : r ∈ db.reversible.blocks := hr
      rwa [hst.reversible] at hr
    obtain ⟨r', hr', hrow, -⟩ := mem_storedRows.mp hrev
    obtain ⟨d', hd', rfl⟩ := List.mem_map.mp hr'
    have hlt := hchain.lt_of_append (hst.sublist.subset hd') List.mem_cons_self
    have hnum := (of_decide_eq_true hnum).1
    rw [List.mem_singleton.mp hrow] at hnum
    exact absurd hnum (Nat.ne_of_lt hlt)
  refine ⟨{ db with toHafd := (db.toHafd.withBlock d).withEvent .newBlock d.block.num },
    ?_, ?_, rfl⟩
  · rw [pushBlock, hst.full, if_neg Bool.false_ne_true,
      insertEvent_eq_ok.mpr ⟨Nat.ne_of_lt hseq, rfl⟩, ok_bind]
    exact if_neg hnew
  · refine ⟨hst.full, ?_, hst.kept_sublist, ?_, hst.irreversible, hst.consistentBlock⟩
    · rw [hst.chain_eq, List.append_assoc]
    · change db.reversible.insert d db.maxFork =
        .ofStored (onFork db.maxFork (kept ++ (rest ++ [d])))
      rw [hst.reversible]
      simp [ReversibleTables.ofStored, ReversibleTables.insert, storedRows, onFork]

theorem Staged.done_chain (hst : Staged db chain done rest kept) (hchain : IsBlockChain chain) :
    IsBlockChain done :=
  hchain.sublist (hst.chain_eq ▸ List.sublist_append_left done rest)

theorem Staged.le_head (hst : Staged db chain done rest kept) (hchain : IsBlockChain chain)
    (hd : d ∈ done) : d.num ≤ db.headOfBlocks := by
  have hdone := hst.done_chain hchain
  rw [hdone.headOfBlocks_eq hst.irreversible]
  cases hm : lastNum done with
  | none =>
    rw [lastNum, Option.map_eq_none_iff, List.getLast?_eq_none_iff] at hm
    rw [hm] at hd
    cases hd
  | some m => exact hdone.num_le_last hm hd

theorem Staged.head_lt (hst : Staged db chain done rest kept) (hchain : IsBlockChain chain)
    (hd : d ∈ rest) : db.headOfBlocks < d.num := by
  rw [(hst.done_chain hchain).headOfBlocks_eq hst.irreversible]
  cases hm : lastNum done with
  | none => exact hchain.positive d (hst.chain_eq ▸ List.mem_append_right done hd)
  | some m =>
    obtain ⟨d', hd', rfl⟩ := Option.map_eq_some_iff.mp hm
    rw [hst.chain_eq] at hchain
    exact hchain.lt_of_append (List.mem_of_getLast? hd') hd

theorem Staged.mem_numAndForks (hst : Staged db chain done rest kept) {head : ℕ}
    (hd : d ∈ kept ++ rest) :
    (d.num, db.maxFork) ∈ numAndForks head n db.reversible ↔ head < d.num ∧ d.num ≤ n := by
  have hblocks : ∀ r, r ∈ db.reversible.blocks ↔
      ∃ d ∈ kept ++ rest, r = ⟨d.block, db.maxFork⟩ := by
    intro r
    have hrows : db.reversible.blocks =
        storedRows (fun d ↦ [d.block]) (onFork db.maxFork (kept ++ rest)) := by
      rw [hst.reversible]
      rfl
    rw [hrows, mem_storedRows]
    constructor
    · rintro ⟨r', hr', hrow, hfork⟩
      obtain ⟨d, hd, rfl⟩ := List.mem_map.mp hr'
      obtain ⟨row, forkId⟩ := r
      obtain rfl : row = d.block := List.mem_singleton.mp hrow
      obtain rfl : forkId = db.maxFork := hfork
      exact ⟨d, hd, rfl⟩
    · rintro ⟨d, hd, rfl⟩
      exact ⟨_, List.mem_map_of_mem hd, List.mem_cons_self, rfl⟩
  rw [numAndForks, List.mem_map]
  constructor
  · rintro ⟨r, hr, hkey⟩
    have hrange := of_decide_eq_true (List.mem_filter.mp (List.mem_filter.mp hr).1).2
    rw [(Prod.mk.inj hkey).1] at hrange
    exact ⟨hrange.2, hrange.1⟩
  · rintro ⟨hlt, hle⟩
    refine ⟨⟨d.block, db.maxFork⟩, List.mem_filter.mpr ⟨List.mem_filter.mpr
      ⟨(hblocks _).mpr ⟨d, hd, rfl⟩, decide_eq_true ⟨hle, hlt⟩⟩, ?_⟩, rfl⟩
    rw [List.all_eq_true]
    intro r hr
    obtain ⟨d', -, rfl⟩ := (hblocks r).mp (List.mem_filter.mp hr).1
    exact decide_eq_true fun _ ↦ le_rfl

theorem Staged.selectedBlocks_eq (hst : Staged db chain done rest kept)
    (hchain : IsBlockChain chain) (n : ℕ) :
    selectedBlocks db.toHafd (onFork db.maxFork (kept ++ rest)) db.headOfBlocks n =
      rest.filter fun d ↦ decide (d.num ≤ n) := by
  have hkept : kept.filter (fun d ↦ decide ((d.num, db.maxFork) ∈
      numAndForks db.headOfBlocks n db.reversible)) = [] := by
    refine List.filter_eq_nil_iff.mpr fun d hd hmem ↦ ?_
    have hlt := ((hst.mem_numAndForks (List.mem_append_left rest hd)).mp
      (of_decide_eq_true hmem)).1
    exact absurd (hst.le_head hchain (hst.kept_sublist.subset hd)) (Nat.not_le.mpr hlt)
  have hrest : rest.filter (fun d ↦ decide ((d.num, db.maxFork) ∈
      numAndForks db.headOfBlocks n db.reversible)) = rest.filter fun d ↦ decide (d.num ≤ n) := by
    refine List.filter_congr fun d hd ↦ decide_eq_decide.mpr ?_
    rw [hst.mem_numAndForks (List.mem_append_right kept hd), and_iff_right (hst.head_lt hchain hd)]
  rw [selectedBlocks, onFork, List.filter_map, List.map_map]
  refine (List.map_id _).trans ?_
  refine (List.filter_append ..).trans ?_
  refine (congrArg₂ (· ++ ·) hkept hrest).trans ?_
  rw [List.nil_append]

theorem Staged.cleanup (hst : Staged db chain done rest kept) (hchain : IsBlockChain chain)
    (hrest : ∀ d ∈ rest, n < d.num) (lock : Bool) :
    ∃ kept', Staged (cleanup n lock db) chain done rest kept' := by
  cases lock with
  | false => exact ⟨kept, hst⟩
  | true =>
    let cleaned := removeUnecessaryEvents n db
    let keeps : BlockData → Bool := fun d ↦ !decide (d.num ≤ cleaned.obsoleteBlockBound n)
    have hstored : StoredBlocks cleaned.reversible (onFork db.maxFork (kept ++ rest)) :=
      hst.storedBlocks hchain
    have hobsolete : ∀ d : BlockData, cleaned.isObsolete n d.num db.maxFork =
        decide (d.num ≤ cleaned.obsoleteBlockBound n) := by
      intro d
      have hfork : ¬ db.maxFork < cleaned.obsoleteForkBound := Nat.not_lt.mpr (Nat.min_le_right _ _)
      rw [Db.isObsolete, decide_eq_false hfork, Bool.false_and, Bool.or_false]
    have hkeeps : cleaned.kept n (onFork db.maxFork (kept ++ rest)) =
        onFork db.maxFork (kept.filter keeps ++ rest) := by
      have hall : rest.filter keeps = rest := by
        refine List.filter_eq_self.mpr fun d hd ↦ ?_
        have hbound := obsoleteBlockBound_le n cleaned
        have hlt := hrest d hd
        simp only [keeps, Bool.not_eq_true', decide_eq_false_iff_not]
        omega
      rw [Db.kept, onFork, onFork, List.filter_map, List.filter_congr (q := keeps)]
      · rw [List.filter_append, hall]
      · intro d _
        exact congrArg (!·) (hobsolete d)
    refine ⟨kept.filter keeps, ?_⟩
    have hclean : HiveForkManager.cleanup n true db =
        { cleaned with
          reversible := .ofStored (onFork db.maxFork (kept.filter keeps ++ rest)) } := by
      rw [← hkeeps]
      have hfull : cleaned.hiveState.liteMode = false := hst.full
      exact removeObsoleteReversibleData_eq hfull hstored n
    rw [hclean]
    exact ⟨hst.full, hst.chain_eq, List.filter_sublist.trans hst.kept_sublist, rfl,
      hst.irreversible, hst.consistentBlock⟩

theorem Staged.setIrreversible (hst : Staged db chain done rest kept) (hchain : IsBlockChain chain)
    (hd : d ∈ chain) (hseq : db.eventsIdSeq < unreachableEventId) (lock : Bool) :
    ∃ db' done' rest' kept', setIrreversible d.num lock db = .ok db' ∧
      Staged db' chain done' rest' kept' ∧ db'.eventsIdSeq ≤ db.eventsIdSeq + 1 ∧
      ∀ d' ∈ rest', d' ∈ rest ∧ d.num < d'.num := by
  rw [HiveForkManager.setIrreversible, hst.full, if_neg Bool.false_ne_true]
  by_cases hhead : d.num < db.headOfBlocks
  · exact ⟨db, done, rest, kept, if_pos hhead, hst, Nat.le_succ _,
      fun d' hd' ↦ ⟨hd', hhead.trans (hst.head_lt hchain hd')⟩⟩
  have hcut : rest.filter (fun d' ↦ decide (d'.num ≤ d.num)) ++
      rest.filter (fun d' ↦ decide (d.num < d'.num)) = rest := by
    have hasc : rest.Pairwise fun d d' ↦ d.num < d'.num :=
      hchain.ascending.sublist (hst.chain_eq ▸ List.sublist_append_right done rest)
    rw [LastValue.filter_append_filter]
    · refine List.filter_eq_self.mpr fun d' _ ↦ ?_
      rw [← Bool.decide_or, decide_eq_true_iff]
      exact le_or_gt _ _
    · intro d' hle
      exact decide_eq_false (Nat.not_lt.mpr (of_decide_eq_true hle))
    · refine hasc.imp fun {a b} hab hlt ↦ decide_eq_false ?_
      have hlt := of_decide_eq_true hlt
      omega
  have hcopied : d ∈ done ++ rest.filter (fun d' ↦ decide (d'.num ≤ d.num)) := by
    rw [hst.chain_eq] at hd
    refine (List.mem_append.mp hd).elim (List.mem_append_left _) fun hd ↦ ?_
    exact List.mem_append_right _ (List.mem_filter.mpr ⟨hd, decide_eq_true le_rfl⟩)
  have hlast : lastNum (done ++ rest.filter fun d' ↦ decide (d'.num ≤ d.num)) = some d.num := by
    refine (hchain.sublist ?_).lastNum_eq hcopied fun d' hd' ↦ ?_
    · exact hst.chain_eq ▸ List.filter_sublist.append_left done
    · rcases List.mem_append.mp hd' with hd' | hd'
      · exact (hst.le_head hchain hd').trans (Nat.not_lt.mp hhead)
      · exact of_decide_eq_true (List.mem_filter.mp hd').2
  let copied : Db ρ := { db with
    irreversible := .ofChain (done ++ rest.filter fun d' ↦ decide (d'.num ≤ d.num)) }
  have hstaged : Staged { copied with toHafd := copied.toHafd.withConsistentBlock d.num } chain
      (done ++ rest.filter fun d' ↦ decide (d'.num ≤ d.num))
      (rest.filter fun d' ↦ decide (d.num < d'.num))
      (kept ++ rest.filter fun d' ↦ decide (d'.num ≤ d.num)) := by
    refine ⟨hst.full, ?_, hst.kept_sublist.append_right _, ?_, rfl, hlast.symm⟩
    · rw [List.append_assoc, hcut, hst.chain_eq]
    · rw [List.append_assoc, hcut]
      exact hst.reversible
  obtain ⟨kept', hclean⟩ := hstaged.cleanup hchain
    (fun d' hd' ↦ of_decide_eq_true (List.mem_filter.mp hd').2) lock
  refine ⟨copied.withAnnouncement .newIrreversible d.num lock, _, _, kept', ?_,
    { hclean with }, ?_,
    fun d' hd' ↦ (List.mem_filter.mp hd').imp id of_decide_eq_true⟩
  · rw [if_neg hhead, copyToIrreversible_selected (hst.storedBlocks hchain) hst.irreversible,
      hst.selectedBlocks_eq hchain]
    exact cleanup_announce_eq_ok.mpr ⟨Nat.ne_of_lt hseq,
      ⟨d.block, List.mem_map_of_mem hcopied, rfl⟩, rfl⟩
  · have hkeep := cleanup_eventsIdSeq d.num lock
      { copied with toHafd := copied.toHafd.withConsistentBlock d.num }
    exact Nat.le_of_eq (congrArg (· + 1) hkeep)

theorem runFull_staged {calls : List HivedCall} (hfresh : Fresh false db)
    (hcalls : Groups chain calls) (hchain : IsBlockChain chain)
    (hseq : db.eventsIdSeq + calls.length ≤ unreachableEventId) :
    ∃ db' done rest kept, runFull calls db = .ok db' ∧ Staged db' chain done rest kept ∧
      db'.eventsIdSeq ≤ db.eventsIdSeq + calls.length ∧
      ∀ n lock, .setIrreversible n lock ∈ calls →
        (∃ d ∈ chain, d.num = n) ∧ ∀ d ∈ rest, n < d.num := by
  induction hcalls with
  | nil =>
    refine ⟨db, [], [], [], rfl, ⟨hfresh.mode, rfl, .slnil, ?_, ?_, hfresh.consistentBlock⟩, le_rfl,
      fun n lock hmem ↦ absurd hmem List.not_mem_nil⟩
    · exact hfresh.reversible
    · exact hfresh.irreversible
  | @push chain calls hcalls d ih =>
    rw [List.length_append, List.length_singleton] at hseq ⊢
    obtain ⟨db', done, rest, kept, hrun, hst, hseq', hann⟩ :=
      ih (hchain.sublist (List.sublist_append_left _ _)) (by omega)
    obtain ⟨db'', hpush, hst', hseq''⟩ := hst.push hchain (by omega) true
    refine ⟨db'', done, rest ++ [d], kept, ?_, hst', by omega, fun n lock hmem ↦ ?_⟩
    · rw [runFull, List.foldlM_append]
      exact bind_eq_ok.mpr ⟨db', hrun, bind_eq_ok.mpr ⟨db'', hpush, rfl⟩⟩
    · have hmem : .setIrreversible n lock ∈ calls := by simpa using hmem
      obtain ⟨⟨d', hd', rfl⟩, hrest⟩ := hann n lock hmem
      refine ⟨⟨d', List.mem_append_left _ hd', rfl⟩, fun d'' hd'' ↦ ?_⟩
      rcases List.mem_append.mp hd'' with hd'' | hd''
      · exact hrest d'' hd''
      · exact hchain.lt_of_append hd' hd''
  | @irreversible chain calls d hcalls hd lock ih =>
    rw [List.length_append, List.length_singleton] at hseq ⊢
    obtain ⟨db', done, rest, kept, hrun, hst, hseq', hann⟩ := ih hchain (by omega)
    obtain ⟨db'', done', rest', kept', hset, hst', hseq'', hrest⟩ :=
      hst.setIrreversible hchain hd (by omega) lock
    refine ⟨db'', done', rest', kept', ?_, hst', by omega, fun n lock' hmem ↦ ?_⟩
    · rw [runFull, List.foldlM_append]
      exact bind_eq_ok.mpr ⟨db', hrun, bind_eq_ok.mpr ⟨db'', hset, rfl⟩⟩
    · rcases List.mem_append.mp hmem with hmem | hmem
      · exact ⟨(hann n lock' hmem).1, fun d' hd' ↦ (hann n lock' hmem).2 d' (hrest d' hd').1⟩
      · obtain ⟨rfl, rfl⟩ : n = d.num ∧ lock' = lock := by simpa using hmem
        exact ⟨⟨d, hd, rfl⟩, fun d' hd' ↦ (hrest d' hd').2⟩

end Full

/-- Pushing the blocks of a chain in lite mode leaves the irreversible tables and the consistent
block that the full mode has once the last block is irreversible, and a stored block can be pushed
again. -/
theorem lite_refines_full {full lite : Db ρ} {pushes : List (BlockData × Bool)}
    {calls : List HivedCall} (hfull : Fresh false full) (hlite : Fresh true lite)
    (hchain : IsBlockChain (pushes.map Prod.fst)) (hcalls : Groups (pushes.map Prod.fst) calls)
    (hlast : ∀ n ∈ lastNum (pushes.map Prod.fst), ∃ lock, .setIrreversible n lock ∈ calls)
    (hfullSeq : full.eventsIdSeq + calls.length ≤ unreachableEventId)
    (hliteSeq : lite.eventsIdSeq + pushes.length ≤ unreachableEventId) :
    ∃ full' lite', runFull calls full = .ok full' ∧ runLite pushes lite = .ok lite' ∧
      full'.irreversible = lite'.irreversible ∧ full'.consistentBlock = lite'.consistentBlock ∧
      ∀ d lock, (∃ b ∈ lite'.irreversible.blocks, b.num = d.block.num) →
        pushBlockLite d lock lite' = .ok lite' := by
  obtain ⟨full', done, rest, kept, hrun, hst, -, hann⟩ :=
    runFull_staged hfull hcalls hchain hfullSeq
  obtain ⟨lite', hrun', hw, -⟩ := runLite_written hlite hchain hliteSeq
  have hrest : rest = [] := by
    refine List.eq_nil_iff_forall_not_mem.mpr fun d hd ↦ ?_
    have hmem : d ∈ pushes.map Prod.fst := hst.chain_eq ▸ List.mem_append_right done hd
    cases hm : lastNum (pushes.map Prod.fst) with
    | none =>
      rw [lastNum, Option.map_eq_none_iff, List.getLast?_eq_none_iff] at hm
      rw [hm] at hmem
      cases hmem
    | some n =>
      obtain ⟨lock, hcall⟩ := hlast n hm
      exact absurd (hchain.num_le_last hm hmem) (Nat.not_le.mpr ((hann n lock hcall).2 d hd))
  have hdone : pushes.map Prod.fst = done := by
    rw [hst.chain_eq, hrest, List.append_nil]
  refine ⟨full', lite', hrun, hrun', ?_, ?_, fun d lock hd ↦ pushBlockLite_stored hd lock⟩
  · rw [hst.irreversible, hw.irreversible, hdone]
  · rw [hst.consistentBlock, hw.consistentBlock, hdone]

/-- A block with a signed transaction, an operation of it, a new account and a hardfork. -/
def fullBlock (num : ℕ) (hash : UInt8) : BlockData :=
  { block := { (default : Block) with num }
    transactions := [{ (default : Transaction) with blockNum := num, trxHash := [hash] }]
    signatures := [⟨[hash], [0]⟩]
    operations := [{ (default : Operation) with id := num * 2 ^ 32 }]
    accounts := [⟨num, "account", some num⟩]
    accountOperations := [{ (default : AccountOperation) with operationId := num * 2 ^ 32 }]
    appliedHardforks := [⟨num, num, num * 2 ^ 32⟩] }

def twoPushes : List HivedCall :=
  [.pushBlock (fullBlock 5 1), .setIrreversible 5 true, .pushBlock (fullBlock 6 2),
    .setIrreversible 6 false]

theorem fullBlocks_refined : ∃ full' lite' : Db ℕ,
    runFull twoPushes (Db.initial ℕ) = .ok full' ∧
    runLite [(fullBlock 5 1, true), (fullBlock 6 2, true)]
      { Db.initial ℕ with hiveState := { liteMode := true } } = .ok lite' ∧
    full'.irreversible = lite'.irreversible ∧ full'.consistentBlock = lite'.consistentBlock ∧
    ∀ d lock, (∃ b ∈ lite'.irreversible.blocks, b.num = d.block.num) →
      pushBlockLite d lock lite' = .ok lite' := by
  have hchain : IsBlockChain [fullBlock 5 1, fullBlock 6 2] :=
    ⟨by decide, by decide, by decide, by decide, by decide⟩
  have hcalls : Groups [fullBlock 5 1, fullBlock 6 2] twoPushes :=
    (((Groups.nil.push (fullBlock 5 1)).irreversible List.mem_cons_self true).push
      (fullBlock 6 2)).irreversible (List.mem_cons_of_mem _ List.mem_cons_self) false
  have hlast : ∀ n ∈ lastNum [fullBlock 5 1, fullBlock 6 2],
      ∃ lock, .setIrreversible n lock ∈ twoPushes := by
    rintro n ⟨⟩
    exact ⟨false, by decide⟩
  exact lite_refines_full ⟨rfl, rfl, rfl, rfl⟩ ⟨rfl, rfl, rfl, rfl⟩ hchain hcalls hlast (by decide)
    (by decide)

end HiveForkManager.LiteRefinement
