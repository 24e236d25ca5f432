import HiveForkManager.CallFrame

namespace HiveForkManager

open ForkStore

variable {w : World ℕ} {n : ℕ} {lock : Bool}

/-- The irreversible tables hold the rows of the blocks 1 to `n` of the branch hived is on, each
once. The call needs no block that an earlier cleanup may have removed. -/
theorem setIrreversible_tables_eq_chain (hw : Reachable (fun w call ↦ call.Lawful w) w)
    (hcall : w.Allowed (.setIrreversible n lock)) (hpos : 0 < n)
    (hseq : w.db.eventsIdSeq ≠ unreachableEventId) :
    ∃ db, setIrreversible n lock w.db = .ok db ∧
      db.irreversible = .ofChain (w.chain.take n) ∧
      db.irreversible.blocks.map Block.num = List.range' 1 n := by
  obtain ⟨stored, lo, inv⟩ := hw.worldInv fun _ _ h ↦ h
  obtain ⟨hpub, hn, hlen⟩ := hcall
  have hok : setIrreversible n lock w.db = .ok _ :=
    (setIrreversible_eq_ok inv.storage (hpub.trans_le hn) hlen).mpr
    ⟨hseq, hpos, rfl⟩
  have htables : (Db.withAnnouncement .newIrreversible n lock
      { w.db with irreversible := .ofChain (w.chain.take n) }).irreversible =
      .ofChain (w.chain.take n) := by
    cases lock <;> rfl
  refine ⟨_, hok, htables, ?_⟩
  rw [htables, IrreversibleTables.ofChain, List.map_map]
  have hnums := Numbered.map_num (inv.storage.consistent.numbered.take n)
  rwa [List.length_take_of_le hlen] at hnums

/-- hived pushed two blocks, went back to the first one and pushed another second block. -/
def worldAfterFork : World ℕ := (World.initial ℕ .live).run
  [.hived (.pushBlock (emptyBlock 1 1 0)), .hived (.pushBlock (emptyBlock 2 2 1)),
    .createContext (.ready 0) "app" true true none 1, .nextBlock (.ready 0) ["app"] none,
    .hived (.backFromFork 1), .hived (.pushBlock (emptyBlock 2 3 1))]

theorem setIrreversible_tables_after_fork :
    ∃ db, setIrreversible 2 true worldAfterFork.db = .ok db ∧
      db.irreversible = .ofChain (worldAfterFork.chain.take 2) ∧
      db.irreversible.blocks.map Block.num = List.range' 1 2 :=
  setIrreversible_tables_eq_chain ((Reachable.initial .live).run (by decide +kernel))
    (by decide +kernel) (by decide) (by decide +kernel)

end HiveForkManager
