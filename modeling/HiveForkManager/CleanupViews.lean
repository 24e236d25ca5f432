import HiveForkManager.ContextViews
import HiveForkManager.IrreversibleChain

namespace HiveForkManager

open ForkStore WorldInv

variable {ρ : Type} {chain : List BlockData} {stored : List (Reversible BlockData)} {db : Db ρ}
  {c : Context ρ} {n : ℕ} {w : World ℕ}

/-- The cleanup removes a block that the context sees: one of a fork below those of all contexts,
which a later fork has superseded. -/
def Db.cleanupHides (db : Db ρ) (c : Context ρ) : Prop :=
  ∃ nf ∈ c.visibleForks db.toHafd,
    nf.2 < db.obsoleteForkBound ∧ superseded db.forks nf.1 nf.2 = true

instance (db : Db ρ) (c : Context ρ) : Decidable (db.cleanupHides c) := by
  unfold Db.cleanupHides; infer_instance

theorem obsoleteBlockBound_le_irreversibleBlock (hc : c ∈ db.contexts) (hatt : c.isAttached = true)
    (hfork : c.isForking = true) : db.obsoleteBlockBound n ≤ c.irreversibleBlock := by
  have hmem : c.irreversibleBlock ∈ db.attachedForking.map Context.irreversibleBlock :=
    List.mem_map_of_mem (List.mem_filter.mpr ⟨hc, by rw [hatt, hfork]; rfl⟩)
  rw [Db.obsoleteBlockBound]
  cases hmin : (db.attachedForking.map Context.irreversibleBlock).min? with
  | none =>
    rw [List.min?_eq_none_iff] at hmin
    rw [hmin] at hmem
    exact absurd hmem (by simp)
  | some m =>
    have hle := (List.min?_eq_some_iff.mp hmin).2 _ hmem
    exact (Nat.min_le_left _ _).trans hle

theorem superseded_mono {forks : List Fork} {num f f' : ℕ} (hle : f' ≤ f)
    (h : superseded forks num f = true) : superseded forks num f' = true := by
  obtain ⟨g, hg, hlt, hnum⟩ := superseded_iff.mp h
  exact superseded_iff.mpr ⟨g, hg, by omega, hnum⟩

theorem isObsolete_of_inRange (hc : c ∈ db.contexts) (hatt : c.isAttached = true)
    (hfork : c.isForking = true) {num f : ℕ} (hrange : c.inRange num f) :
    db.isObsolete n num f = true ↔ f < db.obsoleteForkBound ∧ superseded db.forks num f = true := by
  have hbound := obsoleteBlockBound_le_irreversibleBlock (n := n) hc hatt hfork
  have hnum : ¬ num ≤ db.obsoleteBlockBound n := by
    have := hrange.2.1
    omega
  simp [Db.isObsolete, hnum]

section Seen

variable (hrev : db.reversible = .ofStored stored) (hc : c ∈ db.contexts)
  (hatt : c.isAttached = true) (hfork : c.isForking = true)

include hrev hc hatt hfork

theorem seen_kept (hhides : ¬ db.cleanupHides c) :
    c.seen chain (db.kept n stored) = c.seen chain stored := by
  have hkept : ∀ r ∈ stored, c.Visible stored r → db.isObsolete n r.row.num r.forkId = false := by
    intro r hr hv
    by_contra hne
    rw [Bool.not_eq_false, isObsolete_of_inRange hc hatt hfork hv.1] at hne
    exact hhides ⟨_, (Context.mem_visibleForks hrev).mpr ⟨r, hr, hv, rfl⟩, hne⟩
  rw [Context.seen, Context.seen, Db.kept, List.filter_filter]
  congr 2
  apply List.filter_congr
  intro r hr
  rw [Bool.eq_iff_iff, Bool.and_eq_true, decide_eq_true_eq, decide_eq_true_eq,
    Bool.not_eq_true']
  constructor
  · rintro ⟨⟨hrange, hnewest⟩, -⟩
    refine ⟨hrange, fun r' hr' hrange' hnum ↦ ?_⟩
    obtain ⟨m, hm, hv, hmnum, hle⟩ := Context.exists_visible hr' hrange'
    have hmem : m ∈ stored.filter (fun r ↦ !db.isObsolete n r.row.num r.forkId) :=
      List.mem_filter.mpr ⟨hm, by rw [hkept m hm hv]; rfl⟩
    exact hle.trans (hnewest m hmem hv.1 (hmnum.trans hnum))
  · intro hv
    exact ⟨⟨hv.1, fun r' hr' ↦ hv.2 r' (List.mem_of_mem_filter hr')⟩, hkept r hr hv⟩

theorem num_notMem_seen_kept {nf : ℕ × ℕ} (hnf : nf ∈ c.visibleForks db.toHafd)
    (hbound : nf.2 < db.obsoleteForkBound) (hsup : superseded db.forks nf.1 nf.2 = true)
    (hnum : Numbered BlockData.num chain) :
    nf.1 ∉ (c.seen chain (db.kept n stored)).map BlockData.num := by
  obtain ⟨r, hr, hv, rfl⟩ := (Context.mem_visibleForks hrev).mp hnf
  intro hmem
  obtain ⟨d, hd, hdnum⟩ := List.mem_map.mp hmem
  rcases List.mem_append.mp hd with hd | hd
  · have hlt := hv.1.2.1
    have hle := (hnum.take c.minBlock).num_le hd
    have hlen : (chain.take c.minBlock).length ≤ c.minBlock := List.length_take_le _ _
    have hmin : c.minBlock ≤ c.irreversibleBlock := Nat.min_le_left _ _
    omega
  · obtain ⟨r', hr', rfl⟩ := List.mem_map.mp hd
    obtain ⟨hr', hv'⟩ := List.mem_filter.mp hr'
    obtain ⟨hr', hkept⟩ := List.mem_filter.mp hr'
    have hv' := of_decide_eq_true hv'
    have hle := hv.2 r' hr' hv'.1 hdnum
    have hobsolete : db.isObsolete n r'.row.num r'.forkId = true := by
      rw [isObsolete_of_inRange hc hatt hfork hv'.1]
      refine ⟨hle.trans_lt hbound, superseded_mono hle ?_⟩
      rw [hdnum]
      exact hsup
    rw [hobsolete] at hkept
    exact absurd hkept (by simp)

end Seen

def HivedCall.Announces (n : ℕ) (lock : Bool) (call : HivedCall) : Prop :=
  call = .setIrreversible n lock ∨ call = .endMassiveSync n lock

theorem WorldInv.announce {lo : ℕ} {lock : Bool} {call : HivedCall} {db : Db ℕ}
    (inv : WorldInv w stored lo) (hcall : w.Allowed call) (hkind : call.Announces n lock)
    (hok : call.run w.db = .ok db) :
    StorageInv db.toHafd w.chain (storedAfter n lock w.db stored) ∧
      ∀ c ∈ w.db.contexts, c.irreversibleBlock ≤ db.headOfBlocks := by
  have hresult : ∃ (w' : World ℕ) (lo' : ℕ), w'.db = db ∧ w'.chain = w.chain ∧
      w'.db.contexts = w.db.contexts ∧ WorldInv w' (storedAfter n lock w.db stored) lo' := by
    rcases hkind with rfl | rfl
    · obtain ⟨hpub, hn, hlen⟩ := hcall
      obtain ⟨hseq, hpos, rfl⟩ :=
        (setIrreversible_eq_ok inv.storage (hpub.trans_le hn) hlen).mp hok
      exact ⟨w.irreversible .newIrreversible n lock (.ofChain (w.chain.take n)) w.chain, _, rfl, rfl,
        by cases lock <;> rfl, inv.setIrreversible lock hpub hn hlen hpos hseq⟩
    · obtain ⟨hlen, hn, hle⟩ := hcall
      obtain ⟨hseq, hpos, rfl⟩ := (endMassiveSync_eq_ok inv.storage hle).mp hok
      exact ⟨w.irreversible .massiveSync n lock w.db.irreversible (w.chain.take n), _, rfl, rfl,
        by cases lock <;> rfl, inv.endMassiveSync lock hlen hn hle hpos hseq⟩
  obtain ⟨w', lo', rfl, hchain, hcontexts, inv'⟩ := hresult
  refine ⟨hchain ▸ inv'.storage, fun c hc ↦ ?_⟩
  exact (inv'.contexts c (hcontexts ▸ hc)).irr_le.trans inv'.storage.head_le

/-- The texts of the views of a context. They are made when it is created or attached, after its
mode then, and when `app_context_detach` is called; `app_context_set_forking` and
`app_context_set_non_forking` leave them as they are. -/
inductive ViewText where
  | forking
  | nonForking
  | allIrreversible
  deriving DecidableEq, Repr

def Context.viewsOf (text : ViewText) (h : Hafd) (c : Context ρ) : ContextViews :=
  match text with
  | .forking => c.views h
  | .nonForking => { c with isForking := false }.views h
  | .allIrreversible =>
    ⟨h.irreversible.blocks, h.irreversible.transactions, h.irreversible.operations,
      h.irreversible.accounts.map fun a ↦ (a.id, a.name), h.irreversible.accountOperations⟩

/-- The announcement shows in views of the given text: the cleanup removes a block that forking
views have, or a block becomes irreversible. -/
def HivedCall.Shows (text : ViewText) (db : Db ρ) (c : Context ρ) (call : HivedCall) : Prop :=
  match text, call with
  | .forking, .setIrreversible _ lock => lock = true ∧ db.cleanupHides c
  | .forking, .endMassiveSync _ lock => lock = true ∧ db.cleanupHides c
  | .allIrreversible, .setIrreversible n _ => db.headOfBlocks < n
  | _, _ => False

theorem seen_of_not_forking (hfork : c.isForking = false)
    (stored stored' : List (Reversible BlockData)) :
    c.seen chain stored = c.seen chain stored' := by
  have hnone : ∀ stored : List (Reversible BlockData),
      stored.filter (fun r ↦ decide (c.Visible stored r)) = [] := by
    intro stored
    refine List.filter_eq_nil_iff.mpr fun r _ hv ↦ ?_
    have hrange := (of_decide_eq_true hv).1.1
    rw [Context.reversibleRange, hfork, Bool.and_false] at hrange
    cases hrange
  rw [Context.seen, Context.seen, hnone, hnone]

theorem WorldInv.announced_irreversible {lo : ℕ} {lock : Bool} {call : HivedCall} {db : Db ℕ}
    {c : Context ℕ} (inv : WorldInv w stored lo) (hcall : w.Allowed call)
    (hkind : call.Announces n lock)
    (hok : call.run w.db = .ok db) :
    db.irreversible = w.db.irreversible ∧ ¬ call.Shows .allIrreversible w.db c ∨
      db.irreversible.blocks.length = n ∧ call.Shows .allIrreversible w.db c := by
  rcases hkind with rfl | rfl
  · obtain ⟨hpub, hn, hlen⟩ := hcall
    obtain ⟨-, -, rfl⟩ := (setIrreversible_eq_ok inv.storage (hpub.trans_le hn) hlen).mp hok
    have hirr : (Db.withAnnouncement .newIrreversible n lock
        { w.db with irreversible := .ofChain (w.chain.take n) }).irreversible =
        .ofChain (w.chain.take n) := by cases lock <;> rfl
    rw [hirr]
    rcases lt_or_eq_of_le (hpub.trans_le hn : w.db.headOfBlocks ≤ n) with hlt | heq
    · refine .inr ⟨?_, hlt⟩
      rw [IrreversibleTables.ofChain, List.length_map, List.length_take_of_le hlen]
    · exact .inl ⟨by rw [inv.storage.irreversible, heq], fun h ↦ (lt_irrefl _ (heq ▸ h))⟩
  · obtain ⟨-, -, hle⟩ := hcall
    obtain ⟨-, -, rfl⟩ := (endMassiveSync_eq_ok inv.storage hle).mp hok
    exact .inl ⟨by cases lock <;> rfl, fun h ↦ h⟩

/-- Announcing an irreversible block leaves the views of an attached forking context as they are, if
and only if it does not show in them: the cleanup removes no block that the context sees, and no
block becomes irreversible where the views are those of a detached context. -/
theorem announcement_keeps_views {lock : Bool} {call : HivedCall} {c : Context ℕ} (text : ViewText)
    (hw : Reachable (fun w call ↦ call.Lawful w) w) (hcall : w.Allowed call)
    (hkind : call.Announces n lock) (hok : (call.run w.db).isOk = true) (hc : c ∈ w.db.contexts)
    (hatt : c.isAttached = true) (hfork : c.isForking = true) :
    (¬ call.Shows text w.db c →
      c.viewsOf text (w.hived call).db.toHafd = c.viewsOf text w.db.toHafd) ∧
    (call.Shows text w.db c →
      ¬ ((c.viewsOf text (w.hived call).db.toHafd).blocks).Perm
        (c.viewsOf text w.db.toHafd).blocks) := by
  obtain ⟨stored, lo, inv⟩ := hw.worldInv fun _ _ h ↦ h
  obtain ⟨db, hrun⟩ : ∃ db, call.run w.db = .ok db := by
    cases hrun : call.run w.db with
    | error e => rw [hrun] at hok; cases hok
    | ok db => exact ⟨db, rfl⟩
  obtain ⟨hstorage, hirr'⟩ := inv.announce hcall hkind hrun
  rw [World.hived_of_ok hrun]
  dsimp only
  have hirr := (inv.contexts c hc).irr_le.trans inv.storage.head_le
  cases text with
  | forking =>
    have hshows : call.Shows .forking w.db c ↔ lock = true ∧ w.db.cleanupHides c := by
      rcases hkind with rfl | rfl <;> exact Iff.rfl
    rw [hshows]
    constructor
    · intro hhides
      have hseen : c.seen w.chain (storedAfter n lock w.db stored) = c.seen w.chain stored := by
        cases lock with
        | false => rfl
        | true => exact seen_kept inv.storage.reversible hc hatt hfork fun h ↦ hhides ⟨rfl, h⟩
      rw [Context.viewsOf, Context.viewsOf, Context.views_eq hstorage (hirr' c hc),
        Context.views_eq inv.storage hirr, hseen]
    · rintro ⟨rfl, nf, hnf, hbound, hsup⟩ hperm
      change (c.blocksView db.toHafd).Perm (c.blocksView w.db.toHafd) at hperm
      rw [Context.blocksView_eq hstorage (hirr' c hc), Context.blocksView_eq inv.storage hirr]
        at hperm
      refine num_notMem_seen_kept (n := n) inv.storage.reversible hc hatt hfork hnf hbound hsup
        inv.storage.consistent.numbered ?_
      have hnums := hperm.map Block.num
      rw [List.map_map, List.map_map] at hnums
      refine hnums.mem_iff.mpr ?_
      obtain ⟨r, hr, hv, rfl⟩ := (Context.mem_visibleForks inv.storage.reversible).mp hnf
      exact List.mem_map.mpr ⟨r.row, List.mem_append_right _ (List.mem_map.mpr
        ⟨r, List.mem_filter.mpr ⟨hr, decide_eq_true hv⟩, rfl⟩), rfl⟩
  | nonForking =>
    have hshows : ¬ call.Shows .nonForking w.db c := by
      rcases hkind with rfl | rfl <;> exact fun h ↦ h
    refine ⟨fun _ ↦ ?_, fun h ↦ absurd h hshows⟩
    rw [Context.viewsOf, Context.viewsOf,
      Context.views_eq (c := { c with isForking := false }) hstorage (hirr' c hc),
      Context.views_eq (c := { c with isForking := false }) inv.storage hirr]
    exact congrArg ContextViews.ofBlocks (seen_of_not_forking rfl _ _)
  | allIrreversible =>
    rcases inv.announced_irreversible (c := c) hcall hkind hrun with ⟨heq, hnot⟩ | ⟨hlen, hshows⟩
    · exact ⟨fun _ ↦ by rw [Context.viewsOf, Context.viewsOf, heq], fun h ↦ absurd h hnot⟩
    · refine ⟨fun h ↦ absurd hshows h, fun _ hperm ↦ ?_⟩
      have hsame : db.irreversible.blocks.length = w.db.irreversible.blocks.length :=
        hperm.length_eq
      rw [hlen, inv.storage.irreversible, IrreversibleTables.ofChain, List.length_map,
        List.length_take] at hsame
      have hlt : w.db.headOfBlocks < n := by
        rcases hkind with rfl | rfl
        · exact hshows
        · exact hshows.elim
      omega

theorem announcement_keeps_views_after_fork :
    worldAfterFork.db.contexts.map (fun c ↦ c.currentBlockNum) = [1] ∧
    ∀ c ∈ worldAfterFork.db.contexts,
      c.viewsOf .forking (worldAfterFork.hived (.setIrreversible 2 true)).db.toHafd =
        c.viewsOf .forking worldAfterFork.db.toHafd := by
  refine ⟨by decide +kernel, fun c hc ↦ ?_⟩
  have hall : ∀ c ∈ worldAfterFork.db.contexts, c.isAttached = true ∧ c.isForking = true ∧
      ¬ (true = true ∧ worldAfterFork.db.cleanupHides c) := by decide +kernel
  obtain ⟨hatt, hfork, hhides⟩ := hall c hc
  exact (announcement_keeps_views .forking ((Reachable.initial .live).run (by decide +kernel))
    (by decide +kernel) (.inl rfl) (by decide +kernel) hc hatt hfork).1 hhides

/-- hived pushed two blocks, went back before both of them, pushed another first block and made it
irreversible; then an application took the first block, and the second one of the branch hived had
left. -/
def worldOnStaleBranch : World ℕ := (World.initial ℕ .live).run
  [.hived (.pushBlock (emptyBlock 1 1 0)), .hived (.pushBlock (emptyBlock 2 2 1)),
    .hived (.backFromFork 0), .hived (.pushBlock (emptyBlock 1 3 0)),
    .hived (.setIrreversible 1 false), .createContext (.ready 0) "app" true true none 1,
    .nextBlock (.ready 0) ["app"] none, .nextBlock (.ready 0) ["app"] none]

/-- The block that the application has just been given disappears from its view. -/
theorem cleanup_hides_current_block :
    Reachable (fun w call ↦ call.Lawful w) worldOnStaleBranch ∧
      worldOnStaleBranch.Allowed (.setIrreversible 1 true) ∧
      worldOnStaleBranch.db.contexts.map (fun c ↦ (c.currentBlockNum, c.blocksView
        worldOnStaleBranch.db.toHafd)) =
        [(2, [(emptyBlock 1 3 0).block, (emptyBlock 2 2 1).block])] ∧
      (worldOnStaleBranch.hived (.setIrreversible 1 true)).db.contexts =
        worldOnStaleBranch.db.contexts ∧
      worldOnStaleBranch.db.contexts.map (fun c ↦ c.blocksView
        (worldOnStaleBranch.hived (.setIrreversible 1 true)).db.toHafd) =
        [[(emptyBlock 1 3 0).block]] :=
  ⟨(Reachable.initial .live).run (by decide +kernel), by decide +kernel, by decide +kernel,
    by decide +kernel, by decide +kernel⟩

end HiveForkManager
