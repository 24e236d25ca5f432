import HiveForkManager.ContextStep

namespace HiveForkManager

variable {ρ : Type} {g : List ContextName} {db : Db ρ} {lead : Context ρ} {env : CallEnv}
  {history : List HistoryEntry} {lo : ℕ} {chain : List BlockData}

def ApplicationLoopState.key (l : ApplicationLoopState) : Option ℕ × Option ℕ × Option ℕ :=
  (l.sizeOfBlocksBatch, l.currentBatchEnd, l.endBlockRange)

theorem syncKey_eq {c c' : Context ρ} (hpos : c.position = c'.position)
    (hloop : c.loop.key = c'.loop.key) : c.syncKey = c'.syncKey := by
  obtain ⟨h₁, -, h₃, -, h₅, h₆⟩ := position_eq.mp hpos
  simp only [ApplicationLoopState.key, Prod.mk.injEq] at hloop
  rw [Context.syncKey, Context.syncKey, h₁, h₃, h₅, h₆, hloop.1, hloop.2.1, hloop.2.2]

/-- All contexts of the group exist and are at the same place, also in their loops. -/
structure Synchronized (g : List ContextName) (db : Db ρ) (lead : Context ρ) : Prop extends
    Lockstep g db lead where
  present : ((db.group g).map Context.name).Perm g
  loops : ∀ c ∈ db.contexts, c.name ∈ g → c.loop.key = lead.loop.key

namespace Synchronized

theorem single (hnames : (db.contexts.map Context.name).Nodup) {c : Context ρ}
    (hc : c ∈ db.contexts) : Synchronized [c.name] db c := by
  have hunique : ∀ c' ∈ db.contexts, c'.name ∈ [c.name] → c' = c := fun c' hc' hn ↦
    List.inj_on_of_nodup_map hnames hc' hc (List.mem_singleton.mp hn)
  have hlead : db.context? c.name = some c := by
    have hsome : (db.contexts.find? (fun x ↦ decide (x.name = c.name))).isSome :=
      List.find?_isSome.mpr ⟨c, hc, decide_eq_true rfl⟩
    obtain ⟨c', hc'⟩ := Option.isSome_iff_exists.mp hsome
    have hname : c'.name = c.name := by simpa using List.find?_some hc'
    rw [Db.context?, hc',
      hunique c' (List.mem_of_find?_eq_some hc') (List.mem_singleton.mpr hname)]
  refine ⟨⟨List.nodup_singleton _, hlead, fun c' hc' hn ↦ by rw [hunique c' hc' hn]⟩, ?_,
    fun c' hc' hn ↦ by rw [hunique c' hc' hn]⟩
  have hnodup : ((db.group [c.name]).map Context.name).Nodup :=
    hnames.sublist (List.filter_sublist.map _)
  refine (List.perm_ext_iff_of_nodup hnodup (List.nodup_singleton _)).mpr fun n ↦ ?_
  simp only [Db.group, List.mem_map, List.mem_filter, decide_eq_true_eq, List.mem_singleton]
  constructor
  · rintro ⟨c', ⟨-, hn⟩, rfl⟩
    exact hn
  · rintro rfl
    exact ⟨c, ⟨hc, rfl⟩, rfl⟩

variable (hs : Synchronized g db lead)

include hs

theorem lead_mem_group : lead ∈ db.group g := by
  obtain ⟨hmem, hname⟩ := Db.leadContext_mem hs.isLead
  exact List.mem_filter.mpr ⟨hmem, decide_eq_true hname⟩

theorem dedup_group {β : Type} [DecidableEq β] {f : Context ρ → β}
    (hf : ∀ c ∈ db.contexts, c.name ∈ g → f c = f lead) :
    ((db.group g).map f).dedup = [f lead] := by
  have hall : (db.group g).map f = List.replicate (db.group g).length (f lead) := by
    refine List.map_eq_replicate_iff.mpr fun c hc ↦ ?_
    obtain ⟨hmem, hname⟩ := List.mem_filter.mp hc
    exact hf c hmem (of_decide_eq_true hname)
  rw [hall, List.replicate_dedup (List.ne_nil_of_mem hs.lead_mem_group ∘ List.length_eq_zero_iff.mp)]

theorem appCheckContextsSynchronized_eq : appCheckContextsSynchronized g db = .ok () := by
  rw [appCheckContextsSynchronized, hs.dedup_group fun c hc hn ↦
    syncKey_eq (hs.together c hc hn) (hs.loops c hc hn)]
  rfl

theorem appContextAreAttached_eq : appContextAreAttached g db = .ok lead.isAttached := by
  rw [appContextAreAttached, hs.appCheckContextsSynchronized_eq]
  dsimp only [bind, Except.bind]
  rw [hs.dedup_group fun c hc hn ↦ (position_eq.mp (hs.together c hc hn)).2.2.2.2.2]
  rfl

theorem appAreForking_eq : appAreForking g db = .ok lead.isForking := by
  have hforking : ∀ c ∈ db.group g, c.isForking = lead.isForking := by
    intro c hc
    obtain ⟨hmem, hname⟩ := List.mem_filter.mp hc
    exact (position_eq.mp (hs.together c hmem (of_decide_eq_true hname))).2.2.2.2.1
  rw [appAreForking, hs.appCheckContextsSynchronized_eq]
  dsimp only [bind, Except.bind]
  cases hlead : lead.isForking with
  | false =>
    have hempty : (db.group g).filter Context.isForking = [] :=
      List.filter_eq_nil_iff.mpr fun c hc ↦ by rw [hforking c hc, hlead]; exact Bool.false_ne_true
    rw [hempty]
    rfl
  | true =>
    have hall : (db.group g).filter Context.isForking = db.group g :=
      List.filter_eq_self.mpr fun c hc ↦ by rw [hforking c hc, hlead]
    have hlength : (db.group g).length = g.length := by
      rw [← hs.present.length_eq, List.length_map]
    rw [hall, if_neg, if_neg (not_not.mpr hlength)]
    · rfl
    · rw [List.isEmpty_iff]
      exact List.ne_nil_of_mem hs.lead_mem_group

omit hs in
theorem group_names_updateContexts {f : Context ρ → Context ρ} (hf : ∀ c, (f c).name = c.name) :
    ((db.updateContexts g f).group g).map Context.name = (db.group g).map Context.name := by
  have hname : ∀ c : Context ρ, (if c.name ∈ g then f c else c).name = c.name := by
    intro c
    split
    · exact hf c
    · rfl
  simp only [Db.group, Db.updateContexts, List.filter_map, List.map_map]
  have hcomp : (Context.name ∘ fun c : Context ρ ↦ if c.name ∈ g then f c else c) =
      Context.name := funext hname
  have hpred : ((fun c : Context ρ ↦ decide (c.name ∈ g)) ∘
      fun c ↦ if c.name ∈ g then f c else c) = fun c ↦ decide (c.name ∈ g) := by
    funext c
    rw [Function.comp_apply, hname]
  rw [hcomp, hpred]

theorem update {f : Context ρ → Context ρ} (hf : MovesByPosition f)
    (hloop : ∀ c c', c.position = c'.position → c.loop.key = c'.loop.key →
      (f c).loop.key = (f c').loop.key) :
    Synchronized g (db.updateContexts g f) (f lead) where
  toLockstep := hs.toLockstep.update hf
  present := by
    rw [group_names_updateContexts hf.name]
    exact hs.present
  loops c' hc' hn := by
    obtain ⟨c, hc, rfl⟩ := Db.mem_updateContexts.mp hc'
    by_cases hg : c.name ∈ g
    · rw [if_pos hg]
      exact hloop c lead (hs.together c hc hg) (hs.loops c hc hg)
    · rw [if_neg hg] at hn
      exact absurd hn hg

end Synchronized

def Context.touch (now : ℕ) (c : Context ρ) : Context ρ := { c with lastActiveAt := now }

theorem movesByPosition_touch (now : ℕ) : MovesByPosition (ρ := ρ) (Context.touch now) :=
  ⟨fun _ ↦ rfl, fun _ _ h ↦ h⟩

theorem Synchronized.touch (hs : Synchronized g db lead) (now : ℕ) :
    Synchronized g (db.updateContexts g (Context.touch now)) (lead.touch now) :=
  hs.update (movesByPosition_touch now) fun _ _ _ hloop ↦ hloop

theorem Db.grounded_touch {h : Hafd} (hg : ∀ c ∈ db.contexts, Grounded h history lo c) (now : ℕ) :
    ∀ c ∈ (db.updateContexts g (Context.touch now)).contexts, Grounded h history lo c := by
  intro c' hc'
  obtain ⟨c, hc, rfl⟩ := Db.mem_updateContexts.mp hc'
  split
  · exact ⟨(hg c hc).refersTo, (hg c hc).irr_le⟩
  · exact hg c hc

/-- A call of `hive.app_next_block` for a context that is not forking. -/
def Context.nextBlockNonForking (h : Hafd) (blockLimit : Option ℕ) (c : Context ρ) :
    Context ρ × Option BlocksRange :=
  processIrreversibleRange h (c.squash h).currentBlockNum
    (leastLimit (c.squash h).irreversibleBlock blockLimit) ((c.squash h).findNext h)

theorem appNextBlockNonForkingApp_eq (hl : Lockstep g db lead)
    (inv : EventsInv db.toHafd history lo chain)
    (hg : ∀ c ∈ db.contexts, Grounded db.toHafd history lo c) (limit : Option ℕ) :
    appNextBlockNonForkingApp g false limit db =
      .ok (db.updateContexts g (fun c ↦ (c.nextBlockNonForking db.toHafd limit).1),
        BlocksRange.toResult (lead.nextBlockNonForking db.toHafd limit).2) := by
  let h := db.toHafd
  let found (c : Context ρ) : Context ρ := (c.squash h).findNext h
  let next (c : Context ρ) : Context ρ × Option BlocksRange :=
    processIrreversibleRange h (lead.squash h).currentBlockNum
      (leastLimit (lead.squash h).irreversibleBlock limit) c
  have hfound : MovesByPosition found :=
    movesByPosition_comp movesByPosition_squash movesByPosition_findNext
  have hname : ∀ c, (next c).1.name = c.name := by
    intro c
    dsimp only [next, processIrreversibleRange]
    split <;> rfl
  have hprocess : ∀ c' ∈ (db.updateContexts g found).contexts, c'.name ∈ g →
      appProcessEventNonForking h ((lead.squash h).state h) limit c' =
        .ok ((next c').1, (next (found lead)).2) := by
    intro c' hc' hcn
    have hpos := (hl.update hfound).together c' hc' hcn
    rw [← (processIrreversibleRange_congr _ _ hpos).2]
    rfl
  have hnext : ∀ c ∈ db.contexts, c.name ∈ g →
      (next (found c)).1 = (c.nextBlockNonForking h limit).1 := by
    intro c hc hcn
    obtain ⟨h₁, h₂, -⟩ :=
      position_eq.mp (movesByPosition_squash (h := h).position _ _ (hl.together c hc hcn))
    rw [Context.nextBlockNonForking, h₁, h₂]
  have hgroup := processForContexts_eq hl.nodup (hl.update hfound).isLead hname hprocess
  rw [Db.updateContexts_updateContexts hfound.name, Db.updateContexts_congr hnext] at hgroup
  rw [appNextBlockNonForkingApp, appNextBlockNonForkingLoop, squashAndGetState_eq hl inv hg]
  dsimp only [bind, Except.bind]
  rw [Db.updateContexts_toHafd, hgroup]
  dsimp only
  split
  · rename_i hrange
    rw [show BlocksRange.toResult (lead.nextBlockNonForking db.toHafd limit).2 = _ from hrange]
    rfl
  · rename_i hrange
    rw [show BlocksRange.toResult (lead.nextBlockNonForking db.toHafd limit).2 = _ from hrange]
    rfl

section AppNextBlock

variable (hs : Synchronized g db lead) {wait : Bool} {blockLimit : Option ℕ}

include hs

theorem appNextBlock_paused (hpaused : env.isPaused = true) :
    appNextBlock env g wait blockLimit db =
      .ok (db.updateContexts g (Context.touch env.now), none) := by
  rw [appNextBlock, hs.appCheckContextsSynchronized_eq]
  dsimp only [bind, Except.bind]
  rw [if_pos hpaused]
  rfl

variable (hfull : db.hiveState.liteMode = false) (hpruning : db.hiveState.pruning = 0)
  (hactive : env.isPaused = false)

include hfull hpruning hactive

theorem appNextBlock_eq : appNextBlock env g wait blockLimit db =
    if lead.isForking && (env.isInstanceReady || lead.isAttached) then
      appNextBlockForkingApp g (blockLimit <|> env.dependenciesBlockLimit)
        (db.updateContexts g (Context.touch env.now))
    else
      appNextBlockNonForkingApp g wait (blockLimit <|> env.dependenciesBlockLimit)
        (db.updateContexts g (Context.touch env.now)) := by
  have ht := hs.touch env.now
  have hfork : appAreForking g (db.updateContexts g (fun c ↦ { c with lastActiveAt := env.now })) =
      .ok lead.isForking := ht.appAreForking_eq
  have hattached : appContextAreAttached g
      (db.updateContexts g (fun c ↦ { c with lastActiveAt := env.now })) =
      .ok lead.isAttached := ht.appContextAreAttached_eq
  rw [appNextBlock, hs.appCheckContextsSynchronized_eq]
  dsimp only [bind, Except.bind]
  rw [hactive, if_neg Bool.false_ne_true, hfork, hattached]
  dsimp only
  rw [Db.updateContexts_toHafd, hfull, hpruning]
  simp only [Bool.not_false, Bool.true_and, decide_true, Bool.or_true, Bool.and_true]
  rfl

variable (inv : EventsInv db.toHafd history lo chain)
  (hg : ∀ c ∈ db.contexts, Grounded db.toHafd history lo c)

include inv hg

theorem appNextBlock_forking
    (hmode : (lead.isForking && (env.isInstanceReady || lead.isAttached)) = true) {d : Context ρ}
    {range : Option BlocksRange}
    (hok : (lead.touch env.now).nextBlock db.toHafd (blockLimit <|> env.dependenciesBlockLimit) =
      .ok (d, range)) :
    appNextBlock env g wait blockLimit db = .ok (db.updateContexts g (fun c ↦
      (c.touch env.now).advance db.toHafd (blockLimit <|> env.dependenciesBlockLimit)),
      BlocksRange.toResult range) := by
  rw [appNextBlock_eq hs hfull hpruning hactive, if_pos hmode]
  refine (appNextBlockForkingApp_eq (hs.touch env.now).toLockstep inv
    (Db.grounded_touch hg env.now) hok).trans ?_
  rw [Db.updateContexts_updateContexts (movesByPosition_touch env.now).name]
  rfl

theorem appNextBlock_nonForking
    (hmode : (lead.isForking && (env.isInstanceReady || lead.isAttached)) = false) :
    appNextBlock env g false blockLimit db = .ok (db.updateContexts g (fun c ↦
      ((c.touch env.now).nextBlockNonForking db.toHafd
        (blockLimit <|> env.dependenciesBlockLimit)).1),
      BlocksRange.toResult ((lead.touch env.now).nextBlockNonForking db.toHafd
        (blockLimit <|> env.dependenciesBlockLimit)).2) := by
  rw [appNextBlock_eq hs hfull hpruning hactive, if_neg (hmode ▸ Bool.false_ne_true)]
  refine (appNextBlockNonForkingApp_eq (hs.touch env.now).toLockstep inv
    (Db.grounded_touch hg env.now) _).trans ?_
  rw [Db.updateContexts_updateContexts (movesByPosition_touch env.now).name]
  rfl

end AppNextBlock

end HiveForkManager
