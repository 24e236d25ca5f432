import HiveForkManager.Handling

namespace HiveForkManager

variable {w : World ℕ} {stored : List (Reversible BlockData)} {lo : ℕ} {name : ContextName}

theorem Tracks.hived {h h' : Hafd} {history history' : List HistoryEntry} {lo' : ℕ}
    {chain' : List BlockData} {c : Context ℕ} (hc : Tracks h history c)
    (hg : Grounded h history lo c) (hseq : history.length ≤ unreachableEventId)
    (inv' : EventsInv h' history' lo' chain') (hhistory : history <+: history')
    (hcons : h'.consistentBlock = none → h.consistentBlock = none) : Tracks h' history' c := by
  refine hc.imp (fun hon ↦ ⟨hon.1, fun hnone ↦ hon.2 (hcons hnone)⟩) fun hcur ↦ hcur.trans ?_
  obtain ⟨more, rfl⟩ := hhistory
  rcases hg.refersTo.known with hlt | hsink
  · rw [heightAt, heightAt, List.getElem?_append_left hlt]
  · rw [heightAt, heightAt, hsink, List.getElem?_eq_none hseq,
      List.getElem?_eq_none inv'.seq_le]

theorem World.HivedResult.consistentBlock {w' : World ℕ} {call : HivedCall}
    (h : World.HivedResult w call w') (hnone : w'.db.consistentBlock = none) :
    w.db.consistentBlock = none := by
  cases h with
  | irreversible n lock => cases lock <;> cases hnone
  | synced n lock => cases lock <;> cases hnone
  | _ => exact hnone

/-- The context of the application is the only one, forking and attached, and sound. -/
structure Serves (name : ContextName) (w : World ℕ) : Prop where
  name : ∀ c ∈ w.db.contexts, c.name = name
  forking : ∀ c ∈ w.db.contexts, c.isForking = true
  attached : ∀ c ∈ w.db.contexts, c.isAttached = true
  sound : ∀ c ∈ w.db.contexts, Sound w.db.toHafd w.history c

/-- The calls of hived and of one application that asks for the next block. No call comes while a
fork below its irreversible block is ahead of the context, or with a limit that refuses the next
block of a context above irreversible ones. -/
def Call.Single (name : ContextName) (w : World ℕ) : Call → Prop
  | .hived call => w.Allowed call
  | .createContext _ contextName isForking isAttached stages _ => contextName = name ∧
      isForking = true ∧ isAttached = true ∧ stages = none ∧ w.db.contexts = []
  | .nextBlock env contexts limit => contexts = [name] ∧ env.isPaused = false ∧
      w.db.contexts ≠ [] ∧ ∀ c ∈ w.db.contexts, c.Sheltered w.db.toHafd ∧
        ¬ c.Loses w.db.toHafd (limit <|> env.dependenciesBlockLimit)
  | _ => False

instance (name : ContextName) (w : World ℕ) (call : Call) : Decidable (call.Single name w) := by
  apply Call.casesOn (motive := fun call ↦ Decidable (call.Single name w)) call <;> intros <;>
    unfold Call.Single <;> infer_instance

theorem Call.Single.lawful {call : Call} (h : call.Single name w) : call.Lawful w := by
  cases call with
  | hived call => exact h
  | _ => trivial

namespace Serves

theorem eq_singleton (h : Serves name w) (inv : WorldInv w stored lo) {c : Context ℕ}
    (hc : c ∈ w.db.contexts) : w.db.contexts = [c] := by
  have hall : ∀ c' ∈ w.db.contexts, c' = c := fun c' hc' ↦
    List.inj_on_of_nodup_map inv.names hc' hc ((h.name c' hc').trans (h.name c hc).symm)
  have hnodup := inv.names.of_map
  rcases hcs : w.db.contexts with _ | ⟨a, _ | ⟨b, cs⟩⟩
  · rw [hcs] at hc
    cases hc
  · rw [hall a (hcs ▸ List.mem_cons_self)]
  · rw [hcs, List.nodup_cons] at hnodup
    have ha := hall a (hcs ▸ List.mem_cons_self)
    have hb := hall b (hcs ▸ List.mem_cons_of_mem _ List.mem_cons_self)
    refine absurd ?_ hnodup.1
    rw [ha, ← hb]
    exact List.mem_cons_self

theorem processNextBlock_eq (h : Serves name w) (inv : WorldInv w stored lo) {c : Context ℕ}
    (hc : c ∈ w.db.contexts) {env : CallEnv} (hactive : env.isPaused = false)
    (limit : Option ℕ) :
    ∃ c', processNextBlock env [name] limit w.db = .ok { w.db with contexts := [c'] } ∧
      c'.name = name ∧ c'.isForking = true ∧ c'.isAttached = true ∧
      (c.Sheltered w.db.toHafd → ¬ c.Loses w.db.toHafd (limit <|> env.dependenciesBlockLimit) →
        Sound w.db.toHafd w.history c') ∧
      ∀ d, (c.touch env.now).nextBlock w.db.toHafd (limit <|> env.dependenciesBlockLimit) =
        .ok (d, some .negative) → c' = d := by
  have hcs := h.eq_singleton inv hc
  have hname := h.name c hc
  have hsync : Synchronized [name] w.db c := hname ▸ Synchronized.single inv.names hc
  have hground := inv.contexts c hc
  obtain ⟨c', range, tables, hok, hhandle, hsound⟩ := nextBlock_sound inv.events inv.storage
    (c := c.touch env.now) ⟨hground.refersTo, hground.irr_le⟩ ((h.sound c hc).touch env.now)
    (h.forking c hc) (h.attached c hc) (limit <|> env.dependenciesBlockLimit)
  have hsettings : c'.settings = c.settings :=
    (nextBlock_settings hok : c'.settings = (c.touch env.now).settings)
  have hname' : c'.name = name := (congrArg Settings.name hsettings).trans hname
  have hforking := (congrArg Settings.isForking hsettings).trans (h.forking c hc)
  have hattached := (congrArg Settings.isAttached hsettings).trans (h.attached c hc)
  have hnext : appNextBlock env [name] false limit w.db = .ok (_, BlocksRange.toResult range) :=
    appNextBlock_forking hsync inv.storage.full inv.notPruned hactive inv.events inv.contexts
      (by rw [h.forking c hc, h.attached c hc, Bool.or_true]; rfl) hok
  have hupdated : w.db.updateContexts [name] (fun c ↦
      (c.touch env.now).advance w.db.toHafd (limit <|> env.dependenciesBlockLimit)) =
      { w.db with contexts := [c'] } := by
    rw [Db.updateContexts, hcs]
    simpa [hname] using advance_of_ok hok
  rw [hupdated] at hnext
  refine ⟨{ c' with tables }, ?_, hname', hforking, hattached,
    fun hshelter hloses ↦ hsound hshelter hloses, fun d hd ↦ ?_⟩
  swap
  · obtain ⟨rfl, rfl⟩ := Prod.mk.inj (Except.ok.inj (hok.symm.trans hd))
    exact (Except.ok.inj hhandle).symm
  rw [processNextBlock, hnext]
  cases hrange : BlocksRange.toResult range with
  | none =>
    rw [hrange] at hhandle
    rw [← Except.ok.inj hhandle]
    rfl
  | some r =>
    rw [hrange] at hhandle
    have heach : insertBlocks [name] [r.firstBlock.toNat] { w.db with contexts := [c'] } =
        .ok (({ w.db with contexts := [c'] } : Db ℕ).updateContexts [name]
          (fun c ↦ { c with tables })) :=
      Db.forEachContext_eq (List.nodup_singleton _) (fun _ ↦ rfl) fun c'' hc'' _ ↦ by
        rw [List.mem_singleton.mp hc'']
        exact hhandle
    refine heach.trans ?_
    simp [Db.updateContexts, hname']

theorem hived (h : Serves name w) (inv : WorldInv w stored lo) {call : HivedCall}
    (hcall : w.Allowed call) {stored' : List (Reversible BlockData)} {lo' : ℕ}
    (inv' : WorldInv (w.hived call) stored' lo') : Serves name (w.hived call) := by
  have hresult := World.hivedResult inv.storage hcall
  have hcontexts := hresult.contexts
  refine ⟨?_, ?_, ?_, ?_⟩
  · rw [hcontexts]
    exact h.name
  · rw [hcontexts]
    exact h.forking
  · rw [hcontexts]
    exact h.attached
  · intro c hc
    rw [hcontexts] at hc
    refine ⟨(h.sound c hc).exact, fun hfork hatt ↦ ?_⟩
    exact ((h.sound c hc).tracks hfork hatt).hived (inv.contexts c hc) inv.events.seq_le
      inv'.events hresult.history hresult.consistentBlock

theorem step (h : Serves name w) (inv : WorldInv w stored lo) {call : Call}
    (hcall : call.Single name w) {stored' : List (Reversible BlockData)} {lo' : ℕ}
    (inv' : WorldInv (w.step call) stored' lo') : Serves name (w.step call) := by
  cases call with
  | hived call => exact h.hived inv hcall inv'
  | createContext env contextName isForking isAttached stages tables =>
    obtain ⟨rfl, rfl, rfl, rfl, hnone⟩ := hcall
    rw [World.step, World.app]
    split
    · exact h
    · rename_i db hok
      obtain ⟨-, rfl⟩ := appCreateContext_eq_ok hok
      rw [hnone, List.nil_append, registerTable_iterate]
      have htables : ∀ t ∈ List.replicate tables
          (⟨[], [], 1, true⟩ : RegisteredTable ℕ), t = ⟨[], [], 1, true⟩ :=
        fun t ht ↦ List.eq_of_mem_replicate ht
      refine ⟨by simp [Db.newContext], by simp [Db.newContext, inv.storage.full],
        by simp [Db.newContext], fun c hc ↦ ?_⟩
      rw [List.mem_singleton.mp hc]
      refine ⟨⟨fun _ _ t ht ↦ ?_, fun t ht ↦ ?_, fun hmode ↦ ?_⟩, fun _ _ ↦ .inr ?_⟩
      · rw [htables t (by simpa [Db.newContext] using ht)]
      · rw [htables t (by simpa [Db.newContext] using ht)]
        exact TableExact.registered _ _
      · exact absurd (by simp [Db.newContext, inv.storage.full]) hmode
      · simp [Db.newContext, inv.events.min_id, heightAt, inv.events.isHistory.getElem?_zero,
          HistoryEntry.origin, HistoryEntry.height]
  | nextBlock env contexts limit =>
    obtain ⟨rfl, hactive, hne, hkeeps⟩ := hcall
    obtain ⟨c, hc⟩ := List.exists_mem_of_ne_nil _ hne
    obtain ⟨c', hok, hname, hforking, hattached, hsound, -⟩ :=
      h.processNextBlock_eq inv hc hactive limit
    have hstep : w.step (.nextBlock env [name] limit) =
        { w with db := { w.db with contexts := [c'] } } := by
      rw [World.step, World.app, hok]
    rw [hstep]
    refine ⟨by simpa using hname, by simpa using hforking, by simpa using hattached, fun d hd ↦ ?_⟩
    rw [List.mem_singleton.mp hd]
    exact hsound (hkeeps c hc).1 (hkeeps c hc).2
  | nextIteration => exact hcall.elim
  | attach => exact hcall.elim
  | detach => exact hcall.elim
  | setNonForking => exact hcall.elim
  | setForking => exact hcall.elim
  | autoDetach => exact hcall.elim

end Serves

theorem Reachable.serves (h : Reachable (fun w call ↦ call.Single name w) w) :
    ∃ stored lo, WorldInv w stored lo ∧ Serves name w := by
  induction h with
  | initial state =>
    refine ⟨[], 0, WorldInv.initial ℕ state, ?_, ?_, ?_, ?_⟩ <;> simp [World.initial, Db.initial]
  | step _ hcall ih =>
    obtain ⟨stored, lo, inv, hserves⟩ := ih
    obtain ⟨stored', lo', inv'⟩ := inv.step hcall.lawful
    exact ⟨stored', lo', inv', hserves.step inv hcall inv'⟩

def Call.Unlimited (name : ContextName) (w : World ℕ) (call : Call) : Prop :=
  call.Single name w ∧ match call with
    | .nextBlock env _ limit => (limit <|> env.dependenciesBlockLimit) = none
    | _ => True

instance (name : ContextName) (w : World ℕ) (call : Call) : Decidable (call.Unlimited name w) := by
  apply Call.casesOn (motive := fun call ↦ Decidable (call.Unlimited name w)) call <;> intros <;>
    unfold Call.Unlimited <;> infer_instance

/-- Without limits the tables of the application hold every block up to its current one exactly
once, and no request fails. -/
theorem exactly_once_delivery (hw : Reachable (fun w call ↦ call.Unlimited name w) w) :
    ∀ c ∈ w.db.contexts,
      (∀ t ∈ c.tables, (t.rows.map Row.columns).Perm (List.range' 1 c.currentBlockNum)) ∧
      ∀ env : CallEnv, env.isPaused = false →
        ∃ db, processNextBlock env [name] none w.db = .ok db := by
  obtain ⟨stored, lo, inv, hserves⟩ := (hw.mono fun _ _ h ↦ h.1).serves
  intro c hc
  refine ⟨fun t ht ↦ ((hserves.sound c hc).exact.tables t ht).current.blocks,
    fun env hactive ↦ ?_⟩
  obtain ⟨c', hok, -⟩ := hserves.processNextBlock_eq inv hc hactive none
  exact ⟨_, hok⟩

/-- hived switches forks under a context that is on block 2, and takes over the other branch. -/
def servedCalls : List Call :=
  [.createContext (.ready 0) "app" true true none 1, .hived (.pushBlock (emptyBlock 1 1 0)),
    .hived (.pushBlock (emptyBlock 2 2 1)), .nextBlock (.ready 0) ["app"] none,
    .nextBlock (.ready 0) ["app"] none, .hived (.backFromFork 1),
    .hived (.pushBlock (emptyBlock 2 3 1)), .nextBlock (.ready 0) ["app"] none,
    .nextBlock (.ready 0) ["app"] none, .hived (.setIrreversible 2 true),
    .nextBlock (.ready 0) ["app"] none]

theorem servedCalls_exactly_once :
    (((World.initial ℕ .live).run servedCalls).db.contexts.map Context.currentBlockNum) = [2] ∧
    ∀ c ∈ ((World.initial ℕ .live).run servedCalls).db.contexts,
      (∀ t ∈ c.tables, (t.rows.map Row.columns).Perm (List.range' 1 c.currentBlockNum)) ∧
      ∀ env : CallEnv, env.isPaused = false → ∃ db, processNextBlock env ["app"] none
        ((World.initial ℕ .live).run servedCalls).db = .ok db :=
  ⟨by decide +kernel, exactly_once_delivery ((Reachable.initial .live).run (by decide +kernel))⟩

/-- The context starts after hived has left block 2 of a branch that split below the irreversible
block. It applies that block, is taken back to block 0 and gets block 1 again. -/
theorem block_delivered_twice : ∃ w : World ℕ,
    Reachable (fun w call ↦ call.Lawful w) w ∧ ∃ c ∈ w.db.contexts, c.currentBlockNum = 1 ∧
      c.tables.map (fun t ↦ t.rows.map Row.columns) = [[1, 1]] :=
  ⟨(World.initial ℕ .live).run [.hived (.pushBlock (emptyBlock 1 1 0)),
      .hived (.pushBlock (emptyBlock 2 2 1)), .hived (.backFromFork 0),
      .hived (.pushBlock (emptyBlock 1 3 0)), .hived (.setIrreversible 1 true),
      .createContext (.ready 0) "app" true true none 1, .nextBlock (.ready 0) ["app"] none,
      .nextBlock (.ready 0) ["app"] none, .nextBlock (.ready 0) ["app"] none,
      .nextBlock (.ready 0) ["app"] none],
    (Reachable.initial .live).run (by decide +kernel), by decide +kernel⟩

end HiveForkManager
