import HiveForkManager.Handling

namespace HiveForkManager

variable {w : World ℕ} {stored : List (Reversible BlockData)} {lo : ℕ} {c : Context ℕ}

theorem processNextBlock_nonForking (inv : WorldInv w stored lo) (hc : c ∈ w.db.contexts)
    (hfork : c.isForking = false) (hexact : Exact c) (env : CallEnv) (limit : Option ℕ) :
    ∃ c', processNextBlock env [c.name] limit w.db =
        .ok (w.db.updateContexts [c.name] fun _ ↦ c') ∧ c'.isForking = false ∧ Exact c' := by
  have hsync := Synchronized.single inv.names hc
  have hunique : ∀ d ∈ w.db.contexts, d.name ∈ [c.name] → d = c := fun d hd hn ↦
    List.inj_on_of_nodup_map inv.names hd hc (List.mem_singleton.mp hn)
  have hone : ∀ f : Context ℕ → Context ℕ,
      w.db.updateContexts [c.name] f = w.db.updateContexts [c.name] fun _ ↦ f c :=
    fun f ↦ Db.updateContexts_congr fun d hd hn ↦ congrArg f (hunique d hd hn)
  have hmode : ∀ P : Prop, c.isForking = true → P := fun P hmode ↦
    absurd (hfork.symm.trans hmode) Bool.false_ne_true
  have hsound : Sound w.db.toHafd w.history (c.touch env.now) :=
    Sound.touch ⟨hexact, hmode _⟩ env.now
  cases hpaused : env.isPaused with
  | true =>
    refine ⟨c.touch env.now, ?_, hfork, hsound.exact⟩
    rw [processNextBlock, appNextBlock_paused hsync hpaused, hone]
    rfl
  | false =>
    have hground := inv.contexts c hc
    obtain ⟨tables, hhandle, hsound'⟩ := nextBlockNonForking_sound inv.events inv.storage
      (c := c.touch env.now) ⟨hground.refersTo, hground.irr_le⟩ hsound (fun h ↦ hmode _ h.1)
      (limit <|> env.dependenciesBlockLimit)
    have hnext : appNextBlock env [c.name] false limit w.db = .ok _ := appNextBlock_nonForking
      hsync inv.storage.full inv.notPruned hpaused inv.events inv.contexts (by rw [hfork]; rfl)
    set next : Context ℕ → Context ℕ × Option BlocksRange := fun c ↦
      (c.touch env.now).nextBlockNonForking w.db.toHafd (limit <|> env.dependenciesBlockLimit)
    have hsettings : ∀ c, (next c).1.settings = c.settings := fun c ↦
      nextBlockNonForking_settings (c := c.touch env.now) _
    refine ⟨{ (next c).1 with tables }, ?_, ?_, hsound'.exact⟩
    · rw [processNextBlock, hnext]
      cases hrange : BlocksRange.toResult (next c).2 with
      | none =>
        rw [hrange] at hhandle
        rw [← Except.ok.inj hhandle]
        exact congrArg Except.ok (hone fun c ↦ (next c).1)
      | some r =>
        rw [hrange] at hhandle
        have heach : insertBlocks [c.name] [r.firstBlock.toNat]
            (w.db.updateContexts [c.name] fun c ↦ (next c).1) = .ok _ :=
          Db.forEachContext_eq (g := fun c ↦ { c with tables }) (List.nodup_singleton _)
            (fun _ ↦ rfl) fun d hd hn ↦ by
              obtain ⟨d, hd', rfl⟩ := Db.mem_updateContexts.mp hd
              split at hn
              · rename_i hmem
                rw [if_pos hmem, hunique d hd' hmem]
                exact hhandle
              · contradiction
        refine heach.trans ?_
        rw [Db.updateContexts_updateContexts fun c ↦ congrArg Settings.name (hsettings c)]
        exact congrArg Except.ok (hone fun c ↦ { (next c).1 with tables })
    · exact (congrArg Settings.isForking (hsettings c)).trans hfork

/-- The calls of hived, and of any number of applications with one context that is not forking. -/
def Call.NonForking (w : World ℕ) : Call → Prop
  | .hived call => w.Allowed call
  | .createContext _ _ isForking _ _ _ => isForking = false
  | .nextBlock _ contexts _ => ∃ c ∈ w.db.contexts, contexts = [c.name]
  | _ => False

instance (w : World ℕ) (call : Call) : Decidable (call.NonForking w) := by
  apply Call.casesOn (motive := fun call ↦ Decidable (call.NonForking w)) call <;> intros <;>
    unfold Call.NonForking <;> infer_instance

theorem Call.NonForking.exact_step {call : Call} (hcall : call.NonForking w)
    (inv : WorldInv w stored lo) (h : ∀ c ∈ w.db.contexts, c.isForking = false ∧ Exact c) :
    ∀ c ∈ (w.step call).db.contexts, c.isForking = false ∧ Exact c := by
  cases call with
  | hived call =>
    rw [World.step, (World.hivedResult inv.storage hcall).contexts]
    exact h
  | createContext env name isForking isAttached stages tables =>
    obtain rfl : isForking = false := hcall
    rw [World.step, World.app]
    split
    · exact h
    · rename_i db hok
      obtain ⟨-, rfl⟩ := appCreateContext_eq_ok hok
      intro c hc
      rcases List.mem_append.mp hc with hc | hc
      · exact h c hc
      · rw [List.mem_singleton.mp hc, registerTable_iterate]
        refine ⟨rfl, ⟨fun hmode ↦ (by cases hmode), fun t ht ↦ ?_, fun _ ↦ Nat.zero_le _⟩⟩
        rw [List.eq_of_mem_replicate ht]
        exact TableExact.registered _ _
  | nextBlock env contexts limit =>
    obtain ⟨c, hc, rfl⟩ := hcall
    obtain ⟨c', hok, hc'⟩ := processNextBlock_nonForking inv hc (h c hc).1 (h c hc).2 env limit
    rw [World.step, World.app, hok]
    intro d hd
    obtain ⟨d, hd', rfl⟩ := Db.mem_updateContexts.mp hd
    split
    · exact hc'
    · exact h d hd'
  | _ => exact hcall.elim

theorem Call.NonForking.lawful {call : Call} (h : call.NonForking w) : call.Lawful w := by
  cases call with
  | hived call => exact h
  | _ => trivial

theorem Reachable.nonForking_exact (h : Reachable (fun w call ↦ call.NonForking w) w) :
    ∀ c ∈ w.db.contexts, c.isForking = false ∧ Exact c := by
  induction h with
  | initial state => exact fun c hc ↦ by cases hc
  | step h hcall ih =>
    obtain ⟨stored, lo, inv⟩ := h.worldInv fun _ _ ↦ Call.NonForking.lawful
    exact hcall.exact_step inv ih

/-- In every run of hived with any number of such applications, each has the blocks up to its
current one exactly once, no fork can take one of them back, and no request fails. -/
theorem nonForking_delivery (hw : Reachable (fun w call ↦ call.NonForking w) w) :
    ∀ c ∈ w.db.contexts, c.currentBlockNum ≤ w.db.irreversibleHead ∧
      (∀ t ∈ c.tables, (t.rows.map Row.columns).Perm (List.range' 1 c.currentBlockNum)) ∧
      ∀ (env : CallEnv) (limit : Option ℕ),
        ∃ db, processNextBlock env [c.name] limit w.db = .ok db := by
  intro c hc
  obtain ⟨hfork, hexact⟩ := hw.nonForking_exact c hc
  obtain ⟨stored, lo, inv⟩ := hw.worldInv fun _ _ ↦ Call.NonForking.lawful
  have hle := hexact.settled fun hmode ↦ absurd (hfork.symm.trans hmode.1) Bool.false_ne_true
  refine ⟨hle.trans (inv.contexts c hc).irr_le, fun t ht ↦ (hexact.tables t ht).current.blocks,
    fun env limit ↦ ?_⟩
  obtain ⟨c', hok, -⟩ := processNextBlock_nonForking inv hc hfork hexact env limit
  exact ⟨_, hok⟩

def twoReaders : List Call :=
  [.createContext (.ready 0) "a" false true none 1,
    .hived (.pushBlock (emptyBlock 1 1 0)), .hived (.pushBlock (emptyBlock 2 2 1)),
    .nextBlock (.ready 0) ["a"] none, .hived (.setIrreversible 1 true),
    .createContext (.ready 0) "b" false true none 1, .nextBlock (.ready 0) ["b"] none,
    .nextBlock (.ready 0) ["a"] none]

theorem twoReaders_delivery : ∃ w : World ℕ, w.db.contexts.length = 2 ∧ ∀ c ∈ w.db.contexts,
    c.currentBlockNum = 1 ∧ ∀ t ∈ c.tables, (t.rows.map Row.columns).Perm [1] := by
  have hcurrent : ∀ c ∈ ((World.initial ℕ .live).run twoReaders).db.contexts,
      c.currentBlockNum = 1 := by decide +kernel
  refine ⟨_, by decide +kernel, fun c hc ↦ ⟨hcurrent c hc, ?_⟩⟩
  obtain ⟨-, hrows, -⟩ := nonForking_delivery
    ((Reachable.initial .live).run (by decide +kernel : World.Runs _ _ twoReaders)) c hc
  rwa [hcurrent c hc] at hrows

end HiveForkManager
