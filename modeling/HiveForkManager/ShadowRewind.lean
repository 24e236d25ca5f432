import HiveForkManager.System

namespace HiveForkManager

open UndoLog

variable {ρ : Type}

/-- A context at work, and the rows of its tables when each block was finished. -/
structure Session (ρ : Type) where
  context : Context ρ
  finished : ℕ → ℕ → List (Row ρ)

inductive SessionAction (ρ : Type) where
  | statement (table : ℕ) (s : Statement ρ)
  | advance (blockNum : ℕ)
  | setIrreversible (blockNum : ℕ)
  | rewind (blockNum : ℕ)

namespace Session

def rows (s : Session ρ) (i : ℕ) : List (Row ρ) :=
  (s.context.tables[i]?.map RegisteredTable.rows).getD []

def step (h : Hafd) (s : Session ρ) : SessionAction ρ → Session ρ
  | .statement i statement =>
    match s.context.tables[i]? with
    | none => s
    | some t =>
      match t.execute s.context.currentBlockNum statement with
      | .error _ => s
      | .ok t' => { s with context := { s.context with tables := s.context.tables.set i t' } }
  | .advance n =>
    { context := { s.context with currentBlockNum := n }
      finished := fun b i ↦
        if s.context.currentBlockNum ≤ b ∧ b < n then s.rows i else s.finished b i }
  | .setIrreversible n =>
    match contextSetIrreversibleBlock n s.context with
    | .error _ => s
    | .ok c => { s with context := c }
  | .rewind b => { s with context := contextBackFromFork h b s.context }

/-- The block number grows except by rewinds, which do not go below the irreversible block; the rows
of a table have pairwise distinct ids, and updates do not change them. -/
def Legal (s : Session ρ) : SessionAction ρ → Prop
  | .statement i statement => ∀ t, s.context.tables[i]? = some t →
      ((statement.effect t.rows).map Row.hiveRowid).Nodup ∧ statement.UpdateKeepsRowids t.rows
  | .advance n => s.context.currentBlockNum ≤ n
  | .setIrreversible _ => True
  | .rewind b => s.context.irreversibleBlock ≤ b

structure Start (s : Session ρ) : Prop where
  currentBlockNum : s.context.currentBlockNum = 0
  triggers : ∀ t ∈ s.context.tables, t.hasTriggers = true
  shadow : ∀ t ∈ s.context.tables, t.shadow = []
  rowids : ∀ t ∈ s.context.tables, (t.rows.map Row.hiveRowid).Nodup

inductive Reachable (h : Hafd) : Session ρ → Prop
  | start {s : Session ρ} (hs : s.Start) : Reachable h s
  | step {s : Session ρ} {a : SessionAction ρ} (hs : Reachable h s) (ha : s.Legal a) :
      Reachable h (s.step h a)

/-- The rows that a table has to have after a rewind to block `b`, if it has the rows `current` at
block `cur`. -/
def Held (cur : ℕ) (finished : ℕ → List (Row ρ)) (current : List (Row ρ)) (b : ℕ)
    (rows : List (Row ρ)) : Prop :=
  (rows.map Row.hiveRowid).Nodup ∧ rows.Perm (if b < cur then finished b else current)

/-- Every table can be brought back to any block from the irreversible one on. -/
structure Inv (s : Session ρ) : Prop where
  triggers : ∀ t ∈ s.context.tables, t.hasTriggers = true
  restorable : ∀ i t, s.context.tables[i]? = some t → Restorable ShadowRow.hiveBlockNum revert
    (Held s.context.currentBlockNum (s.finished · i) t.rows) s.context.irreversibleBlock
    s.context.currentBlockNum t.shadow t.rows

variable {cur cur' base : ℕ} {finished finished' : ℕ → List (Row ρ)} {t : RegisteredTable ρ}

variable {b : ℕ} {s : Session ρ} {h : Hafd}

theorem Held.congr {current rows rows' : List (Row ρ)} (h : rows.Perm rows')
    (hrows : Held cur finished current b rows') : Held cur finished current b rows :=
  ⟨(h.map _).nodup_iff.mpr hrows.1, h.trans hrows.2⟩

theorem Held.current {rows : List (Row ρ)} (h : (rows.map Row.hiveRowid).Nodup) :
    Held cur finished rows cur rows :=
  ⟨h, by rw [if_neg (lt_irrefl cur)]⟩

theorem restorable_statement (h : Restorable ShadowRow.hiveBlockNum revert
    (Held cur finished t.rows) base cur t.shadow t.rows) (s : Statement ρ)
    (hnodup : ((s.effect t.rows).map Row.hiveRowid).Nodup) (hs : s.UpdateKeepsRowids t.rows) :
    Restorable ShadowRow.hiveBlockNum revert (Held cur finished (s.effect t.rows)) base cur
      (t.shadow ++ s.records cur t.rows) (s.effect t.rows) := by
  refine Restorable.extend (R := fun a b ↦ a.Perm b) (P := Held cur finished t.rows) revert_perm
    (fun _ _ _ ↦ Held.congr) h le_rfl (fun _ hr ↦ Statement.hiveBlockNum_of_mem_records hr)
    (s.undo_records h.current.1 (Statement.keepsRowids_of_nodup hnodup hs)) ?_ ?_
    (Held.current hnodup)
  · rintro b rows hb ⟨hrows, hperm⟩
    rw [if_pos hb] at hperm
    exact ⟨hrows, by rwa [if_pos hb]⟩
  · exact fun b _ h₁ h₂ ↦ absurd h₁ (by omega)

theorem restorable_advance (h : Restorable ShadowRow.hiveBlockNum revert
    (Held cur finished t.rows) base cur t.shadow t.rows) (hcur : cur ≤ cur') :
    Restorable ShadowRow.hiveBlockNum revert
      (Held cur' (fun b ↦ if cur ≤ b ∧ b < cur' then t.rows else finished b) t.rows) base cur'
      t.shadow t.rows := by
  rw [← List.append_nil t.shadow]
  refine Restorable.extend (R := fun a b ↦ a.Perm b) (P := Held cur finished t.rows) revert_perm
    (fun _ _ _ ↦ Held.congr) (s := t.rows) h hcur (by simp) (.refl _) ?_ ?_
    (Held.current h.current.1)
  · rintro b rows hb ⟨hrows, hperm⟩
    refine ⟨hrows, hperm.trans (.of_eq ?_)⟩
    rw [if_pos hb]
    dsimp only
    by_cases hbc : b < cur
    · rw [if_pos hbc, if_neg (by omega)]
    · rw [if_neg hbc, if_pos ⟨by omega, hb⟩]
  · intro b _ hlt _
    exact ⟨h.current.1, by rw [if_neg (by omega)]⟩

theorem restorable_rewind (h : Restorable ShadowRow.hiveBlockNum revert
    (Held cur finished t.rows) base cur t.shadow t.rows) (hb : base ≤ b) (hcur : b ≤ cur) :
    Restorable ShadowRow.hiveBlockNum revert
      (Held b finished (backFromForkOneTable b t).rows) base b (backFromForkOneTable b t).shadow
      (backFromForkOneTable b t).rows := by
  have hrewound := h.rewind hb hcur
  refine ⟨hrewound.ordered, hrewound.bounded, Held.current hrewound.current.1, ?_⟩
  intro b' hb' hlt
  obtain ⟨hrows, hperm⟩ := hrewound.restores b' hb' hlt
  rw [if_pos (hlt.trans_le hcur)] at hperm
  exact ⟨hrows, by rwa [if_pos hlt]⟩

theorem Start.inv (hs : s.Start) : s.Inv where
  triggers := hs.triggers
  restorable i t ht := by
    have hmem := List.mem_of_getElem? ht
    rw [hs.shadow t hmem, hs.currentBlockNum]
    exact ⟨List.Pairwise.nil, by simp, Held.current (hs.rowids t hmem),
      fun b _ hb ↦ absurd hb (by omega)⟩

theorem Inv.statement (inv : s.Inv) {i : ℕ} {statement : Statement ρ}
    (hlegal : s.Legal (.statement i statement)) : (s.step h (.statement i statement)).Inv := by
  rw [step]
  split
  · exact inv
  · rename_i t ht
    split
    · exact inv
    · rename_i t' hexec
      have htriggers := inv.triggers t (List.mem_of_getElem? ht)
      obtain ⟨hnodup, hkeeps⟩ := hlegal t ht
      rw [RegisteredTable.execute, if_pos htriggers] at hexec
      split at hexec
      · cases hexec
      · cases hexec
        refine ⟨?_, ?_⟩
        · intro t' ht'
          rcases List.mem_or_eq_of_mem_set ht' with ht' | rfl
          · exact inv.triggers t' ht'
          · exact htriggers
        · intro j t' ht'
          dsimp only at ht' ⊢
          rw [List.getElem?_set] at ht'
          split at ht'
          · rename_i hij
            subst hij
            split at ht'
            · cases ht'
              exact restorable_statement (inv.restorable i t ht) statement hnodup hkeeps
            · cases ht'
          · exact inv.restorable j t' ht'

theorem Inv.advance (inv : s.Inv) {n : ℕ}
    (hn : s.context.currentBlockNum ≤ n) : (s.step h (.advance n)).Inv where
  triggers := inv.triggers
  restorable i t ht := by
    have hrows : s.rows i = t.rows := by
      rw [rows, show s.context.tables[i]? = some t from ht, Option.map_some, Option.getD_some]
    simp only [step, hrows]
    exact restorable_advance (inv.restorable i t ht) hn

theorem Inv.map {s' : Session ρ} (inv : s.Inv) {f : RegisteredTable ρ → RegisteredTable ρ}
    (htables : s'.context.tables = s.context.tables.map f)
    (htriggers : ∀ t, (f t).hasTriggers = t.hasTriggers)
    (hf : ∀ i t, s.context.tables[i]? = some t → Restorable ShadowRow.hiveBlockNum revert
      (Held s'.context.currentBlockNum (s'.finished · i) (f t).rows) s'.context.irreversibleBlock
      s'.context.currentBlockNum (f t).shadow (f t).rows) : s'.Inv where
  triggers t ht := by
    rw [htables] at ht
    obtain ⟨t₀, ht₀, rfl⟩ := List.mem_map.mp ht
    rw [htriggers]
    exact inv.triggers t₀ ht₀
  restorable i t ht := by
    rw [htables, List.getElem?_map] at ht
    obtain ⟨t₀, ht₀, rfl⟩ := Option.map_eq_some_iff.mp ht
    exact hf i t₀ ht₀

theorem Inv.setIrreversible (inv : s.Inv) {n : ℕ} : (s.step h (.setIrreversible n)).Inv := by
  rw [step]
  split
  · exact inv
  · rename_i c hset
    obtain ⟨hle, rfl⟩ := contextSetIrreversibleBlock_eq_ok hset
    exact inv.map rfl (fun _ ↦ rfl) fun i t ht ↦ (inv.restorable i t ht).purge hle

theorem Inv.rewind (hfull : h.hiveState.liteMode = false) (inv : s.Inv)
    (hb : s.context.irreversibleBlock ≤ b) : (s.step h (.rewind b)).Inv := by
  rw [step, contextBackFromFork_full hfull, Context.backFromFork]
  split
  · rename_i hlt
    exact inv.map rfl (fun _ ↦ rfl)
      fun i t ht ↦ restorable_rewind (inv.restorable i t ht) hb hlt.le
  · exact inv

theorem Reachable.inv (hfull : h.hiveState.liteMode = false) (hs : Reachable h s) : s.Inv := by
  induction hs with
  | start hs => exact hs.inv
  | @step s a _ ha ih =>
    cases a with
    | statement i statement => exact ih.statement ha
    | advance n => exact ih.advance ha
    | setIrreversible n => exact ih.setIrreversible
    | rewind b => exact ih.rewind hfull ha

end Session

/-- A rewind to a block that is not below the irreversible one gives every table back the rows it
had when the block was finished, and keeps the undo records up to that block. -/
theorem rewind_restores_finished_block {h : Hafd} (hfull : h.hiveState.liteMode = false)
    {s : Session ρ} (hs : Session.Reachable h s) {b : ℕ} (hirr : s.context.irreversibleBlock ≤ b)
    (hb : b < s.context.currentBlockNum) {i : ℕ} {t : RegisteredTable ρ}
    (ht : s.context.tables[i]? = some t) :
    ∃ t', (contextBackFromFork h b s.context).tables[i]? = some t' ∧
      t'.rows.Perm (s.finished b i) ∧
      t'.shadow = t.shadow.filter (fun st ↦ decide (st.hiveBlockNum ≤ b)) := by
  have hheld := ((hs.inv hfull).restorable i t ht).restores b hirr hb
  refine ⟨backFromForkOneTable b t, ?_, ?_, rfl⟩
  · rw [contextBackFromFork_full hfull, Context.backFromFork, if_pos hb, List.getElem?_map, ht,
      Option.map_some]
  · have hperm := hheld.2
    rwa [if_pos hb] at hperm

def firstSession : Session ℕ where
  context := registerTable ((Db.initial ℕ).newContext (.ready 0) "app" true true none)
  finished := fun _ _ ↦ []

def updatedSession (set : Row ℕ → Row ℕ) : Session ℕ :=
  [.advance 1, .statement 0 (.insert [⟨1, 7⟩]), .advance 2,
    .statement 0 (.update (fun _ ↦ true) set)].foldl (Session.step Hafd.initial) firstSession

theorem updatedSession_reachable :
    Session.Reachable Hafd.initial (updatedSession (fun t ↦ { t with columns := 8 })) := by
  have hstart : firstSession.Start := by
    refine ⟨rfl, ?_, ?_, ?_⟩ <;> decide
  refine (((Session.Reachable.start hstart).step (a := .advance 1) (Nat.zero_le 1)).step
    (a := .statement 0 (.insert [⟨1, 7⟩])) ?_).step (a := .advance 2) (Nat.le_succ 1) |>.step
    (a := .statement 0 (.update (fun _ ↦ true) (fun t ↦ { t with columns := 8 }))) ?_
  · rintro t ⟨⟩
    exact ⟨by decide, trivial⟩
  · rintro t ⟨⟩
    exact ⟨by decide, fun t _ _ ↦ rfl⟩

theorem rewind_restores_updated_row :
    ∃ t', (contextBackFromFork Hafd.initial 1
        (updatedSession (fun t ↦ { t with columns := 8 })).context).tables[0]? = some t' ∧
      t'.rows.Perm [⟨1, 7⟩] ∧ t'.shadow = [⟨⟨1, 7⟩, 1, .insert⟩] := by
  have ht : (updatedSession (fun t ↦ { t with columns := 8 })).context.tables[0]? =
      some ⟨[⟨1, 8⟩], [⟨⟨1, 7⟩, 1, .insert⟩, ⟨⟨1, 7⟩, 2, .update⟩], 1, true⟩ := by decide
  obtain ⟨t', ht', hrows, hshadow⟩ :=
    rewind_restores_finished_block rfl updatedSession_reachable (b := 1) (by decide) (by decide) ht
  exact ⟨t', ht', hrows, hshadow.trans (by decide)⟩

/-- An update that changes `hive_rowid` is not taken back, though all ids stay distinct. -/
theorem rewind_misses_changed_rowid :
    ((updatedSession (fun t ↦ { t with hiveRowid := 2 })).rows 0).map Row.hiveRowid = [2] ∧
      (updatedSession (fun t ↦ { t with hiveRowid := 2 })).finished 1 0 = [⟨1, 7⟩] ∧
      (contextBackFromFork Hafd.initial 1
        (updatedSession (fun t ↦ { t with hiveRowid := 2 })).context).tables.map
        RegisteredTable.rows = [[⟨2, 7⟩]] := by
  decide

end HiveForkManager
