import HiveForkManager.System

namespace HiveForkManager

open UndoLog

variable {ρ : Type}

/-- A table that is not registered yet, without or with a `hive_rowid` column. -/
inductive PlainTable (ρ : Type) where
  | columns (rows : List ρ)
  | withRowid (rows : List (Row ρ))
  deriving DecidableEq, Repr

/-- `ADD COLUMN hive_rowid BIGINT NOT NULL DEFAULT 0`, unless the column is there. -/
def PlainTable.addRowid : PlainTable ρ → List (Row ρ)
  | columns rows => rows.map (fun columns ↦ ⟨0, columns⟩)
  | withRowid rows => rows

/-- `hive.app_register_table` in the full schema: the event trigger of `INHERIT` runs
`hive.register_table`, whose new sequence starts at one. -/
def appRegisterTable (table : PlainTable ρ) (c : Context ρ) : Context ρ :=
  { c with tables := c.tables ++ [⟨table.addRowid, [], 1, c.isAttached⟩] }

/-- The statements that leave `hive_rowid` alone. -/
inductive ColumnStatement (ρ : Type) where
  | insert (columns : List ρ)
  | update (condition : Row ρ → Bool) (set : Row ρ → ρ)
  | delete (condition : Row ρ → Bool)
  | truncate (restartIdentity : Bool)

def ColumnStatement.execute (blockNum : ℕ) (t : RegisteredTable ρ) :
    ColumnStatement ρ → Except Error (RegisteredTable ρ)
  | insert columns => t.insertColumns blockNum columns
  | update condition set =>
    t.execute blockNum (.update condition (fun r ↦ { r with columns := set r }))
  | delete condition => t.execute blockNum (.delete condition)
  | truncate restartIdentity => do
    let t ← t.execute blockNum .truncate
    pure (if restartIdentity then { t with rowidSeq := 1 } else t)

/-- `TRUNCATE … RESTART IDENTITY` restarts the sequence that the `hive_rowid` column owns. -/
def ColumnStatement.KeepsSequence : ColumnStatement ρ → Prop
  | truncate restartIdentity => restartIdentity = false
  | _ => True

inductive TableAction (ρ : Type) where
  /-- `CREATE TABLE … INHERITS`. -/
  | inherit
  | register (table : PlainTable ρ)
  | unregister (table : ℕ)
  | statement (table : ℕ) (s : ColumnStatement ρ)
  | advance (blockNum : ℕ)
  | setIrreversible (blockNum : ℕ)
  | rewind (blockNum : ℕ)
  | detach
  | attach (lastSyncedBlock : ℕ)

namespace TableAction

def execute (h : Hafd) (c : Context ρ) : TableAction ρ → Except Error (Context ρ)
  | inherit => .ok (registerTable c)
  | register table => .ok (appRegisterTable table c)
  | unregister i => .ok { c with tables := c.tables.eraseIdx i }
  | statement i s =>
    match c.tables[i]? with
    | none => .ok c
    | some t => do
      let t ← s.execute c.currentBlockNum t
      pure { c with tables := c.tables.set i t }
  | advance n => .ok { c with currentBlockNum := n }
  | setIrreversible n => contextSetIrreversibleBlock n c
  | rewind b => .ok (contextBackFromFork h b c)
  | detach => contextDetach h c
  | attach n => contextAttach n c

def step (h : Hafd) (c : Context ρ) (a : TableAction ρ) : Context ρ :=
  match a.execute h c with
  | .error _ => c
  | .ok c' => c'

def run (h : Hafd) (c : Context ρ) (actions : List (TableAction ρ)) : Context ρ :=
  actions.foldl (step h) c

/-- A table registered later has at most one row, its `hive_rowid` is not one that the sequence will
give, and no statement restarts the sequence. -/
def Registers : TableAction ρ → Prop
  | register table => table.addRowid.length ≤ 1 ∧ ∀ r ∈ table.addRowid, r.hiveRowid = 0
  | statement _ s => s.KeepsSequence
  | _ => True

end TableAction

def deletedRowids (shadow : List (ShadowRow ρ)) : List ℕ :=
  (shadow.filter (fun st ↦ decide (st.hiveOperationType = .delete))).map (fun st ↦ st.row.hiveRowid)

def claimedRowids (rows : List (Row ρ)) (shadow : List (ShadowRow ρ)) : List ℕ :=
  rows.map Row.hiveRowid ++ deletedRowids shadow

@[simp] theorem deletedRowids_append (shadow records : List (ShadowRow ρ)) :
    deletedRowids (shadow ++ records) = deletedRowids shadow ++ deletedRowids records := by
  simp [deletedRowids]

@[simp] theorem deletedRowids_map_delete (blockNum : ℕ) (rows : List (Row ρ)) :
    deletedRowids (rows.map (fun r ↦ (⟨r, blockNum, .delete⟩ : ShadowRow ρ))) =
      rows.map Row.hiveRowid := by
  simp [deletedRowids, List.filter_map, Function.comp_def]

theorem deletedRowids_map_of_ne (op : TriggerOperation) (hop : op ≠ .delete) (blockNum : ℕ)
    (rows : List (Row ρ)) :
    deletedRowids (rows.map (fun r ↦ (⟨r, blockNum, op⟩ : ShadowRow ρ))) = [] := by
  simp [deletedRowids, List.filter_map, Function.comp_def, hop]

theorem deletedRowids_sublist {shadow shadow' : List (ShadowRow ρ)} (h : shadow'.Sublist shadow) :
    (deletedRowids shadow').Sublist (deletedRowids shadow) :=
  (h.filter _).map _

theorem claimedRowids_perm (rows : List (Row ρ)) {shadow shadow' : List (ShadowRow ρ)}
    (h : shadow'.Perm shadow) : (claimedRowids rows shadow').Perm (claimedRowids rows shadow) :=
  ((h.filter _).map _).append_left _

theorem claimedRowids_revert (st : ShadowRow ρ) (rows : List (Row ρ))
    (shadow : List (ShadowRow ρ)) :
    (claimedRowids (revert st rows) shadow).Subperm (claimedRowids rows (shadow ++ [st])) := by
  obtain ⟨row, blockNum, op⟩ := st
  cases op with
  | insert =>
    refine (List.Sublist.append ?_ (deletedRowids_sublist (List.sublist_append_left _ _))).subperm
    exact List.filter_sublist.map _
  | delete =>
    refine List.Perm.subperm ?_
    simp only [claimedRowids, revert, revertDelete, List.map_append, List.map_singleton,
      deletedRowids_append, List.append_assoc]
    refine List.Perm.append_left _ ?_
    have hcomm : ([row.hiveRowid] ++ deletedRowids shadow).Perm _ := List.perm_append_comm
    simpa [deletedRowids] using hcomm
  | update =>
    refine List.Perm.subperm (List.Perm.of_eq ?_)
    have hids : (revertUpdate ⟨row, blockNum, .update⟩ row.hiveRowid rows).map Row.hiveRowid =
        rows.map Row.hiveRowid := by
      rw [revertUpdate, List.map_map]
      refine List.map_congr_left fun r _ ↦ ?_
      rw [Function.comp_apply]
      split
      · exact Eq.symm ‹_›
      · rfl
    simp [claimedRowids, revert, hids, deletedRowids]

theorem claimedRowids_foldr_revert (rows : List (Row ρ)) (kept log : List (ShadowRow ρ)) :
    (claimedRowids (log.foldr revert rows) kept).Subperm (claimedRowids rows (kept ++ log)) := by
  induction log generalizing kept with
  | nil => simp [List.Subperm.refl]
  | cons st log ih =>
    refine (claimedRowids_revert st _ kept).trans ?_
    simpa using ih (kept ++ [st])

theorem claimedRowids_backFromFork (b : ℕ) (t : RegisteredTable ρ) :
    (claimedRowids (backFromForkOneTable b t).rows (backFromForkOneTable b t).shadow).Subperm
      (claimedRowids t.rows t.shadow) := by
  refine (claimedRowids_foldr_revert _ _ _).trans (claimedRowids_perm _ ?_).subperm
  have hsplit := List.filter_append_perm (fun st : ShadowRow ρ ↦ decide (st.hiveBlockNum ≤ b))
    t.shadow
  simpa only [← decide_not, not_le, backFromForkOneTable] using hsplit

structure RegisteredTable.RowidInv (t : RegisteredTable ρ) : Prop where
  nodup : (claimedRowids t.rows t.shadow).Nodup
  below : ∀ i ∈ claimedRowids t.rows t.shadow, i < t.rowidSeq

namespace RegisteredTable.RowidInv

variable {t t' : RegisteredTable ρ}

theorem of_subperm (inv : t.RowidInv)
    (h : (claimedRowids t'.rows t'.shadow).Subperm (claimedRowids t.rows t.shadow))
    (hseq : t'.rowidSeq = t.rowidSeq) : t'.RowidInv where
  nodup := by
    obtain ⟨l, hperm, hsub⟩ := h
    exact hperm.nodup_iff.mp (inv.nodup.sublist hsub)
  below i hi := hseq ▸ inv.below i (h.subset hi)

theorem backFromFork (inv : t.RowidInv) (b : ℕ) : (backFromForkOneTable b t).RowidInv :=
  inv.of_subperm (claimedRowids_backFromFork b t) rfl

theorem removeObsolete (inv : t.RowidInv) (n : ℕ) : (removeObsoleteOperations n t).RowidInv :=
  inv.of_subperm
    ((deletedRowids_sublist List.filter_sublist).append_left _).subperm rfl

variable {blockNum : ℕ}

theorem execute (inv : t.RowidInv) {s : Statement ρ}
    (heffect : (claimedRowids (s.effect t.rows) (s.records blockNum t.rows)).Subperm
      (t.rows.map Row.hiveRowid))
    (hok : t.execute blockNum s = .ok t') : t'.RowidInv := by
  have hrows : ((s.effect t.rows).map Row.hiveRowid).Subperm (t.rows.map Row.hiveRowid) :=
    (List.sublist_append_left _ _).subperm.trans heffect
  rw [RegisteredTable.execute] at hok
  split at hok
  · split at hok
    · cases hok
    · cases hok
      refine inv.of_subperm ?_ rfl
      refine List.Subperm.trans (List.Perm.subperm ?_) (List.Subperm.append heffect
        (List.Subperm.refl (deletedRowids t.shadow)))
      simp only [claimedRowids, deletedRowids_append, List.append_assoc]
      exact List.perm_append_comm.append_left _
  · cases hok
    exact inv.of_subperm (List.Subperm.append hrows (List.Subperm.refl _)) rfl

theorem map_hiveRowid_zipIdx (seq : ℕ) (columns : List ρ) :
    (columns.zipIdx.map (fun c ↦ (⟨seq + c.2, c.1⟩ : Row ρ))).map Row.hiveRowid =
      List.range' seq columns.length := by
  rw [List.map_map, show Row.hiveRowid ∘ (fun c : ρ × ℕ ↦ (⟨seq + c.2, c.1⟩ : Row ρ)) =
    (seq + ·) ∘ Prod.snd from rfl, ← List.map_map, List.zipIdx_map_snd, List.map_add_range',
    Nat.add_zero]

theorem insertColumns (inv : t.RowidInv) {columns : List ρ}
    (hok : t.insertColumns blockNum columns = .ok t') : t'.RowidInv := by
  have hinv : ∀ t' : RegisteredTable ρ, t'.rowidSeq = t.rowidSeq + columns.length →
      (claimedRowids t'.rows t'.shadow).Perm
        (List.range' t.rowidSeq columns.length ++ claimedRowids t.rows t.shadow) →
      t'.RowidInv := by
    intro t' hseq hperm
    refine ⟨hperm.nodup_iff.mpr (List.Nodup.append List.nodup_range' inv.nodup ?_), ?_⟩
    · intro i hi hi'
      have := inv.below i hi'
      have := List.mem_range'_1.mp hi
      omega
    · intro i hi
      rcases List.mem_append.mp (hperm.mem_iff.mp hi) with hi | hi
      · have := List.mem_range'_1.mp hi
        omega
      · have := inv.below i hi
        omega
  rw [RegisteredTable.insertColumns, RegisteredTable.execute] at hok
  have hnew : ∀ records, deletedRowids records = [] →
      (claimedRowids (t.rows ++ columns.zipIdx.map (fun c ↦ (⟨t.rowidSeq + c.2, c.1⟩ : Row ρ)))
        (t.shadow ++ records)).Perm
        (List.range' t.rowidSeq columns.length ++ claimedRowids t.rows t.shadow) := by
    intro records hrecords
    rw [claimedRowids, List.map_append, map_hiveRowid_zipIdx, deletedRowids_append, hrecords,
      List.append_nil, claimedRowids, ← List.append_assoc]
    exact List.perm_append_comm.append_right _
  split at hok
  · split at hok
    · cases hok
    · cases hok
      exact hinv _ rfl (hnew _ (deletedRowids_map_of_ne .insert nofun _ _))
  · cases hok
    refine hinv _ rfl ?_
    simpa [Statement.effect] using hnew [] rfl

theorem columnStatement (inv : t.RowidInv) {s : ColumnStatement ρ} (hs : s.KeepsSequence)
    (hok : s.execute blockNum t = .ok t') : t'.RowidInv := by
  cases s with
  | insert columns => exact inv.insertColumns hok
  | update condition set =>
    refine inv.execute (List.Perm.subperm (List.Perm.of_eq ?_)) hok
    rw [claimedRowids, Statement.records, Statement.transition,
      deletedRowids_map_of_ne .update (by decide), List.append_nil, Statement.effect, List.map_map]
    refine List.map_congr_left fun r _ ↦ ?_
    rw [Function.comp_apply]
    split <;> rfl
  | delete condition =>
    refine inv.execute (List.Perm.subperm ?_) hok
    rw [claimedRowids, Statement.records, Statement.transition, deletedRowids_map_delete,
      Statement.effect, ← List.map_append]
    exact (List.perm_append_comm.trans (List.filter_append_perm condition t.rows)).map _
  | truncate restartIdentity =>
    obtain ⟨t₁, ht₁, hok⟩ := ExceptList.bind_eq_ok.mp hok
    rw [show restartIdentity = false from hs] at hok
    cases hok
    refine inv.execute (List.Perm.subperm (List.Perm.of_eq ?_)) ht₁
    rw [claimedRowids, Statement.records, Statement.transition, deletedRowids_map_delete]
    rfl

theorem attach (inv : t.RowidInv) (isForking : Bool) : (attachTable isForking t).RowidInv := by
  rw [attachTable]
  split
  · exact inv.of_subperm (List.Subperm.refl _) rfl
  · exact inv

theorem detach (inv : t.RowidInv) (hok : detachTable t = .ok t') : t'.RowidInv := by
  rw [detachTable] at hok
  split at hok
  · cases hok
  · cases hok
    exact inv.of_subperm (List.Subperm.refl _) rfl

theorem registered {rows : List (Row ρ)} {triggers : Bool} (hlength : rows.length ≤ 1)
    (hzero : ∀ r ∈ rows, r.hiveRowid = 0) :
    (⟨rows, [], 1, triggers⟩ : RegisteredTable ρ).RowidInv := by
  match rows, hlength with
  | [], _ => exact ⟨List.nodup_nil, by simp [claimedRowids, deletedRowids]⟩
  | [r], _ => exact ⟨by simp [claimedRowids, deletedRowids],
      by simp [claimedRowids, deletedRowids, hzero]⟩

end RegisteredTable.RowidInv

def Context.RowidInv (c : Context ρ) : Prop := ∀ t ∈ c.tables, t.RowidInv

namespace Context.RowidInv

variable {c c' : Context ρ}

variable {h : Hafd}

theorem rewind (inv : c.RowidInv) (b : ℕ) : (contextBackFromFork h b c).RowidInv := by
  rw [contextBackFromFork]
  split
  · rw [Context.backFromForkLite]
    split <;> exact inv
  · rw [Context.backFromFork]
    split
    · exact List.forall_mem_map.mpr fun t ht ↦ (inv t ht).backFromFork b
    · exact inv

theorem setIrreversible (inv : c.RowidInv) {n : ℕ}
    (hok : contextSetIrreversibleBlock n c = .ok c') : c'.RowidInv := by
  obtain ⟨-, rfl⟩ := contextSetIrreversibleBlock_eq_ok hok
  exact List.forall_mem_map.mpr fun t ht ↦ (inv t ht).removeObsolete n

theorem detach (inv : c.RowidInv) (hok : contextDetach h c = .ok c') :
    c'.RowidInv := by
  obtain ⟨tables, htables, hok⟩ := ExceptList.bind_eq_ok.mp hok
  cases hok
  intro t' ht'
  obtain ⟨t, ht, hdetach⟩ := ExceptList.exists_of_mem_mapM htables ht'
  exact ((inv.rewind _ t ht).removeObsolete _).detach hdetach

theorem attach (inv : c.RowidInv) {n : ℕ} (hok : contextAttach n c = .ok c') : c'.RowidInv := by
  obtain ⟨-, rfl⟩ := contextAttach_eq_ok hok
  exact List.forall_mem_map.mpr fun t ht ↦ (inv t ht).attach _

theorem statement (inv : c.RowidInv) {i : ℕ} {s : ColumnStatement ρ} (hs : s.KeepsSequence)
    (hok : (TableAction.statement i s).execute h c = .ok c') : c'.RowidInv := by
  rw [TableAction.execute] at hok
  split at hok
  · cases hok
    exact inv
  · rename_i t ht
    obtain ⟨t', ht', hok⟩ := ExceptList.bind_eq_ok.mp hok
    cases hok
    intro u hu
    rcases List.mem_or_eq_of_mem_set hu with hu | rfl
    · exact inv u hu
    · exact (inv t (List.mem_of_getElem? ht)).columnStatement hs ht'

theorem append (inv : c.RowidInv) {t : RegisteredTable ρ} (ht : t.RowidInv) :
    ({ c with tables := c.tables ++ [t] } : Context ρ).RowidInv :=
  List.forall_mem_append.mpr ⟨inv, fun _ hu ↦ List.mem_singleton.mp hu ▸ ht⟩

theorem step {a : TableAction ρ} (inv : c.RowidInv) (ha : a.Registers) : (a.step h c).RowidInv := by
  rw [TableAction.step]
  split
  · exact inv
  · rename_i c' hok
    cases a with
    | inherit =>
      cases hok
      exact inv.append (.registered (by simp) (by simp))
    | register table =>
      cases hok
      exact inv.append (.registered ha.1 ha.2)
    | unregister i =>
      cases hok
      exact fun t ht ↦ inv t (List.mem_of_mem_eraseIdx ht)
    | statement i s => exact inv.statement ha hok
    | advance n =>
      cases hok
      exact inv
    | setIrreversible n => exact inv.setIrreversible hok
    | rewind b =>
      cases hok
      exact inv.rewind b
    | detach => exact inv.detach hok
    | attach n => exact inv.attach hok

theorem run {actions : List (TableAction ρ)} (inv : c.RowidInv)
    (hactions : ∀ a ∈ actions, a.Registers) : (TableAction.run h c actions).RowidInv := by
  induction actions generalizing c with
  | nil => exact inv
  | cons a actions ih =>
    rw [List.forall_mem_cons] at hactions
    exact ih (inv.step hactions.1) hactions.2

end Context.RowidInv

theorem filter_revert_of_ne (st : ShadowRow ρ) (rows : List (Row ρ)) :
    (revert st rows).filter (fun r ↦ decide (r.hiveRowid ≠ st.row.hiveRowid)) =
      rows.filter (fun r ↦ decide (r.hiveRowid ≠ st.row.hiveRowid)) := by
  obtain ⟨row, blockNum, op⟩ := st
  cases op with
  | insert => simp [revert, revertInsert]
  | delete => simp [revert, revertDelete]
  | update =>
    simp only [revert, revertUpdate]
    induction rows with
    | nil => rfl
    | cons r rows ih =>
      by_cases hr : r.hiveRowid = row.hiveRowid <;> simp_all

theorem length_filter_le_one {rows : List (Row ρ)} (h : (rows.map Row.hiveRowid).Nodup) (i : ℕ) :
    (rows.filter (fun r ↦ decide (r.hiveRowid = i))).length ≤ 1 := by
  have hcount := List.nodup_iff_count_le_one.mp h i
  rwa [List.count, List.countP_map, List.countP_eq_length_filter] at hcount

/-- No two rows of a registered table have the same id. When a rewind comes to a record, at most
one row has its id, and no other row is touched. -/
theorem rowids_identify_rows (h : Hafd) {c : Context ρ} (hc : c.tables = [])
    {actions : List (TableAction ρ)} (hactions : ∀ a ∈ actions, a.Registers)
    {t : RegisteredTable ρ} (ht : t ∈ (TableAction.run h c actions).tables) :
    (t.rows.map Row.hiveRowid).Nodup ∧
      ∀ older st newer, t.shadow = older ++ st :: newer →
        ((newer.foldr revert t.rows).filter
          (fun r ↦ decide (r.hiveRowid = st.row.hiveRowid))).length ≤ 1 ∧
        (revert st (newer.foldr revert t.rows)).filter
            (fun r ↦ decide (r.hiveRowid ≠ st.row.hiveRowid)) =
          (newer.foldr revert t.rows).filter
            (fun r ↦ decide (r.hiveRowid ≠ st.row.hiveRowid)) := by
  have hstart : c.RowidInv := by
    intro t ht
    rw [hc] at ht
    cases ht
  have inv := hstart.run hactions t ht
  refine ⟨inv.nodup.of_append_left, fun older st newer hshadow ↦
    ⟨length_filter_le_one ?_ _, filter_revert_of_ne _ _⟩⟩
  have hsub := claimedRowids_foldr_revert t.rows (older ++ [st]) newer
  rw [List.append_assoc, List.singleton_append, ← hshadow] at hsub
  obtain ⟨l, hperm, hsub⟩ := hsub
  exact (hperm.nodup_iff.mp (inv.nodup.sublist hsub)).of_append_left

def rowidsContext : Context ℕ := (Db.initial ℕ).newContext (.ready 0) "app" true true none

/-- A table with one row is registered next to an inherited one, and both are edited and rewound. -/
def rowidsActions : List (TableAction ℕ) :=
  [.inherit, .register (.columns [7]), .advance 1, .statement 0 (.insert [10, 20]),
    .statement 1 (.insert [8]), .advance 2, .statement 0 (.delete fun r ↦ r.columns == 10),
    .statement 0 (.insert [30]), .rewind 1]

theorem rowidsActions_identify_rows :
    (TableAction.run Hafd.initial rowidsContext rowidsActions).tables.map RegisteredTable.rows =
      [[⟨2, 20⟩, ⟨1, 10⟩], [⟨0, 7⟩, ⟨1, 8⟩]] ∧
    ∀ t ∈ (TableAction.run Hafd.initial rowidsContext rowidsActions).tables,
      (t.rows.map Row.hiveRowid).Nodup :=
  ⟨by decide +kernel, fun _ ht ↦ (rowids_identify_rows Hafd.initial rfl
    (by simp [rowidsActions, TableAction.Registers, PlainTable.addRowid,
      ColumnStatement.KeepsSequence]) ht).1⟩

/-- A table that holds two rows when it is registered: both get `hive_rowid` 0, and taking back the
update of the first row overwrites the second one. A truncation that restarts the sequence: once it
is taken back, the next row gets the id of the first one. -/
theorem rewind_overwrites_other_row :
    (TableAction.run Hafd.initial rowidsContext [.register (.columns [7, 8])]).tables.map
        RegisteredTable.rows = [[⟨0, 7⟩, ⟨0, 8⟩]] ∧
      (TableAction.run Hafd.initial rowidsContext [.register (.columns [7, 8]), .advance 1,
        .statement 0 (.update (fun r ↦ r.columns == 7) (fun _ ↦ 9)), .rewind 0]).tables.map
        RegisteredTable.rows = [[⟨0, 7⟩, ⟨0, 7⟩]] ∧
      (TableAction.run Hafd.initial rowidsContext [.inherit, .advance 1, .statement 0 (.insert [7]),
        .advance 2, .statement 0 (.truncate true), .rewind 1, .advance 2,
        .statement 0 (.insert [8])]).tables.map RegisteredTable.rows = [[⟨1, 7⟩, ⟨1, 8⟩]] := by
  decide +kernel

end HiveForkManager
