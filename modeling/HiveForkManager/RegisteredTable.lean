import HiveForkManager.Lib.UndoLog
import HiveForkManager.Schema

namespace HiveForkManager

open UndoLog

variable {ρ : Type}

inductive TriggerOperation where
  | insert
  | delete
  | update
  deriving DecidableEq, Repr

/-- A row of a registered table: `hive_rowid` and the application's own columns. -/
structure Row (ρ : Type) where
  hiveRowid : ℕ
  columns : ρ
  deriving DecidableEq, Repr

structure ShadowRow (ρ : Type) where
  row : Row ρ
  hiveBlockNum : ℕ
  hiveOperationType : TriggerOperation
  deriving DecidableEq, Repr

/-- A registered table. The shadow table is kept in the order of `hive_operation_id`. -/
structure RegisteredTable (ρ : Type) where
  rows : List (Row ρ)
  shadow : List (ShadowRow ρ)
  rowidSeq : ℕ
  hasTriggers : Bool
  deriving DecidableEq, Repr

def revertInsert (rowId : ℕ) (rows : List (Row ρ)) : List (Row ρ) :=
  rows.filter (fun t ↦ t.hiveRowid ≠ rowId)

def revertDelete (st : ShadowRow ρ) (rows : List (Row ρ)) : List (Row ρ) :=
  rows ++ [st.row]

def revertUpdate (st : ShadowRow ρ) (rowId : ℕ) (rows : List (Row ρ)) : List (Row ρ) :=
  rows.map (fun t ↦ if t.hiveRowid = rowId then st.row else t)

def revert (st : ShadowRow ρ) (rows : List (Row ρ)) : List (Row ρ) :=
  match st.hiveOperationType with
  | .insert => revertInsert st.row.hiveRowid rows
  | .delete => revertDelete st rows
  | .update => revertUpdate st st.row.hiveRowid rows

theorem revert_perm (st : ShadowRow ρ) (rows rows' : List (Row ρ)) (h : rows.Perm rows') :
    (revert st rows).Perm (revert st rows') := by
  cases hop : st.hiveOperationType with
  | insert => simpa only [revert, hop, revertInsert] using h.filter _
  | delete => simpa only [revert, hop, revertDelete] using h.append_right _
  | update => simpa only [revert, hop, revertUpdate] using h.map _

def backFromForkOneTable (blockNumBeforeFork : ℕ) (t : RegisteredTable ρ) : RegisteredTable ρ :=
  { t with
    rows := undoAbove ShadowRow.hiveBlockNum revert blockNumBeforeFork t.shadow t.rows
    shadow := t.shadow.filter (fun st ↦ decide (st.hiveBlockNum ≤ blockNumBeforeFork)) }

/-- `hive.remove_obsolete_operations`; giving the file space back changes no row. -/
def removeObsoleteOperations (irreversibleBlock : ℕ) (t : RegisteredTable ρ) : RegisteredTable ρ :=
  { t with shadow := t.shadow.filter (fun st ↦ decide (irreversibleBlock < st.hiveBlockNum)) }

inductive Statement (ρ : Type) where
  | insert (newTable : List (Row ρ))
  | update (condition : Row ρ → Bool) (set : Row ρ → Row ρ)
  | delete (condition : Row ρ → Bool)
  | truncate

namespace Statement

def effect (rows : List (Row ρ)) : Statement ρ → List (Row ρ)
  | insert newTable => rows ++ newTable
  | update condition set => rows.map (fun t ↦ if condition t then set t else t)
  | delete condition => rows.filter (fun t ↦ !condition t)
  | truncate => []

def transition (rows : List (Row ρ)) : Statement ρ → TriggerOperation × List (Row ρ)
  | insert newTable => (.insert, newTable)
  | update condition _ => (.update, rows.filter condition)
  | delete condition => (.delete, rows.filter condition)
  | truncate => (.delete, rows)

def records (blockNum : ℕ) (rows : List (Row ρ)) (s : Statement ρ) : List (ShadowRow ρ) :=
  (s.transition rows).2.map (fun t ↦ ⟨t, blockNum, (s.transition rows).1⟩)

theorem hiveBlockNum_of_mem_records {blockNum : ℕ} {rows : List (Row ρ)} {s : Statement ρ}
    {st : ShadowRow ρ} (h : st ∈ s.records blockNum rows) : st.hiveBlockNum = blockNum := by
  obtain ⟨t, -, rfl⟩ := List.mem_map.mp h
  rfl

end Statement

/-- Runs a statement while the context is at block `blockNum`. The triggers record it. -/
def RegisteredTable.execute (blockNum : ℕ) (s : Statement ρ) (t : RegisteredTable ρ) :
    Except Error (RegisteredTable ρ) :=
  if t.hasTriggers then
    if blockNum ≤ 0 then
      .error (.raiseException "Did not execute hive.context_next_block before table edition")
    else
      .ok { t with
        rows := s.effect t.rows
        shadow := t.shadow ++ s.records blockNum t.rows }
  else
    .ok { t with rows := s.effect t.rows }

/-- An `INSERT` that leaves `hive_rowid` to the sequence of the table. -/
def RegisteredTable.insertColumns (blockNum : ℕ) (columns : List ρ) (t : RegisteredTable ρ) :
    Except Error (RegisteredTable ρ) :=
  let newTable := columns.zipIdx.map (fun c ↦ ⟨t.rowidSeq + c.2, c.1⟩)
  { t with rowidSeq := t.rowidSeq + columns.length }.execute blockNum (.insert newTable)

section Undo

variable {blockNum : ℕ} {rows : List (Row ρ)}

theorem foldr_revertInsert (newTable rows : List (Row ρ)) :
    (newTable.map (fun t ↦ (⟨t, blockNum, .insert⟩ : ShadowRow ρ))).foldr revert rows =
      rows.filter (fun t ↦ t.hiveRowid ∉ newTable.map Row.hiveRowid) := by
  induction newTable with
  | nil => simp
  | cons n newTable ih =>
    rw [List.map_cons, List.foldr_cons, ih]
    simp only [revert, revertInsert, List.filter_filter, List.map_cons, List.mem_cons]
    apply List.filter_congr
    intro t _
    by_cases hn : t.hiveRowid = n.hiveRowid <;> simp [hn]

theorem foldr_revertDelete (old rows : List (Row ρ)) :
    ((old.map (fun t ↦ (⟨t, blockNum, .delete⟩ : ShadowRow ρ))).foldr revert rows).Perm
      (old ++ rows) := by
  induction old with
  | nil => exact .refl _
  | cons o old ih =>
    rw [List.map_cons, List.foldr_cons]
    exact List.perm_append_comm.trans (ih.cons o)

theorem foldr_revertUpdate (old rows : List (Row ρ)) :
    (old.map (fun t ↦ (⟨t, blockNum, .update⟩ : ShadowRow ρ))).foldr revert rows =
      rows.map (fun t ↦ (old.find? (fun o ↦ o.hiveRowid = t.hiveRowid)).getD t) := by
  induction old with
  | nil => simp
  | cons o old ih =>
    rw [List.map_cons, List.foldr_cons, ih]
    simp only [revert, revertUpdate, List.map_map]
    apply List.map_congr_left
    intro t _
    have hid : ((old.find? (fun o ↦ decide (o.hiveRowid = t.hiveRowid))).getD t).hiveRowid =
        t.hiveRowid := by
      cases hf : old.find? (fun o ↦ decide (o.hiveRowid = t.hiveRowid)) with
      | none => rfl
      | some o' => simpa using List.find?_some hf
    by_cases ho : o.hiveRowid = t.hiveRowid
    · simp [hid, ho]
    · simp [hid, ho, Ne.symm ho]

/-- What an application must respect for its statements to be taken back: new rows bring new ids,
and an update keeps the ids of the rows. -/
def Statement.KeepsRowids (rows : List (Row ρ)) : Statement ρ → Prop
  | .insert newTable => ∀ n ∈ newTable, n.hiveRowid ∉ rows.map Row.hiveRowid
  | .update condition set => ∀ t ∈ rows, condition t → (set t).hiveRowid = t.hiveRowid
  | .delete _ => True
  | .truncate => True

def Statement.UpdateKeepsRowids (rows : List (Row ρ)) : Statement ρ → Prop
  | .update condition set => ∀ t ∈ rows, condition t → (set t).hiveRowid = t.hiveRowid
  | _ => True

theorem Statement.keepsRowids_of_nodup {s : Statement ρ}
    (hnodup : ((s.effect rows).map Row.hiveRowid).Nodup) (hs : s.UpdateKeepsRowids rows) :
    s.KeepsRowids rows := by
  cases s with
  | insert newTable =>
    intro n hn hmem
    rw [effect, List.map_append, List.nodup_append] at hnodup
    exact hnodup.2.2 _ hmem _ (List.mem_map_of_mem hn) rfl
  | update condition set => exact hs
  | delete condition => trivial
  | truncate => trivial

theorem Statement.undo_records (s : Statement ρ) (hrows : (rows.map Row.hiveRowid).Nodup)
    (hs : s.KeepsRowids rows) :
    ((s.records blockNum rows).foldr revert (s.effect rows)).Perm rows := by
  cases s with
  | insert newTable =>
    apply List.Perm.of_eq
    simp only [records, transition, effect, foldr_revertInsert]
    rw [List.filter_append]
    have hnew : newTable.filter (fun t ↦ t.hiveRowid ∉ newTable.map Row.hiveRowid) = [] := by
      simp only [List.filter_eq_nil_iff, decide_eq_true_eq, not_not]
      exact fun n hn ↦ List.mem_map_of_mem hn
    have hold : rows.filter (fun t ↦ t.hiveRowid ∉ newTable.map Row.hiveRowid) = rows := by
      simp only [List.filter_eq_self, decide_eq_true_eq]
      intro t ht hmem
      obtain ⟨n, hn, hid⟩ := List.mem_map.mp hmem
      exact hs n hn (hid ▸ List.mem_map_of_mem ht)
    rw [hnew, hold, List.append_nil]
  | update condition set =>
    apply List.Perm.of_eq
    simp only [records, transition, effect, foldr_revertUpdate, List.map_map]
    conv_rhs => rw [← List.map_id rows]
    apply List.map_congr_left
    intro t ht
    by_cases hc : condition t
    · -- the only recorded row with the id of the updated row is its old version
      have hfind : (rows.filter condition).find? (fun o ↦ decide (o.hiveRowid = t.hiveRowid)) =
          some t := by
        have hex : ∃ o, (rows.filter condition).find?
            (fun o ↦ decide (o.hiveRowid = t.hiveRowid)) = some o := by
          rw [← Option.isSome_iff_exists, List.find?_isSome]
          exact ⟨t, List.mem_filter.mpr ⟨ht, hc⟩, by simp⟩
        obtain ⟨o, ho⟩ := hex
        have hmem := List.mem_of_mem_filter (List.mem_of_find?_eq_some ho)
        have hid : o.hiveRowid = t.hiveRowid := by simpa using List.find?_some ho
        rw [ho, List.inj_on_of_nodup_map hrows hmem ht hid]
      simp only [Function.comp_apply, hc, if_true, hs t ht hc, hfind, Option.getD_some, id]
    · have hnone : (rows.filter condition).find? (fun o ↦ decide (o.hiveRowid = t.hiveRowid)) =
          none := by
        rw [List.find?_eq_none]
        intro o ho
        obtain ⟨hmem, hco⟩ := List.mem_filter.mp ho
        simp only [decide_eq_true_eq]
        intro hid
        exact hc (List.inj_on_of_nodup_map hrows hmem ht hid ▸ hco)
      simp only [Function.comp_apply, hc, Bool.false_eq_true, if_false, hnone, Option.getD_none, id]
  | delete condition =>
    refine (foldr_revertDelete _ _).trans ?_
    exact List.filter_append_perm condition rows
  | truncate =>
    refine (foldr_revertDelete _ _).trans ?_
    simp only [effect, transition, List.append_nil, List.Perm.refl]

end Undo

end HiveForkManager
