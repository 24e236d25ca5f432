import HiveForkManager.Lib.ExceptList
import HiveForkManager.Schema

namespace HiveForkManager

inductive IndexStatus where
  | missing
  | creating
  | created
  deriving DecidableEq, Repr

inductive MassiveSyncClass where
  | keep
  | defer
  deriving DecidableEq, Repr

/-- The text that creates an object, and whether it says `IF NOT EXISTS`. -/
structure IndexCommand where
  text : String
  ifNotExists : Bool
  deriving DecidableEq, Repr

/-- An index with its table as `pg_indexes` shows it; the one of a primary key or unique constraint
has the name of the constraint. -/
structure PgIndex where
  tableName : String
  name : String
  isConstraint : Bool
  definition : String
  valid : Bool
  deriving DecidableEq, Repr

/-- A row of `hafd.indexes_constraints`. -/
structure IndexRow where
  tableName : String
  name : String
  command : IndexCommand
  isConstraint : Bool
  isIndex : Bool
  contexts : List ℕ
  status : IndexStatus
  massiveSyncClass : Option MassiveSyncClass
  deriving DecidableEq, Repr

/-- The unique key of `hafd.indexes_constraints`. -/
def IndexRow.key (r : IndexRow) : String × String := (r.tableName, r.name)

def PgIndex.key (p : PgIndex) : String × String := (p.tableName, p.name)

structure IndexState where
  /-- Names and ids of `hafd.contexts`. -/
  contexts : List (String × ℕ)
  rows : List IndexRow
  pg : List PgIndex
  deriving DecidableEq, Repr

def irreversibleTables : List String :=
  ["hafd.blocks", "hafd.transactions", "hafd.transactions_multisig", "hafd.operations",
    "hafd.applied_hardforks", "hafd.accounts", "hafd.account_operations"]

def isOpTypesIndex (name : String) : Bool :=
  let front := "hive_operations_op_types_".toList
  let back := "_idx".toList
  let middle := (name.toList.drop front.length).take
    (name.toList.length - front.length - back.length)
  front.isPrefixOf name.toList && back.isSuffixOf name.toList &&
    decide (middle ≠ []) && middle.all (fun c ↦ c.isDigit || c = '_')

def defaultMassiveSyncIndexClass (tableName name : String) : Option MassiveSyncClass :=
  if tableName ∉ irreversibleTables then none
  else if (tableName, name) ∈
      [("hafd.blocks", "pk_hive_blocks"), ("hafd.blocks", "hive_blocks_created_at_idx"),
        ("hafd.transactions", "hive_transactions_block_num_trx_in_block_idx"),
        ("hafd.operations", "pk_hive_operations"),
        ("hafd.operations", "hive_operations_block_num_id_idx"),
        ("hafd.operations", "hive_operations_block_num_trx_in_block_idx"),
        ("hafd.applied_hardforks", "pk_hive_applied_hardforks"),
        ("hafd.applied_hardforks", "hive_applied_hardforks_block_num_idx"),
        ("hafd.accounts", "pk_hive_accounts_id"), ("hafd.accounts", "uq_hive_accounst_name"),
        ("hafd.accounts", "hive_accounts_block_num_idx")] then some .keep
  else if tableName = "hafd.operations" && isOpTypesIndex name then some .keep
  else some .defer

def massiveSyncIndexStatus (massiveSyncClass : Option MassiveSyncClass) (keepMonotonic : Bool) :
    IndexStatus :=
  if keepMonotonic && massiveSyncClass = some .keep then .created else .missing

def PgIndex.toRow (keepMonotonic : Bool) (p : PgIndex) : IndexRow where
  tableName := p.tableName
  name := p.name
  command := ⟨p.definition, false⟩
  isConstraint := p.isConstraint
  isIndex := !p.isConstraint
  contexts := [0]
  status := massiveSyncIndexStatus (defaultMassiveSyncIndexClass p.tableName p.name) keepMonotonic
  massiveSyncClass := defaultMassiveSyncIndexClass p.tableName p.name

def PgIndex.toIndexRow (keepMonotonic : Bool) (p : PgIndex) : IndexRow :=
  { p.toRow keepMonotonic with isConstraint := false, isIndex := true }

/-- `ON CONFLICT … DO UPDATE` of a row that is already there. -/
def IndexRow.saved (keepMonotonic : Bool) (r : IndexRow) : IndexRow :=
  let massiveSyncClass := r.massiveSyncClass <|> defaultMassiveSyncIndexClass r.tableName r.name
  { r with massiveSyncClass, status := massiveSyncIndexStatus massiveSyncClass keepMonotonic }

/-- `INSERT … ON CONFLICT ( index_constraint_name, table_name ) DO UPDATE`. -/
def upsertSaved (keepMonotonic : Bool) (proposals : List IndexRow) (rows : List IndexRow) :
    Except Error (List IndexRow) :=
  if (proposals.map IndexRow.key).Nodup then
    .ok (rows.map (fun r ↦
        if r.key ∈ proposals.map IndexRow.key then r.saved keepMonotonic else r) ++
      proposals.filter (fun r ↦ decide (r.key ∉ rows.map IndexRow.key)))
  else
    .error (.raiseException "ON CONFLICT DO UPDATE command cannot affect row a second time")

/-- `DROP INDEX IF EXISTS` for names of the schema. -/
def dropIndexes (names : List String) (pg : List PgIndex) : Except Error (List PgIndex) :=
  match pg.find? (fun p ↦ decide (p.name ∈ names) && p.isConstraint) with
  | some p => .error (.raiseException
      ("cannot drop index " ++ p.name ++ " because constraint " ++ p.name ++ " requires it"))
  | none => .ok (pg.filter (fun p ↦ decide (p.name ∉ names)))

def dropConstraints (tableName : String) (names : List String) (pg : List PgIndex) :
    List PgIndex :=
  pg.filter (fun p ↦ !(decide (p.tableName = tableName) && p.isConstraint &&
    decide (p.name ∈ names)))

namespace IndexState

def pgOf (tableName : String) (s : IndexState) : List PgIndex :=
  s.pg.filter (fun p ↦ decide (p.tableName = tableName))

/-- `hive.save_and_drop_constraints` without its part on foreign keys, then the indexes of the table.
These are joined with the rows of the same name, whatever table the rows are for. -/
def saveRows (tableName : String) (keepMonotonic : Bool) (s : IndexState) :
    Except Error (List IndexRow) := do
  let rows ← upsertSaved keepMonotonic
    (((s.pgOf tableName).filter PgIndex.isConstraint).map (PgIndex.toRow keepMonotonic)) s.rows
  upsertSaved keepMonotonic
    ((s.pgOf tableName).flatMap fun p ↦
      List.replicate (max 1 (rows.countP (fun r ↦ decide (r.name = p.name))))
        (p.toIndexRow keepMonotonic)) rows

def missingNames (tableName : String) (which : IndexRow → Bool) (rows : List IndexRow) :
    List String :=
  (rows.filter (fun r ↦ decide (r.tableName = tableName ∧ r.status = .missing) && which r)).map
    IndexRow.name

def saveAndDropIndexesConstraints (tableName : String) (keepMonotonic : Bool) (s : IndexState) :
    Except Error IndexState := do
  let rows ← s.saveRows tableName keepMonotonic
  let pg ← dropIndexes (missingNames tableName IndexRow.isIndex rows) s.pg
  pure { s with
    rows
    pg := dropConstraints tableName (missingNames tableName IndexRow.isConstraint rows) pg }

/-- `hive.disable_indexes_of_irreversible` of a database without pruning. -/
def disableIndexesOfIrreversible (keepMonotonic : Bool) (s : IndexState) :
    Except Error IndexState :=
  irreversibleTables.foldlM (fun s t ↦ s.saveAndDropIndexesConstraints t keepMonotonic) s

def setStatus (status : IndexStatus) (which : IndexRow → Bool) (s : IndexState) : IndexState :=
  { s with rows := s.rows.map fun r ↦ if which r then { r with status } else r }

def restoreRow (r : IndexRow) (s : IndexState) : Except Error IndexState :=
  let mark := setStatus .created (fun r' ↦ r'.command = r.command)
  if s.pg.any (fun p ↦ decide (p.name = r.name)) then
    if r.command.ifNotExists then .ok (mark s)
    else .error (.raiseException ("relation " ++ r.name ++ " already exists"))
  else
    .ok (mark { s with pg := s.pg ++ [⟨r.tableName, r.name, r.isConstraint, r.command.text, true⟩] })

def missingRows (tableName : String) (s : IndexState) : List IndexRow :=
  s.rows.filter (fun r ↦ decide (r.tableName = tableName ∧ r.status = .missing))

/-- `hive.recluster_account_operations_if_index_dropped`, for this table only. -/
def recluster (tableName : String) (s : IndexState) : Except Error IndexState :=
  if tableName ≠ "hafd.account_operations" then .ok s
  else match (s.missingRows "hafd.account_operations").find?
      (fun r ↦ decide (r.name = "hive_account_operations_uq1")) with
  | none => .ok s
  | some r => s.restoreRow r

/-- Builds that were interrupted: their indexes are dropped and they are missing again. -/
def resetCreating (tableName : String) (s : IndexState) : Except Error IndexState := do
  let stuck := s.rows.filter (fun r ↦ decide (r.tableName = tableName ∧ r.status = .creating))
  let pg ← dropIndexes (stuck.map IndexRow.name) s.pg
  pure { s.setStatus .missing (fun r ↦ decide (r.tableName = tableName ∧ r.status = .creating)) with
    pg }

def restoreIndexes (tableName : String) (s : IndexState) : Except Error IndexState := do
  let s ← s.recluster tableName
  let s ← s.resetCreating tableName
  (s.missingRows tableName).foldlM (fun s r ↦ s.restoreRow r) s

def restoredTables : List String := irreversibleTables ++ ["hafd.hive_state"]

def enableIndexesOfIrreversible (s : IndexState) : Except Error IndexState :=
  restoredTables.foldlM (fun s t ↦ s.restoreIndexes t) s

/-- What `hive.parse_create_index_command` finds in a command. -/
structure CreateIndex where
  indexName : String
  tableName : String
  command : IndexCommand
  deriving DecidableEq, Repr

def contextId (contextName : String) (s : IndexState) : Except Error ℕ :=
  match s.contexts.find? (fun c ↦ decide (c.1 = contextName)) with
  | none => .error (.raiseException
      ("Context " ++ contextName ++ " not found in hafd.contexts"))
  | some c => .ok c.2

/-- `hive.register_index_dependency`; a command that cannot be parsed is not found. -/
def registerIndexDependency (contextName commandText : String) (parsed : Option CreateIndex)
    (s : IndexState) : Except Error IndexState := do
  let id ← s.contextId contextName
  match parsed with
  | none => .error (.raiseException ("Invalid CREATE INDEX command: " ++ commandText))
  | some c =>
    if (c.tableName, c.indexName) ∈ s.rows.map IndexRow.key then
      pure { s with rows := s.rows.map fun r ↦
        if r.key = (c.tableName, c.indexName) ∧ id ∉ r.contexts then
          { r with contexts := r.contexts ++ [id] } else r }
    else
      pure { s with rows := s.rows ++ [{
        tableName := c.tableName
        name := c.indexName
        command := c.command
        isConstraint := false
        isIndex := true
        contexts := [id]
        status := if s.pg.any (fun p ↦ decide (p.name = c.indexName)) then .created else .missing
        massiveSyncClass := none }] }

def removeIndexDependency (id : ℕ) (tableName name : String) (s : IndexState) :
    Except Error IndexState := do
  let rows := s.rows.map fun r ↦
    if r.key = (tableName, name) then { r with contexts := r.contexts.filter (· ≠ id) } else r
  match rows.find? (fun r ↦ decide (r.key = (tableName, name))) with
  | none => pure { s with rows }
  | some r =>
    if r.contexts ≠ [] then pure { s with rows }
    else
      let pg ← dropIndexes [name] s.pg
      pure { s with rows := rows.filter (fun r ↦ decide (r.key ≠ (tableName, name))), pg }

def removeIndexDependencies (contextName : String) (s : IndexState) : Except Error IndexState := do
  let id ← s.contextId contextName
  (s.rows.filter (fun r ↦ decide (id ∈ r.contexts))).foldlM
    (fun s r ↦ s.removeIndexDependency id r.tableName r.name) s

end IndexState

section Lemmas

variable {keepMonotonic : Bool} {proposals rows rows' : List IndexRow} {names : List String}
  {pg pg' : List PgIndex} {s s' : IndexState}

@[simp] theorem PgIndex.key_toRow (p : PgIndex) : (p.toRow keepMonotonic).key = p.key := rfl

@[simp] theorem IndexRow.key_saved (r : IndexRow) : (r.saved keepMonotonic).key = r.key := rfl

theorem upsertSaved_eq (h : upsertSaved keepMonotonic proposals rows = .ok rows') :
    (proposals.map IndexRow.key).Nodup ∧
      rows' = rows.map (fun r ↦
          if r.key ∈ proposals.map IndexRow.key then r.saved keepMonotonic else r) ++
        proposals.filter (fun r ↦ decide (r.key ∉ rows.map IndexRow.key)) := by
  rw [upsertSaved] at h
  split at h
  · cases h
    exact ⟨‹_›, rfl⟩
  · cases h

theorem map_key_saved (rows : List IndexRow) (P : IndexRow → Prop) [DecidablePred P] :
    (rows.map (fun r ↦ if P r then r.saved keepMonotonic else r)).map IndexRow.key =
      rows.map IndexRow.key := by
  rw [List.map_map]
  refine List.map_congr_left fun r _ ↦ ?_
  rw [Function.comp_apply]
  split <;> rfl

theorem nodup_upsertSaved (h : upsertSaved keepMonotonic proposals rows = .ok rows')
    (hrows : (rows.map IndexRow.key).Nodup) : (rows'.map IndexRow.key).Nodup := by
  obtain ⟨hproposals, rfl⟩ := upsertSaved_eq h
  rw [List.map_append, map_key_saved]
  refine List.Nodup.append hrows (hproposals.sublist (List.filter_sublist.map _)) ?_
  intro k hk hk'
  obtain ⟨r, hr, rfl⟩ := List.mem_map.mp hk'
  exact absurd hk (by simpa using (List.mem_filter.mp hr).2)

theorem dropIndexes_eq (h : dropIndexes names pg = .ok pg') :
    pg' = pg.filter (fun p ↦ decide (p.name ∉ names)) := by
  rw [dropIndexes] at h
  split at h
  · cases h
  · cases h
    rfl

namespace IndexState

theorem map_key_setStatus (status : IndexStatus) (which : IndexRow → Bool) (s : IndexState) :
    (s.setStatus status which).rows.map IndexRow.key = s.rows.map IndexRow.key := by
  rw [setStatus, List.map_map]
  refine List.map_congr_left fun r _ ↦ ?_
  rw [Function.comp_apply]
  split <;> rfl

theorem restoreRow_cases {r : IndexRow} (h : s.restoreRow r = .ok s') :
    s'.rows = (s.setStatus .created (fun r' ↦ r'.command = r.command)).rows ∧
      s'.contexts = s.contexts ∧
      ((r.command.ifNotExists = true ∧ (∃ p ∈ s.pg, p.name = r.name) ∧ s'.pg = s.pg) ∨
        (∀ p ∈ s.pg, p.name ≠ r.name) ∧
          s'.pg = s.pg ++ [⟨r.tableName, r.name, r.isConstraint, r.command.text, true⟩]) := by
  simp only [restoreRow] at h
  split at h
  · rename_i hany
    split at h
    · cases h
      refine ⟨rfl, rfl, Or.inl ⟨‹_›, by simpa using hany, rfl⟩⟩
    · cases h
  · rename_i hany
    cases h
    exact ⟨rfl, rfl, Or.inr ⟨by simpa using hany, rfl⟩⟩

theorem resetCreating_eq {tableName : String} (h : s.resetCreating tableName = .ok s') :
    s' = { s.setStatus .missing
        (fun r ↦ decide (r.tableName = tableName ∧ r.status = .creating)) with
      pg := s.pg.filter (fun p ↦ decide (p.name ∉ (s.rows.filter
        (fun r ↦ decide (r.tableName = tableName ∧ r.status = .creating))).map IndexRow.name)) } := by
  obtain ⟨pg, hpg, h⟩ := ExceptList.bind_eq_ok.mp h
  cases h
  rw [dropIndexes_eq hpg]

end IndexState

end Lemmas

end HiveForkManager
