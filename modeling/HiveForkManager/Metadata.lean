import HiveForkManager.Lib.LastValue
import HiveForkManager.ViewAgreement

namespace HiveForkManager.MetadataProvider

open LastValue

/-- `hive.metadata_record_type`. -/
structure MetadataRecord where
  accountName : String
  jsonMetadata : String
  postingJsonMetadata : String
  deriving DecidableEq, Repr

structure MetadataRow where
  jsonMetadata : String
  postingJsonMetadata : String
  deriving DecidableEq, Repr

/-- The table, by its primary key `account_id`. -/
abbrev MetadataTable := ℤ → Option MetadataRow

end MetadataProvider

open MetadataProvider in
/-- What the update function reads: the operations of the context's view in the order of their ids,
the other tables with their keys, and the extraction function, which names an account at most once
for an operation. -/
structure MetadataProvider where
  operations : List Operation
  types : List OperationType
  accounts : List (ℤ × String)
  appliedHardforks : List AppliedHardfork
  getMetadata : Operation → Bool → List MetadataRecord
  operations_sorted : operations.Pairwise fun o o' ↦ o.id < o'.id
  accountIds : (accounts.map Prod.fst).Nodup
  records_nodup : ∀ o isHf21, ((getMetadata o isHf21).map MetadataRecord.accountName).Nodup

namespace MetadataProvider

open LastValue

variable (p : MetadataProvider)

def metadataOperations : List String :=
  ["hive::protocol::account_create_operation", "hive::protocol::account_update_operation",
    "hive::protocol::create_claimed_account_operation",
    "hive::protocol::account_create_with_delegation_operation",
    "hive::protocol::account_update2_operation"]

/-- `SELECT block_num FROM hafd.applied_hardforks WHERE hardfork_num = 21`. -/
def hardforkBlock : Option ℕ :=
  (p.appliedHardforks.find? fun x ↦ decide (x.hardforkNum = 21)).map AppliedHardfork.blockNum

def isMetadataOperation (o : Operation) : Bool :=
  (p.types.filter fun ot ↦ decide (ot.name ∈ metadataOperations)).any
    fun ot ↦ decide (ot.id = o.opTypeId)

def selectMetadata (blockFrom blockTo : ℕ) : List Operation :=
  p.operations.filter fun o ↦ p.isMetadataOperation o &&
    decide (blockFrom ≤ operationIdToBlockNum o.id ∧ operationIdToBlockNum o.id ≤ blockTo)

def isAfterHardfork (o : Operation) : Bool :=
  p.hardforkBlock.any fun n ↦ decide (n < operationIdToBlockNum o.id)

/-- `__state`: where the range lies to the block of the hardfork. -/
def hardforkState (blockFrom blockTo : ℕ) : ℤ :=
  if p.hardforkBlock.any fun n ↦ decide (n < blockFrom) then 1
  else if p.hardforkBlock.any fun n ↦ decide (blockTo ≤ n) then -1
  else 0

def isHf21 (state : ℤ) (o : Operation) : Bool :=
  if state = 1 then true else if state = 0 then p.isAfterHardfork o else false

/-- `calculated_metadata`, with the ids of the operations. -/
def calculatedMetadata (blockFrom blockTo : ℕ) : List (MetadataRecord × ℕ) :=
  (p.selectMetadata blockFrom blockTo).flatMap fun sm ↦
    (p.getMetadata sm (p.isHf21 (p.hardforkState blockFrom blockTo) sm)).map (·, sm.id)

def prepareAccounts (metadata : List (MetadataRecord × ℕ)) : List String :=
  (metadata.map fun m ↦ m.1.accountName).dedup

/-- `SELECT DISTINCT ON ( account_name ) … WHERE column != '' ORDER BY account_name, id DESC`, for
one account. -/
def selectNewest (column : MetadataRecord → String) (metadata : List (MetadataRecord × ℕ))
    (accountName : String) : Option String :=
  ((metadata.filter fun m ↦ decide (m.1.accountName = accountName ∧ column m.1 ≠ "")).argmax
    Prod.snd).map fun m ↦ column m.1

def newRows (metadata : List (MetadataRecord × ℕ)) : List (ℤ × MetadataRow) :=
  (prepareAccounts metadata).flatMap fun name ↦
    (p.accounts.filter fun av ↦ decide (av.2 = name)).map fun av ↦
      (av.1, ⟨(selectNewest MetadataRecord.jsonMetadata metadata name).getD "",
        (selectNewest MetadataRecord.postingJsonMetadata metadata name).getD ""⟩)

def onConflict (old : Option MetadataRow) (excluded : MetadataRow) : MetadataRow :=
  match old with
  | none => excluded
  | some old =>
    ⟨if excluded.jsonMetadata = "" then old.jsonMetadata else excluded.jsonMetadata,
      if excluded.postingJsonMetadata = "" then old.postingJsonMetadata
        else excluded.postingJsonMetadata⟩

def insertRow (table : MetadataTable) (row : ℤ × MetadataRow) : MetadataTable := fun id ↦
  if id = row.1 then some (onConflict (table id) row.2) else table id

/-- The update function of the provider, which `hive.update_state_provider_metadata` calls. -/
def updateMetadata (blockFrom blockTo : ℕ) (table : MetadataTable) : MetadataTable :=
  (p.newRows (p.calculatedMetadata blockFrom blockTo)).foldl insertRow table

section OneByOne

def replaceValue (old new : String) : String := overwrite (fun v ↦ decide (v = "")) old new

def replaceRow (old : Option MetadataRow) (r : MetadataRecord) : Option MetadataRow :=
  some ⟨replaceValue ((old.map MetadataRow.jsonMetadata).getD "") r.jsonMetadata,
    replaceValue ((old.map MetadataRow.postingJsonMetadata).getD "") r.postingJsonMetadata⟩

def applyRecord (table : MetadataTable) (r : MetadataRecord) : MetadataTable := fun id ↦
  if (id, r.accountName) ∈ p.accounts then replaceRow (table id) r else table id

def applyOperation (table : MetadataTable) (o : Operation) : MetadataTable :=
  (p.getMetadata o (p.isAfterHardfork o)).foldl p.applyRecord table

def applyOneByOne (blockFrom blockTo : ℕ) (table : MetadataTable) : MetadataTable :=
  (p.selectMetadata blockFrom blockTo).foldl p.applyOperation table

def records (blockFrom blockTo : ℕ) : List MetadataRecord :=
  (p.selectMetadata blockFrom blockTo).flatMap fun o ↦ p.getMetadata o (p.isAfterHardfork o)

variable {p} {blockFrom blockTo : ℕ} {table : MetadataTable} {id : ℤ} {name : String}

theorem applyOneByOne_eq :
    p.applyOneByOne blockFrom blockTo table =
      (p.records blockFrom blockTo).foldl p.applyRecord table :=
  (List.foldl_flatMap ..).symm

theorem foldl_applyRecord_of_mem (hmem : (id, name) ∈ p.accounts) (rs : List MetadataRecord) :
    rs.foldl p.applyRecord table id =
      (rs.filter fun r ↦ decide (r.accountName = name)).foldl replaceRow (table id) := by
  have hname : ∀ n, (id, n) ∈ p.accounts ↔ n = name := fun n ↦
    ⟨fun h ↦ congrArg Prod.snd (List.inj_on_of_nodup_map p.accountIds h hmem rfl), fun h ↦ h ▸ hmem⟩
  induction rs generalizing table with
  | nil => rfl
  | cons r rs ih =>
    rw [List.foldl_cons, ih, List.filter_cons, applyRecord]
    by_cases hr : r.accountName = name
    · rw [if_pos ((hname _).mpr hr), if_pos (decide_eq_true hr), List.foldl_cons]
    · rw [if_neg (mt (hname _).mp hr), if_neg (by simpa using hr)]

theorem foldl_applyRecord_of_not_mem (hnone : ∀ n, (id, n) ∉ p.accounts)
    (rs : List MetadataRecord) : rs.foldl p.applyRecord table id = table id := by
  induction rs generalizing table with
  | nil => rfl
  | cons r rs ih => rw [List.foldl_cons, ih, applyRecord, if_neg (hnone _)]

theorem foldl_replaceRow (old : Option MetadataRow) {rs : List MetadataRecord} (hrs : rs ≠ []) :
    rs.foldl replaceRow old =
      some ⟨(rs.map MetadataRecord.jsonMetadata).foldl replaceValue
          ((old.map MetadataRow.jsonMetadata).getD ""),
        (rs.map MetadataRecord.postingJsonMetadata).foldl replaceValue
          ((old.map MetadataRow.postingJsonMetadata).getD "")⟩ := by
  induction rs generalizing old with
  | nil => exact absurd rfl hrs
  | cons r rs ih =>
    cases rs with
    | nil => rfl
    | cons r' rs => exact (List.foldl_cons ..).trans (ih _ (List.cons_ne_nil r' rs))

end OneByOne

section Query

variable {p} {blockFrom blockTo : ℕ} {table : MetadataTable} {id : ℤ} {name : String}

theorem isHf21_eq {o : Operation} (ho : o ∈ p.selectMetadata blockFrom blockTo) :
    p.isHf21 (p.hardforkState blockFrom blockTo) o = p.isAfterHardfork o := by
  obtain ⟨hfrom, hto⟩ := of_decide_eq_true (Bool.and_eq_true_iff.mp (List.mem_filter.mp ho).2).2
  rw [isHf21, hardforkState, isAfterHardfork]
  cases p.hardforkBlock with
  | none => rfl
  | some n =>
    simp only [Option.any_some, decide_eq_true_eq]
    split
    case isTrue hn => simpa using (by omega : n < operationIdToBlockNum o.id)
    case isFalse =>
      split
      case isTrue hn => simpa using (by omega : operationIdToBlockNum o.id ≤ n)
      case isFalse => rfl

theorem map_fst_calculatedMetadata :
    (p.calculatedMetadata blockFrom blockTo).map Prod.fst = p.records blockFrom blockTo := by
  rw [calculatedMetadata, records, List.map_flatMap]
  refine List.flatMap_congr fun o ho ↦ ?_
  rw [List.map_map, isHf21_eq ho]
  exact List.map_id _

theorem calculatedMetadata_sorted (name : String) :
    ((p.calculatedMetadata blockFrom blockTo).filter
      fun m ↦ decide (m.1.accountName = name)).Pairwise fun m m' ↦ m.2 < m'.2 := by
  rw [calculatedMetadata, List.filter_flatMap, List.pairwise_flatMap]
  refine ⟨fun o _ ↦ ?_, ?_⟩
  · -- an operation has one record of the account at most
    have hnames := List.pairwise_map.mp (p.records_nodup o
      (p.isHf21 (p.hardforkState blockFrom blockTo) o))
    have hrecords : ((p.getMetadata o (p.isHf21 (p.hardforkState blockFrom blockTo) o)).map
        (·, o.id)).Pairwise fun m m' ↦ m.1.accountName ≠ m'.1.accountName :=
      List.pairwise_map.mpr hnames
    refine (hrecords.sublist List.filter_sublist).imp_of_mem ?_
    intro m m' hm hm' hne
    exact absurd ((of_decide_eq_true (List.mem_filter.mp hm).2).trans
      (of_decide_eq_true (List.mem_filter.mp hm').2).symm) hne
  · refine (p.operations_sorted.sublist List.filter_sublist).imp fun {o o'} hlt m hm m' hm' ↦ ?_
    obtain ⟨r, -, rfl⟩ := List.mem_map.mp (List.mem_filter.mp hm).1
    obtain ⟨r', -, rfl⟩ := List.mem_map.mp (List.mem_filter.mp hm').1
    exact hlt

theorem selectNewest_getD (column : MetadataRecord → String) (name : String) :
    (selectNewest column (p.calculatedMetadata blockFrom blockTo) name).getD "" =
      (((p.records blockFrom blockTo).filter fun r ↦ decide (r.accountName = name)).map
        column).foldl replaceValue "" := by
  have hfilter : (p.calculatedMetadata blockFrom blockTo).filter
      (fun m ↦ decide (m.1.accountName = name ∧ column m.1 ≠ "")) =
      ((p.calculatedMetadata blockFrom blockTo).filter
        fun m ↦ decide (m.1.accountName = name)).filter fun m ↦ !decide (column m.1 = "") := by
    rw [List.filter_filter]
    refine List.filter_congr fun m _ ↦ ?_
    rw [Bool.decide_and, Bool.and_comm, decide_not]
  have hvalues : ((p.records blockFrom blockTo).filter
      fun r ↦ decide (r.accountName = name)).map column =
      ((p.calculatedMetadata blockFrom blockTo).filter
        fun m ↦ decide (m.1.accountName = name)).map fun m ↦ column m.1 := by
    rw [← map_fst_calculatedMetadata, List.filter_map, List.map_map]
    rfl
  have hlast : ((p.calculatedMetadata blockFrom blockTo).filter
      (fun m ↦ decide (m.1.accountName = name ∧ column m.1 ≠ ""))).argmax Prod.snd = _ :=
    argmax_eq_getLast? (by
      rw [hfilter]
      exact (calculatedMetadata_sorted name).sublist List.filter_sublist)
  rw [selectNewest, hlast, hfilter, hvalues]
  refine Eq.trans ?_ (foldl_overwrite _ _ _).symm
  rw [List.filter_map, List.getLast?_map]
  rfl

theorem mem_newRows {metadata : List (MetadataRecord × ℕ)} {row : ℤ × MetadataRow} :
    row ∈ p.newRows metadata ↔ ∃ name ∈ metadata.map (fun m ↦ m.1.accountName),
      (row.1, name) ∈ p.accounts ∧
      row.2 = ⟨(selectNewest MetadataRecord.jsonMetadata metadata name).getD "",
        (selectNewest MetadataRecord.postingJsonMetadata metadata name).getD ""⟩ := by
  simp only [newRows, prepareAccounts, List.mem_flatMap, List.mem_dedup]
  refine exists_congr fun name ↦ and_congr_right fun _ ↦ ?_
  constructor
  · intro hrow
    obtain ⟨av, hav, rfl⟩ := List.mem_map.mp hrow
    obtain ⟨hmem, rfl⟩ := List.mem_filter.mp hav |>.imp id of_decide_eq_true
    exact ⟨hmem, rfl⟩
  · rintro ⟨hmem, hrow⟩
    exact List.mem_map.mpr ⟨_, List.mem_filter.mpr ⟨hmem, decide_eq_true rfl⟩,
      Prod.ext rfl hrow.symm⟩

theorem newRows_nodup (metadata : List (MetadataRecord × ℕ)) :
    ((p.newRows metadata).map Prod.fst).Nodup := by
  rw [newRows, List.map_flatMap, List.nodup_flatMap]
  refine ⟨fun name _ ↦ ?_, ?_⟩
  · rw [List.map_map]
    exact p.accountIds.sublist (List.filter_sublist.map _)
  · refine (List.nodup_dedup _).imp fun {name name'} hne ↦ ?_
    rw [Function.onFun, List.disjoint_left]
    intro id hid hid'
    simp only [List.map_map, List.mem_map, List.mem_filter, decide_eq_true_eq,
      Function.comp_apply] at hid hid'
    obtain ⟨av, ⟨hav, rfl⟩, rfl⟩ := hid
    obtain ⟨av', ⟨hav', rfl⟩, heq⟩ := hid'
    exact hne (congrArg Prod.snd (List.inj_on_of_nodup_map p.accountIds hav hav' heq.symm))

theorem foldl_insertRow_of_not_mem {rows : List (ℤ × MetadataRow)}
    (hnone : id ∉ rows.map Prod.fst) : rows.foldl insertRow table id = table id := by
  induction rows generalizing table with
  | nil => rfl
  | cons row rows ih =>
    rw [List.map_cons, List.mem_cons, not_or] at hnone
    rw [List.foldl_cons, ih hnone.2, insertRow, if_neg hnone.1]

theorem foldl_insertRow_of_mem {rows : List (ℤ × MetadataRow)} {row : MetadataRow}
    (hnodup : (rows.map Prod.fst).Nodup) (hmem : (id, row) ∈ rows) :
    rows.foldl insertRow table id = some (onConflict (table id) row) := by
  induction rows generalizing table with
  | nil => cases hmem
  | cons first rows ih =>
    rw [List.map_cons, List.nodup_cons] at hnodup
    rw [List.foldl_cons]
    rcases List.mem_cons.mp hmem with rfl | hmem
    · rw [foldl_insertRow_of_not_mem hnodup.1, insertRow, if_pos rfl]
    · have hne : id ≠ first.1 := fun heq ↦ hnodup.1 (heq ▸ List.mem_map_of_mem hmem)
      rw [ih hnodup.2 hmem, insertRow, if_neg hne]

theorem updateMetadata_eq :
    p.updateMetadata blockFrom blockTo table = p.applyOneByOne blockFrom blockTo table := by
  funext id
  rw [updateMetadata, applyOneByOne_eq]
  by_cases hid : ∃ name, (id, name) ∈ p.accounts
  · obtain ⟨name, hname⟩ := hid
    rw [foldl_applyRecord_of_mem hname]
    have hunique : ∀ n, (id, n) ∈ p.accounts → n = name := fun n hn ↦
      congrArg Prod.snd (List.inj_on_of_nodup_map p.accountIds hn hname rfl)
    by_cases hrs : ((p.records blockFrom blockTo).filter
        fun r ↦ decide (r.accountName = name)) = []
    · rw [hrs, List.foldl_nil, foldl_insertRow_of_not_mem]
      intro hmem
      obtain ⟨row, hrow, rfl⟩ := List.mem_map.mp hmem
      obtain ⟨n, hn, hacc, -⟩ := mem_newRows.mp hrow
      obtain rfl := hunique n hacc
      obtain ⟨m, hm, hmn⟩ := List.mem_map.mp hn
      refine List.filter_eq_nil_iff.mp hrs m.1 ?_ (decide_eq_true hmn)
      rw [← map_fst_calculatedMetadata]
      exact List.mem_map_of_mem hm
    · have hprepared : name ∈ (p.calculatedMetadata blockFrom blockTo).map
          fun m ↦ m.1.accountName := by
        obtain ⟨r, hr⟩ := List.exists_mem_of_ne_nil _ hrs
        obtain ⟨hr, hrn⟩ := List.mem_filter.mp hr
        rw [← map_fst_calculatedMetadata] at hr
        obtain ⟨m, hm, rfl⟩ := List.mem_map.mp hr
        exact List.mem_map.mpr ⟨m, hm, of_decide_eq_true hrn⟩
      rw [foldl_insertRow_of_mem (newRows_nodup _) (mem_newRows.mpr ⟨name, hprepared, hname, rfl⟩),
        foldl_replaceRow _ hrs, selectNewest_getD, selectNewest_getD]
      cases table id with
      | none => rfl
      | some old =>
        have hoverwrite : ∀ old new : String, (if new = "" then old else new) =
            overwrite (fun v ↦ decide (v = "")) old new := by
          intro old new
          simp [overwrite]
        simp only [onConflict, hoverwrite]
        have hvalue : ∀ (old : String) (values : List String),
            overwrite (fun v ↦ decide (v = "")) old (values.foldl replaceValue "") =
              values.foldl replaceValue old :=
          overwrite_foldl (fun v ↦ decide (v = "")) (decide_eq_true rfl)
        exact congrArg some (congrArg₂ MetadataRow.mk (hvalue _ _) (hvalue _ _))
  · rw [not_exists] at hid
    rw [foldl_applyRecord_of_not_mem hid, foldl_insertRow_of_not_mem]
    intro hmem
    obtain ⟨row, hrow, rfl⟩ := List.mem_map.mp hmem
    obtain ⟨n, -, hacc, -⟩ := mem_newRows.mp hrow
    exact hid n hacc

end Query

section Batches

variable {p} {first last : ℕ} {table : MetadataTable}

def Divides (first last : ℕ) : List (ℕ × ℕ) → Prop
  | [] => first = last + 1
  | r :: rs => r.1 = first ∧ first ≤ r.2 + 1 ∧ r.2 ≤ last ∧ Divides (r.2 + 1) last rs

theorem selectMetadata_append {middle : ℕ} (hfirst : first ≤ middle + 1) (hlast : middle ≤ last) :
    p.selectMetadata first middle ++ p.selectMetadata (middle + 1) last =
      p.selectMetadata first last := by
  rw [selectMetadata, selectMetadata, filter_append_filter]
  · refine List.filter_congr fun o _ ↦ ?_
    rw [← Bool.and_or_distrib_left, ← Bool.decide_or]
    congr 1
    exact decide_eq_decide.mpr (by omega)
  · intro o ho
    rw [Bool.and_eq_true, decide_eq_true_iff] at ho
    rw [Bool.and_eq_false_iff, decide_eq_false_iff_not]
    exact .inr (by omega)
  · refine p.operations_sorted.imp fun {o o'} hlt ho ↦ ?_
    have hle : operationIdToBlockNum o.id ≤ operationIdToBlockNum o'.id :=
      Nat.div_le_div_right (le_of_lt hlt)
    rw [Bool.and_eq_true, decide_eq_true_iff] at ho
    rw [Bool.and_eq_false_iff, decide_eq_false_iff_not]
    exact .inr (by omega)

theorem applyOneByOne_divided {ranges : List (ℕ × ℕ)} (hranges : Divides first last ranges) :
    ranges.foldl (fun table r ↦ p.applyOneByOne r.1 r.2 table) table =
      p.applyOneByOne first last table := by
  induction ranges generalizing first table with
  | nil =>
    have hempty : p.selectMetadata first last = [] := by
      refine List.filter_eq_nil_iff.mpr fun o _ ho ↦ ?_
      rw [Bool.and_eq_true, decide_eq_true_iff] at ho
      have hfirst : first = last + 1 := hranges
      omega
    rw [applyOneByOne, hempty]
    rfl
  | cons r rs ih =>
    obtain ⟨rfl, hle, hlast, hrest⟩ := hranges
    rw [List.foldl_cons, ih hrest, applyOneByOne, applyOneByOne, applyOneByOne, ← List.foldl_append,
      selectMetadata_append hle hlast]

/-- The table does not depend on how a range is divided, and is the one that the operations give
when they are applied one by one. -/
theorem metadata_independent_of_batching {ranges : List (ℕ × ℕ)}
    (hranges : Divides first last ranges) :
    ranges.foldl (fun table r ↦ p.updateMetadata r.1 r.2 table) table =
        p.updateMetadata first last table ∧
      p.updateMetadata first last table = p.applyOneByOne first last table := by
  refine ⟨?_, updateMetadata_eq⟩
  simp only [updateMetadata_eq]
  exact applyOneByOne_divided hranges

def twoUpdates : MetadataProvider where
  operations := [⟨5 * 2 ^ 32, 0, 9, 0, some "a", none⟩, ⟨6 * 2 ^ 32, 0, 9, 0, some "b", none⟩]
  types := [⟨9, "hive::protocol::account_update_operation"⟩]
  accounts := [(1, "alice")]
  appliedHardforks := [⟨21, 5, 0⟩]
  getMetadata o isHf21 :=
    [⟨"alice", if isHf21 then "" else o.bodyValue.getD "", o.bodyValue.getD ""⟩]
  operations_sorted := by decide
  accountIds := by decide
  records_nodup _ _ := List.nodup_singleton _

theorem twoUpdates_divided : Divides 5 6 [(5, 5), (6, 6)] ∧
    [(5, 5), (6, 6)].foldl (fun table r ↦ twoUpdates.updateMetadata r.1 r.2 table)
        (fun _ ↦ none) 1 = some ⟨"a", "b"⟩ := by
  have hranges : Divides 5 6 [(5, 5), (6, 6)] :=
    ⟨rfl, by decide, by decide, rfl, by decide, by decide, rfl⟩
  refine ⟨hranges, ?_⟩
  rw [(metadata_independent_of_batching hranges).1]
  decide +kernel

end Batches

end HiveForkManager.MetadataProvider
