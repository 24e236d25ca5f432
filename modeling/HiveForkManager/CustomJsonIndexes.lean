import HiveForkManager.IndexMonitor

namespace HiveForkManager

/-- A row of `hafd.custom_json_type_index_requests`. -/
structure TypeIndexRequest where
  contextId : ℕ
  customJsonIds : List String
  indexName : Option String
  deriving DecidableEq, Repr

structure TypeIndexState extends IndexState where
  /-- Names and ids of `hafd.custom_json_types`. -/
  types : List (String × ℕ)
  requests : List TypeIndexRequest
  deriving DecidableEq, Repr

namespace IndexState

def row? (name : String) (s : IndexState) : Option IndexRow :=
  s.rows.find? (fun r ↦ decide (r.key = ("hafd.operations", name)))

def contextsOf (name : String) (s : IndexState) : List ℕ :=
  ((s.row? name).map IndexRow.contexts).getD []

def status? (name : String) (s : IndexState) : Option IndexStatus :=
  (s.row? name).map IndexRow.status

end IndexState

/-- `LIKE 'hive\_operations\_custom\_json\_block\_num\_%'`. -/
def isTypeIndex (name : String) : Bool :=
  "hive_operations_custom_json_block_num_".toList.isPrefixOf name.toList

def joined (separator : String) (ids : List ℕ) : String :=
  separator.intercalate (ids.map toString)

@[irreducible] def typeIndexName (md5 : String → String) (ids : List ℕ) : String :=
  let name := "hive_operations_custom_json_block_num_" ++ joined "_" ids ++ "_idx"
  if name.length > 63 then
    "hive_operations_custom_json_block_num_" ++
      String.ofList ((md5 (joined "," ids)).toList.take 20) ++ "_idx"
  else name

def typeIndexCommand (md5 : String → String) (ids : List ℕ) : String :=
  "CREATE INDEX IF NOT EXISTS " ++ typeIndexName md5 ids ++
    " ON hafd.operations (hafd.operation_id_to_block_num(id)) WHERE custom_json_type_id IN (" ++
    joined "," ids ++ ")"

/-- What `hive.parse_create_index_command` finds in the command. -/
def createTypeIndex (md5 : String → String) (ids : List ℕ) : IndexState.CreateIndex where
  indexName := typeIndexName md5 ids
  tableName := "hafd.operations"
  command := ⟨(typeIndexCommand md5 ids).toLower, true⟩

theorem indexName_createTypeIndex (md5 : String → String) (ids : List ℕ) :
    (createTypeIndex md5 ids).indexName = typeIndexName md5 ids := by
  rw [createTypeIndex]

theorem isTypeIndex_typeIndexName (md5 : String → String) (ids : List ℕ) :
    isTypeIndex (typeIndexName md5 ids) = true := by
  rw [isTypeIndex, List.isPrefixOf_iff_prefix, typeIndexName]
  split <;> rw [String.toList_append, String.toList_append, List.append_assoc] <;>
    exact List.prefix_append _ _

namespace TypeIndexState

variable (md5 : String → String)

/-- `array_agg(id ORDER BY id)` over the types of the names, if all are there. -/
def typeIds (customJsonIds : List String) (s : TypeIndexState) : Option (List ℕ) :=
  let ids := ((s.types.filter (fun t ↦ decide (t.1 ∈ customJsonIds))).map Prod.snd).insertionSort
    (· ≤ ·)
  if ids.length = customJsonIds.length then some ids else none

def request? (id : ℕ) (s : TypeIndexState) : Option TypeIndexRequest :=
  s.requests.find? (fun q ↦ decide (q.contextId = id))

/-- `UPDATE hafd.custom_json_type_index_requests SET index_name`. -/
def setIndexName (id : ℕ) (name : String) (requests : List TypeIndexRequest) :
    List TypeIndexRequest :=
  requests.map fun q ↦ if q.contextId = id then { q with indexName := some name } else q

/-- `hive.register_requested_custom_json_type_index`. -/
def registerRequested (id : ℕ) (s : TypeIndexState) : Except Error (TypeIndexState × Bool) :=
  match s.request? id, s.contexts.find? (fun c ↦ decide (c.2 = id)) with
  | some q, some c =>
    match s.typeIds q.customJsonIds with
    | none => .ok (s, false)
    | some ids => do
      let indexes ← s.toIndexState.registerIndexDependency c.1 (typeIndexCommand md5 ids)
        (some (createTypeIndex md5 ids))
      .ok ({ s with
        toIndexState := indexes
        requests := setIndexName id (typeIndexName md5 ids) s.requests }, true)
  | _, _ => .error (.raiseException "null values cannot be formatted as an SQL identifier")

def registerAll (ids : List ℕ) (s : TypeIndexState) : Except Error TypeIndexState :=
  ids.foldlM (fun s id ↦ Prod.fst <$> s.registerRequested md5 id) s

/-- `hive.register_pending_custom_json_type_indexes`. -/
def registerPending (contexts : List String) (s : TypeIndexState) : Except Error TypeIndexState :=
  s.registerAll md5 ((s.requests.filter (fun q ↦ decide (q.indexName = none ∧
    ∃ c ∈ s.contexts, c.2 = q.contextId ∧ c.1 ∈ contexts))).map TypeIndexRequest.contextId)

/-- A new type and `hive.on_custom_json_type_added`, which skips the requests that are locked. -/
def addType (customJsonId : String) (id : ℕ) (locked : List ℕ) (s : TypeIndexState) :
    Except Error TypeIndexState :=
  if ∃ t ∈ s.types, t.1 = customJsonId ∨ t.2 = id then .ok s
  else
    registerAll md5 ((s.requests.filter (fun q ↦ decide (q.indexName = none ∧
      customJsonId ∈ q.customJsonIds ∧ q.contextId ∉ locked))).map TypeIndexRequest.contextId)
      { s with types := s.types ++ [(customJsonId, id)] }

/-- What `hive.release_superseded_custom_json_type_indexes` selects. -/
def superseded (id : ℕ) (s : TypeIndexState) : List String :=
  match (s.request? id).bind TypeIndexRequest.indexName with
  | none => []
  | some name =>
    if s.status? name = some .created then
      (s.rows.filter (fun r ↦ decide (r.tableName = "hafd.operations" ∧ isTypeIndex r.name = true ∧
        r.name ≠ name ∧ r.status ≠ .creating ∧ id ∈ r.contexts))).map IndexRow.name
    else []

/-- `hive.release_superseded_custom_json_type_indexes`. -/
def releaseSuperseded (id : ℕ) (s : TypeIndexState) : Except Error TypeIndexState := do
  let indexes ← (s.superseded id).foldlM
    (fun indexes name ↦ indexes.removeIndexDependency id "hafd.operations" name) s.toIndexState
  .ok { s with toIndexState := indexes }

/-- `INSERT … ON CONFLICT (context_id) DO UPDATE` of a request for another set. -/
def upsertRequest (id : ℕ) (customJsonIds : List String) (s : TypeIndexState) : TypeIndexState :=
  { s with requests :=
      if id ∈ s.requests.map TypeIndexRequest.contextId then
        s.requests.map fun q ↦ if q.contextId = id ∧ q.customJsonIds ≠ customJsonIds then
          { q with customJsonIds, indexName := none } else q
      else s.requests ++ [⟨id, customJsonIds, none⟩] }

/-- `NULL`, empty or longer than 32 characters. -/
def isInvalidId : Option String → Bool
  | none => true
  | some customJsonId => customJsonId = "" || decide (customJsonId.length > 32)

/-- `hive.register_custom_json_type_index`; `idsText` is the text of the array. -/
def registerTypeIndex (sessionUser : String) (authorized : Bool) (contextName : String)
    (customJsonIds : List (Option String)) (idsText : String) (s : TypeIndexState) :
    Except Error TypeIndexState :=
  match s.contexts.find? (fun c ↦ decide (c.1 = contextName)) with
  | none => .error (.raiseException ("Context \"" ++ contextName ++
      "\" not found in hafd.contexts"))
  | some c =>
    if !authorized then
      .error (.raiseException ("User " ++ sessionUser ++ " is not an owner of context " ++
        contextName ++ " and cannot register its custom_json type index"))
    else if customJsonIds = [] || customJsonIds.any isInvalidId then
      .error (.raiseException ("Invalid custom_json ids " ++ idsText ++
        ", expected a non-empty list of 1 to 32 character ids"))
    else do
      let s := s.upsertRequest c.2 (customJsonIds.reduceOption.dedup.insertionSort (· ≤ ·))
      let (s, _) ← s.registerRequested md5 c.2
      s.releaseSuperseded c.2

def startBuild (name : String) (s : TypeIndexState) : TypeIndexState :=
  match s.row? name with
  | none => s
  | some r =>
    if r.status = .missing then
      let marked := s.toIndexState.markByName .creating name
      { s with toIndexState :=
        if s.pg.any (fun p ↦ decide (p.name = name)) then marked else marked.beginBuild name r }
    else s

def failBuild (name : String) (s : TypeIndexState) : Except Error TypeIndexState :=
  if s.status? name = some .creating then do
    let pg ← dropIndexes [name] s.pg
    .ok { s with toIndexState := { s.toIndexState.markByName .missing name with pg } }
  else .ok s

def onIndexCreated (contexts : List ℕ) (s : TypeIndexState) : TypeIndexState :=
  contexts.foldl (fun s id ↦ match s.releaseSuperseded id with
    | .ok s' => s'
    | .error _ => s) s

/-- The end of a build with `hive.on_custom_json_type_index_created`. -/
def completeBuild (name : String) (s : TypeIndexState) : TypeIndexState :=
  if s.status? name = some .creating then
    let s' := { s with
      toIndexState := (s.toIndexState.validate name).markByName .created name }
    if isTypeIndex name then s'.onIndexCreated (s'.contextsOf name) else s'
  else s

end TypeIndexState

inductive TypeIndexCall where
  | register (sessionUser : String) (authorized : Bool) (contextName : String)
      (customJsonIds : List (Option String)) (idsText : String)
  | typeAdded (customJsonId : String) (id : ℕ) (locked : List ℕ)
  | blockRequest (contexts : List String)
  | buildStarted (name : String)
  | buildFailed (name : String)
  | buildCompleted (name : String)
  deriving DecidableEq, Repr

namespace TypeIndexState

def execute (md5 : String → String) (s : TypeIndexState) :
    TypeIndexCall → Except Error TypeIndexState
  | .register sessionUser authorized contextName customJsonIds idsText =>
    s.registerTypeIndex md5 sessionUser authorized contextName customJsonIds idsText
  | .typeAdded customJsonId id locked => s.addType md5 customJsonId id locked
  | .blockRequest contexts => s.registerPending md5 contexts
  | .buildStarted name => .ok (s.startBuild name)
  | .buildFailed name => s.failBuild name
  | .buildCompleted name => .ok (s.completeBuild name)

def step (md5 : String → String) (s : TypeIndexState) (call : TypeIndexCall) : TypeIndexState :=
  match s.execute md5 call with
  | .error _ => s
  | .ok s' => s'

def runCalls (md5 : String → String) (calls : List TypeIndexCall) (s : TypeIndexState) :
    TypeIndexState :=
  calls.foldl (step md5) s

end TypeIndexState

theorem find?_key_of_mem {α κ : Type} [DecidableEq κ] {key : α → κ} {l : List α} {a : α} {k : κ}
    (hl : (l.map key).Nodup) (ha : a ∈ l) (hk : key a = k) :
    l.find? (fun x ↦ decide (key x = k)) = some a := by
  cases hfind : l.find? (fun x ↦ decide (key x = k)) with
  | none => exact absurd (decide_eq_true hk) (List.find?_eq_none.mp hfind a ha)
  | some b =>
    have hb : key b = k := by simpa using List.find?_some hfind
    rw [List.inj_on_of_nodup_map hl (List.mem_of_find?_eq_some hfind) ha (hb.trans hk.symm)]

namespace IndexState

variable {s s' : IndexState} {id : ℕ} {name : String}

theorem row?_eq_some {r : IndexRow} (h : s.row? name = some r) :
    r ∈ s.rows ∧ r.key = ("hafd.operations", name) :=
  ⟨List.mem_of_find?_eq_some h, by simpa using List.find?_some h⟩

theorem row?_of_mem (hkeys : (s.rows.map IndexRow.key).Nodup) {r : IndexRow} (hr : r ∈ s.rows)
    (hkey : r.key = ("hafd.operations", name)) : s.row? name = some r :=
  find?_key_of_mem hkeys hr hkey

variable {f : IndexRow → IndexRow}

theorem row?_map (hf : ∀ r, (f r).key = r.key) (contexts pg) :
    row? name ⟨contexts, s.rows.map f, pg⟩ = (s.row? name).map f := by
  simp only [row?, List.find?_map, Function.comp_def, hf]

theorem contextsOf_eq_nil_of_status (h : s.status? name = none) : s.contextsOf name = [] := by
  rw [status?, Option.map_eq_none_iff] at h
  rw [contextsOf, h]
  rfl

theorem status_isSome (h : id ∈ s.contextsOf name) : ∃ status, s.status? name = some status := by
  cases hs : s.status? name with
  | none => rw [contextsOf_eq_nil_of_status hs] at h; cases h
  | some status => exact ⟨status, rfl⟩

/-- What `hive.register_index_dependency` does for an index of `hafd.operations`. -/
structure Registers (id : ℕ) (name : String) (s s' : IndexState) : Prop where
  contexts : s'.contexts = s.contexts
  pg : s'.pg = s.pg
  keys : (s.rows.map IndexRow.key).Nodup → (s'.rows.map IndexRow.key).Nodup
  rows : ∀ r' ∈ s'.rows, r'.key = ("hafd.operations", name) ∧ r'.isConstraint = false ∨
    ∃ r ∈ s.rows, r'.key = r.key ∧ r'.isConstraint = r.isConstraint
  contextsOf : ∀ m i, i ∈ s'.contextsOf m ↔ i ∈ s.contextsOf m ∨ m = name ∧ i = id
  status : ∀ m, m ≠ name ∨ s.status? m ≠ none → s'.status? m = s.status? m
  fresh : s.status? name = none → (∀ p ∈ s.pg, p.name ≠ name) →
    s'.status? name = some .missing

/-- What `hive.remove_index_dependency` does for indexes of `hafd.operations`. -/
structure Removes (id : ℕ) (names : List String) (s s' : IndexState) : Prop where
  contexts : s'.contexts = s.contexts
  keys : (s'.rows.map IndexRow.key).Nodup
  rows : ∀ r' ∈ s'.rows, ∃ r ∈ s.rows, r'.key = r.key ∧ r'.isConstraint = r.isConstraint
  contextsOf : ∀ m i, i ∈ s'.contextsOf m ↔ i ∈ s.contextsOf m ∧ ¬ (m ∈ names ∧ i = id)
  status : ∀ m, s'.status? m = s.status? m ∨ s'.status? m = none
  pg : ∀ p ∈ s'.pg, p ∈ s.pg ∧ s'.status? p.name = s.status? p.name
  dropped : ∀ p ∈ s.pg, p ∈ s'.pg ∨ s'.contextsOf p.name = []

theorem mem_contextsOf : id ∈ s.contextsOf name ↔ ∃ r, s.row? name = some r ∧ id ∈ r.contexts := by
  rw [contextsOf]
  cases s.row? name <;> simp

theorem Removes.refl (hkeys : (s.rows.map IndexRow.key).Nodup) : Removes id [] s s :=
  ⟨rfl, hkeys, fun r hr ↦ ⟨r, hr, rfl, rfl⟩, fun m i ↦ by simp, fun _ ↦ .inl rfl,
    fun p hp ↦ ⟨hp, rfl⟩, fun p hp ↦ .inl hp⟩

theorem Removes.trans {s'' : IndexState} {names names' : List String}
    (h : Removes id names s s') (h' : Removes id names' s' s'') :
    Removes id (names ++ names') s s'' where
  contexts := h'.contexts.trans h.contexts
  keys := h'.keys
  rows r'' hr'' := by
    obtain ⟨r', hr', hkey', hconstraint'⟩ := h'.rows r'' hr''
    obtain ⟨r, hr, hkey, hconstraint⟩ := h.rows r' hr'
    exact ⟨r, hr, hkey'.trans hkey, hconstraint'.trans hconstraint⟩
  contextsOf m i := by
    rw [h'.contextsOf, h.contextsOf, List.mem_append]
    tauto
  status m := by
    rcases h'.status m with hm | hm
    · rw [hm]
      exact h.status m
    · exact .inr hm
  pg p hp := by
    obtain ⟨hp, hs'⟩ := h'.pg p hp
    obtain ⟨hp, hs⟩ := h.pg p hp
    exact ⟨hp, hs'.trans hs⟩
  dropped p hp := by
    rcases h.dropped p hp with hp | hnil
    · exact h'.dropped p hp
    · refine .inr (List.eq_nil_iff_forall_not_mem.mpr fun i hi ↦ ?_)
      have hi := ((h'.contextsOf _ _).mp hi).1
      rw [hnil] at hi
      cases hi

theorem status?_map (hf : ∀ r, (f r).key = r.key)
    (hstatus : ∀ r, (f r).status = r.status) (contexts pg) :
    status? name ⟨contexts, s.rows.map f, pg⟩ = s.status? name := by
  rw [status?, status?, row?_map hf, Option.map_map]
  congr 1
  funext r
  exact hstatus r

theorem keys_map (hf : ∀ r, (f r).key = r.key) :
    (s.rows.map f).map IndexRow.key = s.rows.map IndexRow.key := by
  rw [List.map_map]
  exact List.map_congr_left fun r _ ↦ hf r

theorem row?_append (r : IndexRow) (contexts pg) : row? name ⟨contexts, s.rows ++ [r], pg⟩ =
    (s.row? name).or (if r.key = ("hafd.operations", name) then some r else none) := by
  rw [row?, List.find?_append, List.find?_singleton]
  simp only [decide_eq_true_eq]
  rfl

theorem registers_of_ok {contextName text : String} {c : CreateIndex}
    (htable : c.tableName = "hafd.operations") (hid : s.contextId contextName = .ok id)
    (hok : s.registerIndexDependency contextName text (some c) = .ok s') :
    Registers id c.indexName s s' := by
  obtain ⟨id', hid', hok⟩ := ExceptList.bind_eq_ok.mp hok
  obtain rfl : id = id' := Except.ok.inj (hid.symm.trans hid')
  dsimp only at hok
  rw [htable] at hok
  split at hok
  case isTrue hknown =>
    cases hok
    have hkey : ∀ r : IndexRow, (if r.key = ("hafd.operations", c.indexName) ∧ id ∉ r.contexts then
        { r with contexts := r.contexts ++ [id] } else r).key = r.key := by
      intro r
      split <;> rfl
    obtain ⟨r₀, hr₀, hkey₀⟩ := List.mem_map.mp hknown
    refine ⟨rfl, rfl, fun h ↦ (keys_map hkey).symm ▸ h, fun r' hr' ↦ ?_, fun m i ↦ ?_,
      fun m _ ↦ status?_map hkey (fun r ↦ by split <;> rfl) _ _, fun hnone _ ↦ ?_⟩
    · obtain ⟨r, hr, rfl⟩ := List.mem_map.mp hr'
      exact .inr ⟨r, hr, hkey r, by split <;> rfl⟩
    · rw [mem_contextsOf, mem_contextsOf, row?_map hkey]
      cases hrow : s.row? m with
      | none =>
        have hm : m ≠ c.indexName := by
          rintro rfl
          exact List.find?_eq_none.mp hrow r₀ hr₀ (decide_eq_true hkey₀)
        simp [hm]
      | some r =>
        have hrkey := (row?_eq_some hrow).2
        simp only [Option.map_some, Option.some.injEq, exists_eq_left', hrkey, Prod.mk.injEq,
          true_and]
        by_cases hm : m = c.indexName <;> by_cases hmem : id ∈ r.contexts <;> simp [hm, hmem]
        rintro rfl
        exact hmem
    · rw [status?, Option.map_eq_none_iff] at hnone
      exact absurd (decide_eq_true hkey₀) (List.find?_eq_none.mp hnone r₀ hr₀)
  case isFalse hunknown =>
    cases hok
    have hnone : s.row? c.indexName = none :=
      List.find?_eq_none.mpr fun r hr h ↦
        hunknown (List.mem_map.mpr ⟨r, hr, of_decide_eq_true h⟩)
    refine ⟨rfl, rfl, fun h ↦ ?_, fun r' hr' ↦ ?_, fun m i ↦ ?_, fun m hm ↦ ?_, fun _ hpg ↦ ?_⟩
    · rw [List.map_append]
      exact List.Nodup.append h (List.nodup_singleton _) (List.disjoint_singleton.mpr hunknown)
    · rcases List.mem_append.mp hr' with hr' | hr'
      · exact .inr ⟨r', hr', rfl, rfl⟩
      · rw [List.mem_singleton.mp hr']
        exact .inl ⟨rfl, rfl⟩
    · rw [mem_contextsOf, mem_contextsOf, row?_append]
      by_cases hm : m = c.indexName
      · subst hm
        simp [hnone, IndexRow.key]
      · simp [IndexRow.key, Ne.symm hm, hm]
    · rw [status?, status?, row?_append]
      cases hrow : s.row? m with
      | none =>
        rw [status?, hrow] at hm
        have hne : c.indexName ≠ m := Ne.symm (hm.resolve_right fun h ↦ h rfl)
        simp [IndexRow.key, hne]
      | some r => rw [Option.some_or]
    · have hany : s.pg.any (fun p ↦ decide (p.name = c.indexName)) = false := by
        simpa using hpg
      simp [status?, row?_append, hnone, hany, IndexRow.key]

theorem row?_filter (m : String) (rows : List IndexRow) (contexts pg) :
    row? m ⟨contexts, rows.filter (fun r ↦ decide (r.key ≠ ("hafd.operations", name))), pg⟩ =
      if m = name then none else row? m ⟨contexts, rows, pg⟩ := by
  rw [row?, List.find?_filter]
  split
  case isTrue hm =>
    rw [List.find?_eq_none]
    intro r _
    simp [hm]
  case isFalse hm =>
    rw [row?]
    congr 1
    funext r
    by_cases hr : r.key = ("hafd.operations", m)
    · simp [hr, hm]
    · simp [hr]

theorem removes_of_ok (hkeys : (s.rows.map IndexRow.key).Nodup)
    (hok : s.removeIndexDependency id "hafd.operations" name = .ok s') :
    Removes id [name] s s' := by
  let f : IndexRow → IndexRow := fun r ↦ if r.key = ("hafd.operations", name) then
    { r with contexts := r.contexts.filter (· ≠ id) } else r
  have hkey : ∀ r, (f r).key = r.key := fun r ↦ by unfold f; split <;> rfl
  have hstatus : ∀ r, (f r).status = r.status := fun r ↦ by unfold f; split <;> rfl
  have hconstraint : ∀ r, (f r).isConstraint = r.isConstraint := fun r ↦ by
    unfold f
    split <;> rfl
  have hrow : (s.rows.map f).find? (fun r ↦ decide (r.key = ("hafd.operations", name))) =
      (s.row? name).map f := row?_map hkey s.contexts s.pg
  have hcontexts : ∀ m i, i ∈ contextsOf m ⟨s.contexts, s.rows.map f, s.pg⟩ ↔
      i ∈ s.contextsOf m ∧ ¬ (m ∈ [name] ∧ i = id) := by
    intro m i
    rw [mem_contextsOf, mem_contextsOf, row?_map hkey]
    cases hm : s.row? m with
    | none => simp
    | some r =>
      have hrkey := (row?_eq_some hm).2
      by_cases hname : m = name <;> simp [f, hrkey, hname]
  have hmapped : Removes id [name] s ⟨s.contexts, s.rows.map f, s.pg⟩ := by
    refine ⟨rfl, (keys_map hkey).symm ▸ hkeys, fun r' hr' ↦ ?_, hcontexts,
      fun m ↦ .inl (status?_map hkey hstatus _ _),
      fun p hp ↦ ⟨hp, status?_map hkey hstatus _ _⟩, fun p hp ↦ .inl hp⟩
    obtain ⟨r, hr, rfl⟩ := List.mem_map.mp hr'
    exact ⟨r, hr, hkey r, hconstraint r⟩
  simp only [removeIndexDependency] at hok
  rw [hrow] at hok
  cases hname : s.row? name with
  | none =>
    rw [hname] at hok
    cases hok
    exact hmapped
  | some r =>
    rw [hname] at hok
    dsimp only [Option.map_some] at hok
    split at hok
    case isTrue => cases hok; exact hmapped
    case isFalse hempty =>
      obtain ⟨pg, hpg, hok⟩ := ExceptList.bind_eq_ok.mp hok
      cases hok
      have hrow' : ∀ m, row? m ⟨s.contexts, (s.rows.map f).filter
          (fun r ↦ decide (r.key ≠ ("hafd.operations", name))), pg⟩ =
          if m = name then none else row? m ⟨s.contexts, s.rows.map f, s.pg⟩ := fun m ↦
        row?_filter m _ _ _
      have hgone : ∀ i, i ∉ contextsOf name ⟨s.contexts, s.rows.map f, s.pg⟩ := by
        intro i hi
        obtain ⟨r', hr', hmem⟩ := mem_contextsOf.mp hi
        rw [row?_map hkey, hname] at hr'
        rw [← Option.some.inj hr', not_not.mp hempty] at hmem
        cases hmem
      have hstatus' : ∀ m, m ≠ name → status? m ⟨s.contexts, (s.rows.map f).filter
          (fun r ↦ decide (r.key ≠ ("hafd.operations", name))), pg⟩ = s.status? m := by
        intro m hm
        rw [status?, hrow', if_neg hm, ← status?]
        exact status?_map hkey hstatus _ _
      refine ⟨rfl, ?_, fun r' hr' ↦ ?_, fun m i ↦ ?_, fun m ↦ ?_, fun p hp ↦ ?_, fun p hp ↦ ?_⟩
      · exact ((keys_map hkey).symm ▸ hkeys).sublist (List.filter_sublist.map _)
      · obtain ⟨r, hr, rfl⟩ := List.mem_map.mp (List.mem_filter.mp hr').1
        exact ⟨r, hr, hkey r, hconstraint r⟩
      · rw [← hcontexts, mem_contextsOf, hrow']
        by_cases hm : m = name
        · subst hm
          simp [hgone]
        · rw [if_neg hm, mem_contextsOf]
      · by_cases hm : m = name
        · exact .inr (by rw [status?, hrow', if_pos hm]; rfl)
        · exact .inl (hstatus' m hm)
      · rw [dropIndexes_eq hpg] at hp
        obtain ⟨hp, hne⟩ := List.mem_filter.mp hp
        exact ⟨hp, hstatus' _ (by simpa using hne)⟩
      · by_cases hm : p.name = name
        · exact .inr (by rw [contextsOf, hrow', if_pos hm]; rfl)
        · rw [dropIndexes_eq hpg]
          exact .inl (List.mem_filter.mpr ⟨hp, by simpa using hm⟩)

theorem exists_removeIndexDependency
    (hpg : ∀ p ∈ s.pg, p.name = name → p.isConstraint = false) :
    ∃ s', s.removeIndexDependency id "hafd.operations" name = .ok s' := by
  have hnone : s.pg.find? (fun p ↦ decide (p.name ∈ [name]) && p.isConstraint) = none := by
    rw [List.find?_eq_none]
    intro p hp h
    rw [Bool.and_eq_true, decide_eq_true_eq, List.mem_singleton] at h
    rw [hpg p hp h.1] at h
    cases h.2
  simp only [removeIndexDependency, dropIndexes, hnone]
  split
  · exact ⟨_, rfl⟩
  · split
    · exact ⟨_, rfl⟩
    · exact ⟨_, rfl⟩

theorem exists_removeAll (id : ℕ) {names : List String} (hkeys : (s.rows.map IndexRow.key).Nodup)
    (hpg : ∀ p ∈ s.pg, p.name ∈ names → p.isConstraint = false) :
    ∃ s', names.foldlM (fun s name ↦ s.removeIndexDependency id "hafd.operations" name) s =
      .ok s' ∧ Removes id names s s' := by
  induction names generalizing s with
  | nil => exact ⟨s, rfl, .refl hkeys⟩
  | cons name names ih =>
    obtain ⟨s₁, h₁⟩ : ∃ s₁, s.removeIndexDependency id "hafd.operations" name = .ok s₁ :=
      exists_removeIndexDependency fun p hp hname ↦ hpg p hp (hname ▸ List.mem_cons_self)
    have hfirst := removes_of_ok hkeys h₁
    obtain ⟨s₂, h₂, hrest⟩ := ih hfirst.keys
      (fun p hp hname ↦ hpg p (hfirst.pg p hp).1 (List.mem_cons_of_mem _ hname))
    refine ⟨s₂, ?_, hfirst.trans hrest⟩
    rw [List.foldlM_cons, h₁]
    exact h₂

theorem status?_markByName (status : IndexStatus) (m : String) :
    (s.markByName status name).status? m =
      if m = name then (s.status? m).map fun _ ↦ status else s.status? m := by
  have hrow : (s.markByName status name).row? m = (s.row? m).map fun r ↦
      if decide (r.name = name) = true then { r with status } else r :=
    row?_map (fun r ↦ by split <;> rfl) s.contexts s.pg
  rw [status?, status?, hrow]
  cases hm : s.row? m with
  | none => simp
  | some r =>
    have hname : r.name = m := congrArg Prod.snd (row?_eq_some hm).2
    by_cases h : m = name <;> simp [hname, h]

theorem contextsOf_markByName (status : IndexStatus) (m : String) :
    (s.markByName status name).contextsOf m = s.contextsOf m := by
  have hrow : (s.markByName status name).row? m = (s.row? m).map fun r ↦
      if decide (r.name = name) = true then { r with status } else r :=
    row?_map (fun r ↦ by split <;> rfl) s.contexts s.pg
  rw [contextsOf, contextsOf, hrow, Option.map_map]
  congr 2
  funext r
  rw [Function.comp_apply]
  split <;> rfl

theorem status?_congr (h : s'.rows = s.rows) : s'.status? name = s.status? name := by
  rw [status?, status?, row?, row?, h]

theorem contextsOf_congr (h : s'.rows = s.rows) : s'.contextsOf name = s.contextsOf name := by
  rw [contextsOf, contextsOf, row?, row?, h]

theorem keys_markByName (status : IndexStatus) :
    (s.markByName status name).rows.map IndexRow.key = s.rows.map IndexRow.key :=
  keys_map fun r ↦ by split <;> rfl

end IndexState

end HiveForkManager
