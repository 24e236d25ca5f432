import HiveForkManager.LogFile

namespace HiveForkManager

/-- A row of `hafd.custom_json_types`, also an entry of the mapping of the cache. -/
structure CustomJsonType where
  id : ℤ
  customJsonId : Bytes
  deriving DecidableEq, Repr

structure CustomJsonTypeCache where
  mapping : List CustomJsonType
  pendingInserts : List CustomJsonType
  nextId : ℤ
  deriving DecidableEq, Repr

def toInt16 (z : ℤ) : ℤ := z.bmod (2 ^ 16)

namespace CustomJsonTypeCache

def empty : CustomJsonTypeCache := ⟨[], [], 1⟩

def assign (r : CustomJsonType) (mapping : List CustomJsonType) : List CustomJsonType :=
  mapping.filter (·.customJsonId != r.customJsonId) ++ [r]

def loadRow (c : CustomJsonTypeCache) (r : CustomJsonType) : CustomJsonTypeCache :=
  { c with
    mapping := assign r c.mapping
    nextId := if c.nextId ≤ r.id then toInt16 (r.id + 1) else c.nextId }

/-- `load_from_db`, with the rows in the order the query returns them. -/
def loadFromDb (rows : List CustomJsonType) : CustomJsonTypeCache := rows.foldl loadRow empty

def getTypeId (customJsonId : Bytes) (c : CustomJsonTypeCache) :
    Option ℤ × CustomJsonTypeCache :=
  if customJsonId = [] then (none, c)
  else match c.mapping.find? (·.customJsonId == customJsonId) with
    | some r => (some r.id, c)
    | none =>
      let r : CustomJsonType := ⟨c.nextId, customJsonId⟩
      (some r.id,
        ⟨assign r c.mapping, c.pendingInserts ++ [r], toInt16 (c.nextId + 1)⟩)

/-- `INSERT ... ON CONFLICT DO NOTHING`: both columns are unique. -/
def insertRow (rows : List CustomJsonType) (r : CustomJsonType) : List CustomJsonType :=
  if rows.any fun r' ↦ r'.id == r.id || r'.customJsonId == r.customJsonId then rows
  else rows ++ [r]

end CustomJsonTypeCache

structure TypedOperation where
  customJsonId : Bytes
  typeId : Option ℤ
  deriving DecidableEq, Repr

structure TypesState where
  rows : List CustomJsonType
  cache : CustomJsonTypeCache
  /-- Operations of the block being applied. -/
  block : List TypedOperation
  /-- Operations of finished blocks not yet dumped. -/
  cached : List TypedOperation
  /-- Operations ever dumped to the database. -/
  stored : List TypedOperation
  deriving DecidableEq, Repr

namespace TypesState

open CustomJsonTypeCache

def initial : TypesState := ⟨[], empty, [], [], []⟩

inductive Step where
  | operation (customJsonId : Bytes)
  | failBlock
  | applyBlock
  /-- A flush of the oldest `n` cached operations. -/
  | dump (n : ℕ)
  /-- A fork switch that leaves `n` cached operations. -/
  | switchFork (n : ℕ)
  /-- A stop at any moment and a start that reads the table in this order. -/
  | restart (rows : List CustomJsonType)
  deriving DecidableEq, Repr

def step (s : TypesState) : Step → Option TypesState
  | .operation customJsonId =>
    let (typeId, cache) := getTypeId customJsonId s.cache
    some { s with cache := cache, block := s.block ++ [⟨customJsonId, typeId⟩] }
  | .failBlock => some { s with block := [] }
  | .applyBlock => some { s with
      rows := s.cache.pendingInserts.foldl insertRow s.rows
      cache := { s.cache with pendingInserts := [] }
      block := []
      cached := s.cached ++ s.block }
  | .dump n => some { s with stored := s.stored ++ s.cached.take n, cached := s.cached.drop n }
  | .switchFork n => some { s with cached := s.cached.take n }
  | .restart rows =>
    if rows.Perm s.rows then some { s with cache := loadFromDb rows, block := [], cached := [] }
    else none

def run (s : TypesState) (steps : List Step) : Option TypesState := steps.foldlM step s

/-- A new custom_json id is met only while the largest id of an `int16_t` is still free. -/
def HasRoom (s : TypesState) : Step → Prop
  | .operation customJsonId => customJsonId = [] ∨
      (∃ r ∈ s.cache.mapping, r.customJsonId = customJsonId) ∨
      ∀ r ∈ s.cache.mapping, r.id < 32767
  | _ => True

inductive Reachable : TypesState → Prop
  | initial : Reachable .initial
  | step {s s' : TypesState} {t : Step} (hs : Reachable s) (hstep : s.step t = some s')
      (hroom : s.HasRoom t) : Reachable s'

end TypesState

namespace CustomJsonTypeCache

/-- A mapping without clashes, and a counter above all of it while ids are left. -/
structure Valid (c : CustomJsonTypeCache) : Prop where
  names : (c.mapping.map CustomJsonType.customJsonId).Nodup
  ids : (c.mapping.map CustomJsonType.id).Nodup
  range : ∀ r ∈ c.mapping, 1 ≤ r.id ∧ r.id ≤ 32767
  next : (∀ r ∈ c.mapping, r.id < 32767) →
    (1 ≤ c.nextId ∧ c.nextId ≤ 32767) ∧ ∀ r ∈ c.mapping, r.id < c.nextId

theorem toInt16_of_mem {z : ℤ} (hlow : 1 ≤ z) (hhigh : z ≤ 32767) : toInt16 z = z := by
  unfold toInt16
  rw [Int.bmod_def]
  omega

theorem valid_empty : empty.Valid :=
  ⟨by simp [empty], by simp [empty], by simp [empty], by simp [empty]⟩

theorem assign_eq {r : CustomJsonType} {mapping : List CustomJsonType}
    (h : ∀ r' ∈ mapping, r'.customJsonId ≠ r.customJsonId) : assign r mapping = mapping ++ [r] := by
  rw [assign, List.filter_eq_self.2 fun r' hr' ↦ by simpa using h r' hr']

variable {c : CustomJsonTypeCache} {rows : List CustomJsonType}

theorem Valid.loadRow (h : c.Valid) {r : CustomJsonType}
    (hname : ∀ r' ∈ c.mapping, r'.customJsonId ≠ r.customJsonId)
    (hid : ∀ r' ∈ c.mapping, r'.id ≠ r.id) (hrange : 1 ≤ r.id ∧ r.id ≤ 32767) :
    (loadRow c r).Valid ∧ (loadRow c r).mapping = c.mapping ++ [r] := by
  have hmap : (CustomJsonTypeCache.loadRow c r).mapping = c.mapping ++ [r] := assign_eq hname
  refine ⟨⟨?_, ?_, ?_, fun hfree ↦ ?_⟩, hmap⟩
  · rw [hmap, List.map_append, List.nodup_append]
    exact ⟨h.names, by simp, by simpa using hname⟩
  · rw [hmap, List.map_append, List.nodup_append]
    exact ⟨h.ids, by simp, by simpa using hid⟩
  · rw [hmap]
    exact List.forall_mem_append.2 ⟨h.range, by simpa using hrange⟩
  · rw [hmap] at hfree ⊢
    obtain ⟨hold, hr⟩ := List.forall_mem_append.1 hfree
    have hlt : r.id < 32767 := hr r (by simp)
    obtain ⟨⟨hlow, hhigh⟩, habove⟩ := h.next hold
    simp only [CustomJsonTypeCache.loadRow]
    split
    case isTrue hle =>
      rw [toInt16_of_mem (by omega) (by omega)]
      refine ⟨by omega, List.forall_mem_append.2 ⟨fun r' hr' ↦ ?_, by simp⟩⟩
      have := habove r' hr'
      omega
    case isFalse hle =>
      exact ⟨⟨hlow, hhigh⟩, List.forall_mem_append.2 ⟨habove, by simpa using hle⟩⟩

theorem Valid.foldl_loadRow (h : c.Valid)
    (hnames : ((c.mapping ++ rows).map CustomJsonType.customJsonId).Nodup)
    (hids : ((c.mapping ++ rows).map CustomJsonType.id).Nodup)
    (hrange : ∀ r ∈ rows, 1 ≤ r.id ∧ r.id ≤ 32767) :
    (rows.foldl CustomJsonTypeCache.loadRow c).Valid ∧
      (rows.foldl CustomJsonTypeCache.loadRow c).mapping = c.mapping ++ rows ∧
      (rows.foldl CustomJsonTypeCache.loadRow c).pendingInserts = c.pendingInserts := by
  induction rows generalizing c with
  | nil => exact ⟨h, by simp, rfl⟩
  | cons r rows ih =>
    have hname : ∀ r' ∈ c.mapping, r'.customJsonId ≠ r.customJsonId := by
      simp only [List.map_append, List.map_cons, List.nodup_append, List.mem_map] at hnames
      exact fun r' hr' ↦ hnames.2.2 _ ⟨r', hr', rfl⟩ _ (by simp)
    have hid : ∀ r' ∈ c.mapping, r'.id ≠ r.id := by
      simp only [List.map_append, List.map_cons, List.nodup_append, List.mem_map] at hids
      exact fun r' hr' ↦ hids.2.2 _ ⟨r', hr', rfl⟩ _ (by simp)
    obtain ⟨hr, hrows⟩ := List.forall_mem_cons.1 hrange
    obtain ⟨hvalid, hmap⟩ := h.loadRow hname hid hr
    obtain ⟨hvalid', hmap', hpending⟩ :=
      ih hvalid (by simpa [hmap] using hnames) (by simpa [hmap] using hids) hrows
    exact ⟨hvalid', by simpa [hmap] using hmap', hpending⟩

theorem valid_loadFromDb (hnames : (rows.map CustomJsonType.customJsonId).Nodup)
    (hids : (rows.map CustomJsonType.id).Nodup) (hrange : ∀ r ∈ rows, 1 ≤ r.id ∧ r.id ≤ 32767) :
    (loadFromDb rows).Valid ∧ (loadFromDb rows).mapping = rows ∧
      (loadFromDb rows).pendingInserts = [] :=
  valid_empty.foldl_loadRow (by simpa [empty] using hnames) (by simpa [empty] using hids) hrange

theorem Valid.getTypeId (h : c.Valid) {customJsonId : Bytes}
    (hroom : customJsonId = [] ∨ (∃ r ∈ c.mapping, r.customJsonId = customJsonId) ∨
      ∀ r ∈ c.mapping, r.id < 32767) :
    (getTypeId customJsonId c).2.Valid ∧
      (∃ new, (getTypeId customJsonId c).2.mapping = c.mapping ++ new ∧
        (getTypeId customJsonId c).2.pendingInserts = c.pendingInserts ++ new) ∧
      ∀ id ∈ (getTypeId customJsonId c).1,
        ⟨id, customJsonId⟩ ∈ (getTypeId customJsonId c).2.mapping := by
  unfold CustomJsonTypeCache.getTypeId
  split
  · exact ⟨h, ⟨[], by simp⟩, by simp⟩
  case isFalse hne =>
    split
    case h_1 r hfind =>
      have hname : r.customJsonId = customJsonId := by simpa using List.find?_some hfind
      refine ⟨h, ⟨[], by simp⟩, ?_⟩
      rintro id ⟨⟩
      rw [← hname]
      exact List.mem_of_find?_eq_some hfind
    case h_2 hfind =>
      have hname : ∀ r ∈ c.mapping, r.customJsonId ≠ customJsonId := by
        simpa using List.find?_eq_none.1 hfind
      have hfree : ∀ r ∈ c.mapping, r.id < 32767 := by
        rcases hroom with hnil | ⟨r, hr, hr'⟩ | hfree
        · exact absurd hnil hne
        · exact absurd hr' (hname r hr)
        · exact hfree
      obtain ⟨hrange, habove⟩ := h.next hfree
      obtain ⟨hvalid, hmap⟩ := h.loadRow (r := ⟨c.nextId, customJsonId⟩) hname
        (fun r hr ↦ (habove r hr).ne) hrange
      simp only [CustomJsonTypeCache.loadRow, le_refl, if_true] at hvalid hmap
      refine ⟨{ hvalid with },
        ⟨[⟨c.nextId, customJsonId⟩], hmap, rfl⟩, ?_⟩
      rintro id ⟨⟩
      simp [hmap]

theorem foldl_insertRow {pending : List CustomJsonType}
    (hnames : ((rows ++ pending).map CustomJsonType.customJsonId).Nodup)
    (hids : ((rows ++ pending).map CustomJsonType.id).Nodup) :
    pending.foldl insertRow rows = rows ++ pending := by
  induction pending generalizing rows with
  | nil => simp
  | cons r pending ih =>
    have hinsert : insertRow rows r = rows ++ [r] := by
      refine if_neg ?_
      simp only [List.map_append, List.map_cons, List.nodup_append, List.mem_map] at hnames hids
      simp only [List.any_eq_true, Bool.or_eq_true, beq_iff_eq, not_exists, not_and, not_or]
      exact fun r' hr' ↦ ⟨hids.2.2 _ ⟨r', hr', rfl⟩ _ (by simp),
        hnames.2.2 _ ⟨r', hr', rfl⟩ _ (by simp)⟩
    rw [List.foldl_cons, hinsert, ih (by simpa using hnames) (by simpa using hids)]
    simp

end CustomJsonTypeCache

namespace TypesState

open CustomJsonTypeCache

/-- The type id of an operation is the one under which these rows name its custom_json id. -/
def NamedBy (rows : List CustomJsonType) (o : TypedOperation) : Prop :=
  ∀ id ∈ o.typeId, ⟨id, o.customJsonId⟩ ∈ rows

variable {rows : List CustomJsonType} {s s' : TypesState} {names : List Bytes}

theorem NamedBy.mono {rows' : List CustomJsonType} {o : TypedOperation}
    (h : NamedBy rows o) (hsub : rows ⊆ rows') : NamedBy rows' o :=
  fun id hid ↦ hsub (h id hid)

structure Inv (s : TypesState) : Prop where
  valid : s.cache.Valid
  perm : s.cache.mapping.Perm (s.rows ++ s.cache.pendingInserts)
  block : ∀ o ∈ s.block, NamedBy s.cache.mapping o
  cached : ∀ o ∈ s.cached, NamedBy s.rows o
  stored : ∀ o ∈ s.stored, NamedBy s.rows o

theorem inv_initial : initial.Inv :=
  ⟨valid_empty, .refl _, by simp [initial], by simp [initial], by simp [initial]⟩

theorem Inv.rows_names (h : s.Inv) :
    ((s.rows ++ s.cache.pendingInserts).map CustomJsonType.customJsonId).Nodup :=
  (h.perm.map _).nodup_iff.1 h.valid.names

theorem Inv.rows_ids (h : s.Inv) :
    ((s.rows ++ s.cache.pendingInserts).map CustomJsonType.id).Nodup :=
  (h.perm.map _).nodup_iff.1 h.valid.ids

theorem inv_operation (h : s.Inv) {customJsonId : Bytes}
    (hroom : s.HasRoom (.operation customJsonId))
    (hstep : s.step (.operation customJsonId) = some s') : s'.Inv := by
  obtain ⟨hvalid, ⟨new, hmap, hpending⟩, hid⟩ := h.valid.getTypeId hroom
  simp only [step, Option.some.injEq] at hstep
  subst hstep
  refine ⟨hvalid, ?_, List.forall_mem_append.2 ⟨fun o ho ↦ (h.block o ho).mono ?_, ?_⟩,
    h.cached, h.stored⟩
  · simp only [hmap, hpending, ← List.append_assoc]
    exact h.perm.append_right new
  · simp [hmap]
  · simpa [NamedBy] using hid

theorem inv_applyBlock (h : s.Inv) (hstep : s.step .applyBlock = some s') : s'.Inv := by
  obtain rfl := Option.some.inj hstep
  have hrows := foldl_insertRow h.rows_names h.rows_ids
  refine ⟨⟨h.valid.names, h.valid.ids, h.valid.range, h.valid.next⟩, ?_, by simp,
    List.forall_mem_append.2 ⟨fun o ho ↦ ?_, fun o ho ↦ ?_⟩, fun o ho ↦ ?_⟩
  · simpa [hrows] using h.perm
  · exact (h.cached o ho).mono (by simp [hrows])
  · exact (h.block o ho).mono (by simpa [hrows] using h.perm.subset)
  · exact (h.stored o ho).mono (by simp [hrows])

theorem inv_restart (h : s.Inv) (hstep : s.step (.restart rows) = some s') : s'.Inv := by
  simp only [step] at hstep
  split at hstep
  case isFalse => cases hstep
  case isTrue hperm =>
    obtain rfl := Option.some.inj hstep
    have hnames := h.rows_names
    have hids := h.rows_ids
    rw [List.map_append, List.nodup_append] at hnames hids
    obtain ⟨hvalid, hmap, hpending⟩ := valid_loadFromDb
      ((hperm.map _).nodup_iff.2 hnames.1) ((hperm.map _).nodup_iff.2 hids.1) fun r hr ↦
        h.valid.range r (h.perm.mem_iff.2 (List.mem_append_left _ (hperm.mem_iff.1 hr)))
    refine ⟨hvalid, ?_, by simp, by simp, h.stored⟩
    simpa [hmap, hpending] using hperm

theorem inv_step {st : Step} (h : s.Inv) (hroom : s.HasRoom st)
    (hstep : s.step st = some s') : s'.Inv := by
  cases st with
  | operation customJsonId => exact inv_operation h hroom hstep
  | failBlock =>
    obtain rfl := Option.some.inj hstep
    exact ⟨h.valid, h.perm, by simp, h.cached, h.stored⟩
  | applyBlock => exact inv_applyBlock h hstep
  | dump n =>
    obtain rfl := Option.some.inj hstep
    exact ⟨h.valid, h.perm, h.block, fun o ho ↦ h.cached o (List.mem_of_mem_drop ho),
      List.forall_mem_append.2 ⟨h.stored, fun o ho ↦ h.cached o (List.mem_of_mem_take ho)⟩⟩
  | switchFork n =>
    obtain rfl := Option.some.inj hstep
    exact ⟨h.valid, h.perm, h.block, fun o ho ↦ h.cached o (List.mem_of_mem_take ho), h.stored⟩
  | restart rows => exact inv_restart h hstep

theorem Reachable.inv (h : Reachable s) : s.Inv := by
  induction h with
  | initial => exact inv_initial
  | step hs hstep hroom ih => exact inv_step ih hroom hstep

/-- New ids in the order in which they are handed out from `next` on. -/
def numbered : ℤ → List Bytes → List CustomJsonType
  | _, [] => []
  | next, name :: names => ⟨next, name⟩ :: numbered (next + 1) names

end TypesState

end HiveForkManager
