import HiveForkManager.Indexes

namespace HiveForkManager

open ExceptList IndexState

inductive IndexCall where
  | register (contextName commandText : String) (parsed : Option CreateIndex)
  | removeDependency (id : ℕ) (tableName name : String)
  | removeDependencies (contextName : String)
  | saveAndDrop (tableName : String) (keepMonotonic : Bool)
  | restore (tableName : String)
  deriving DecidableEq, Repr

structure IndexSession extends IndexState where
  registered : List ((String × String) × ℕ)
  deriving DecidableEq, Repr

namespace IndexSession

def execute (s : IndexState) : IndexCall → Except Error IndexState
  | .register contextName commandText parsed =>
    s.registerIndexDependency contextName commandText parsed
  | .removeDependency id tableName name => s.removeIndexDependency id tableName name
  | .removeDependencies contextName => s.removeIndexDependencies contextName
  | .saveAndDrop tableName keepMonotonic => s.saveAndDropIndexesConstraints tableName keepMonotonic
  | .restore tableName => s.restoreIndexes tableName

def registeredAfter (s : IndexSession) : IndexCall → List ((String × String) × ℕ)
  | .register contextName _ parsed =>
    match s.contextId contextName, parsed with
    | .ok id, some c => ((c.tableName, c.indexName), id) :: s.registered
    | _, _ => s.registered
  | .removeDependency id tableName name =>
    s.registered.filter (fun x ↦ decide (x ≠ ((tableName, name), id)))
  | .removeDependencies contextName =>
    match s.contextId contextName with
    | .ok id => s.registered.filter (fun x ↦ decide (x.2 ≠ id))
    | .error _ => s.registered
  | .saveAndDrop _ _ | .restore _ => s.registered

def step (s : IndexSession) (call : IndexCall) : IndexSession :=
  match execute s.toIndexState call with
  | .error _ => s
  | .ok s' => { s' with registered := s.registeredAfter call }

/-- An application registers an index of HAF only after hived has recorded it, and no index under a
name that an index or a row of another table has; the ids of contexts are not 0. -/
def Legal (core : List (String × String)) (s : IndexSession) : IndexCall → Prop
  | .register _ _ (some c) =>
    ((c.tableName, c.indexName) ∈ core → (c.tableName, c.indexName) ∈ s.rows.map IndexRow.key) ∧
      (∀ r ∈ s.rows, r.name = c.indexName → r.tableName = c.tableName) ∧
      ∀ p ∈ s.pg, p.name = c.indexName → p.tableName = c.tableName
  | .removeDependency id _ _ => id ≠ 0
  | _ => True

structure Start (core : List (String × String)) (s : IndexSession) : Prop where
  rows : s.rows = []
  registered : s.registered = []
  pg : ∀ p ∈ s.pg, p.key ∈ core
  names : ∀ p ∈ s.pg, ∀ p' ∈ s.pg, p.name = p'.name → p.tableName = p'.tableName
  contexts : ∀ c ∈ s.contexts, c.2 ≠ 0

inductive Reachable (core : List (String × String)) : IndexSession → Prop
  | start {s : IndexSession} (hs : s.Start core) : Reachable core s
  | step {s : IndexSession} {call : IndexCall} (hs : Reachable core s)
      (hlegal : s.Legal core call) : Reachable core (s.step call)

def Dependent (core : List (String × String)) (registered : List ((String × String) × ℕ))
    (key : String × String) (id : ℕ) : Prop :=
  (key, id) ∈ registered ∨ id = 0 ∧ key ∈ core

structure Inv (core : List (String × String)) (registered : List ((String × String) × ℕ))
    (s : IndexState) : Prop where
  keys : (s.rows.map IndexRow.key).Nodup
  listed : ∀ r ∈ s.rows, r.contexts.Nodup ∧
    ∀ id, id ∈ r.contexts ↔ Dependent core registered r.key id
  recorded : ∀ x ∈ registered, x.1 ∈ s.rows.map IndexRow.key
  tables : ∀ r ∈ s.rows, ∀ p ∈ s.pg, p.name = r.name → p.tableName = r.tableName
  rowTables : ∀ r ∈ s.rows, ∀ r' ∈ s.rows, r.name = r'.name → r.tableName = r'.tableName
  pgTables : ∀ p ∈ s.pg, ∀ p' ∈ s.pg, p.name = p'.name → p.tableName = p'.tableName
  pg : ∀ p ∈ s.pg, p.key ∈ core ∨ p.key ∈ s.rows.map IndexRow.key
  contexts : ∀ c ∈ s.contexts, c.2 ≠ 0

variable {core : List (String × String)} {registered : List ((String × String) × ℕ)}
  {s s' : IndexState}

theorem Start.inv {s : IndexSession} (h : s.Start core) : Inv core s.registered s.toIndexState where
  keys := by simp [h.rows]
  listed := by simp [h.rows]
  recorded := by simp [h.registered]
  tables := by simp [h.rows]
  rowTables := by simp [h.rows]
  pgTables := h.names
  pg p hp := Or.inl (h.pg p hp)
  contexts := h.contexts

namespace Inv

theorem map_rows (inv : Inv core registered s) {registered' : List ((String × String) × ℕ)}
    {f : IndexRow → IndexRow} (hkey : ∀ r, (f r).key = r.key)
    (hlisted : ∀ r ∈ s.rows, (f r).contexts.Nodup ∧
      ∀ id, id ∈ (f r).contexts ↔ Dependent core registered' r.key id)
    (hrecorded : ∀ x ∈ registered', x.1 ∈ s.rows.map IndexRow.key) :
    Inv core registered' { s with rows := s.rows.map f } := by
  have hkeys : (s.rows.map f).map IndexRow.key = s.rows.map IndexRow.key := by
    simp [List.map_map, Function.comp_def, hkey]
  have hname : ∀ r, (f r).name = r.name := fun r ↦ congrArg Prod.snd (hkey r)
  have htable : ∀ r, (f r).tableName = r.tableName := fun r ↦ congrArg Prod.fst (hkey r)
  refine ⟨by rw [hkeys]; exact inv.keys, ?_, by rw [hkeys]; exact hrecorded, ?_, ?_,
    inv.pgTables, by rw [hkeys]; exact inv.pg, inv.contexts⟩
  · refine List.forall_mem_map.mpr fun r hr ↦ ?_
    rw [hkey]
    exact hlisted r hr
  · refine List.forall_mem_map.mpr fun r hr ↦ ?_
    rw [hname, htable]
    exact inv.tables r hr
  · refine List.forall_mem_map.mpr fun r hr ↦ List.forall_mem_map.mpr fun r' hr' ↦ ?_
    rw [hname, hname, htable, htable]
    exact inv.rowTables r hr r' hr'

theorem congr_rows (inv : Inv core registered s) {f : IndexRow → IndexRow}
    (hkey : ∀ r, (f r).key = r.key) (hcontexts : ∀ r, (f r).contexts = r.contexts) :
    Inv core registered { s with rows := s.rows.map f } :=
  inv.map_rows hkey (fun r hr ↦ by rw [hcontexts]; exact inv.listed r hr) inv.recorded

theorem setStatus (inv : Inv core registered s) (status : IndexStatus) (which : IndexRow → Bool) :
    Inv core registered (s.setStatus status which) :=
  inv.congr_rows (fun r ↦ by split <;> rfl) (fun r ↦ by split <;> rfl)

theorem congr_pg (inv : Inv core registered s) {pg : List PgIndex}
    (hpg : ∀ p ∈ pg, p ∈ s.pg ∨ p.key ∈ s.rows.map IndexRow.key) :
    Inv core registered { s with pg } := by
  have htables : ∀ r ∈ s.rows, ∀ p ∈ pg, p.name = r.name → p.tableName = r.tableName := by
    intro r hr p hp hname
    rcases hpg p hp with hp | hp
    · exact inv.tables r hr p hp hname
    · obtain ⟨r', hr', hkey⟩ := List.mem_map.mp hp
      have hname' : r'.name = p.name := congrArg Prod.snd hkey
      have htable' : r'.tableName = p.tableName := congrArg Prod.fst hkey
      rw [← htable']
      exact inv.rowTables r' hr' r hr (hname'.trans hname)
  refine ⟨inv.keys, inv.listed, inv.recorded, htables, inv.rowTables, ?_, ?_, inv.contexts⟩
  · intro p hp p' hp' hname
    rcases hpg p hp with hp₀ | hp₀
    · rcases hpg p' hp' with hp₀' | hp₀'
      · exact inv.pgTables p hp₀ p' hp₀' hname
      · obtain ⟨r, hr, hkey⟩ := List.mem_map.mp hp₀'
        have htable : r.tableName = p'.tableName := congrArg Prod.fst hkey
        rw [← htable]
        exact htables r hr p hp (hname.trans (congrArg Prod.snd hkey).symm)
    · obtain ⟨r, hr, hkey⟩ := List.mem_map.mp hp₀
      have htable : r.tableName = p.tableName := congrArg Prod.fst hkey
      rw [← htable]
      exact (htables r hr p' hp' (hname.symm.trans (congrArg Prod.snd hkey).symm)).symm
  · intro p hp
    rcases hpg p hp with hp | hp
    · exact inv.pg p hp
    · exact Or.inr hp

theorem upsert (inv : Inv core registered s) {keepMonotonic : Bool} {proposals rows' : List IndexRow}
    (hproposals : ∀ r ∈ proposals, r.contexts = [0] ∧ ∃ p ∈ s.pg, p.key = r.key)
    (hok : upsertSaved keepMonotonic proposals s.rows = .ok rows') :
    Inv core registered { s with rows := rows' } := by
  have hkeys := nodup_upsertSaved hok inv.keys
  obtain ⟨-, rfl⟩ := upsertSaved_eq hok
  have hsaved := inv.congr_rows
    (f := fun r ↦ if r.key ∈ proposals.map IndexRow.key then r.saved keepMonotonic else r)
    (fun r ↦ by split <;> rfl) (fun r ↦ by split <;> rfl)
  have hsub : ∀ k, k ∈ s.rows.map IndexRow.key →
      k ∈ (s.rows.map (fun r ↦ if r.key ∈ proposals.map IndexRow.key then
        r.saved keepMonotonic else r) ++
        proposals.filter (fun r ↦ decide (r.key ∉ s.rows.map IndexRow.key))).map IndexRow.key := by
    intro k hk
    rw [List.map_append, map_key_saved]
    exact List.mem_append_left _ hk
  have hnew : ∀ r ∈ proposals.filter (fun r ↦ decide (r.key ∉ s.rows.map IndexRow.key)),
      r.contexts = [0] ∧ r.key ∉ s.rows.map IndexRow.key ∧ ∃ p ∈ s.pg, p.key = r.key := by
    intro r hr
    obtain ⟨hr, hfresh⟩ := List.mem_filter.mp hr
    exact ⟨(hproposals r hr).1, by simpa using hfresh, (hproposals r hr).2⟩
  refine ⟨hkeys, ?_, fun x hx ↦ hsub _ (inv.recorded x hx), ?_, ?_, inv.pgTables,
    fun p hp ↦ (inv.pg p hp).imp_right (hsub _), inv.contexts⟩
  · refine List.forall_mem_append.mpr ⟨hsaved.listed, fun r hr ↦ ?_⟩
    obtain ⟨hcontexts, hfresh, p, hp, hkey⟩ := hnew r hr
    have hcore : r.key ∈ core := by
      rcases inv.pg p hp with h | h
      · exact hkey ▸ h
      · exact absurd (hkey ▸ h) hfresh
    refine ⟨by simp [hcontexts], fun id ↦ ?_⟩
    rw [hcontexts, List.mem_singleton, Dependent]
    constructor
    · exact fun hid ↦ Or.inr ⟨hid, hcore⟩
    · rintro (hid | hid)
      · exact absurd (inv.recorded _ hid) hfresh
      · exact hid.1
  · refine List.forall_mem_append.mpr ⟨hsaved.tables, fun r hr p hp hname ↦ ?_⟩
    obtain ⟨-, -, q, hq, hkey⟩ := hnew r hr
    have htable : q.tableName = r.tableName := congrArg Prod.fst hkey
    rw [← htable]
    exact inv.pgTables p hp q hq (hname.trans (congrArg Prod.snd hkey).symm)
  · -- a new row stands for an index of the catalog, an old one agrees with the catalog
    have hagree : ∀ r ∈ proposals.filter (fun r ↦ decide (r.key ∉ s.rows.map IndexRow.key)),
        ∀ r' ∈ s.rows.map (fun r ↦ if r.key ∈ proposals.map IndexRow.key then
          r.saved keepMonotonic else r) ++
          proposals.filter (fun r ↦ decide (r.key ∉ s.rows.map IndexRow.key)),
        r.name = r'.name → r.tableName = r'.tableName := by
      intro r hr r' hr' hname
      obtain ⟨-, -, q, hq, hkey⟩ := hnew r hr
      have htable : q.tableName = r.tableName := congrArg Prod.fst hkey
      have hqname : q.name = r'.name := (congrArg Prod.snd hkey).trans hname
      rw [← htable]
      rcases List.mem_append.mp hr' with hr' | hr'
      · exact hsaved.tables r' hr' q hq hqname
      · obtain ⟨-, -, q', hq', hkey'⟩ := hnew r' hr'
        rw [inv.pgTables q hq q' hq' (hqname.trans (congrArg Prod.snd hkey').symm)]
        exact congrArg Prod.fst hkey'
    intro r hr r' hr' hname
    rcases List.mem_append.mp hr with hr₀ | hr₀
    · rcases List.mem_append.mp hr' with hr₀' | hr₀'
      · exact hsaved.rowTables r hr₀ r' hr₀' hname
      · exact (hagree r' hr₀' r hr hname.symm).symm
    · exact hagree r hr₀ r' hr' hname

variable {tableName : String} {r : IndexRow} {id : ℕ}

theorem saveAndDrop (inv : Inv core registered s) {keepMonotonic : Bool}
    (hok : s.saveAndDropIndexesConstraints tableName keepMonotonic = .ok s') :
    Inv core registered s' := by
  have hpgOf : ∀ p ∈ s.pgOf tableName, p ∈ s.pg := fun p hp ↦ (List.mem_filter.mp hp).1
  obtain ⟨rows, hrows, hok⟩ := bind_eq_ok.mp hok
  obtain ⟨rows₁, hrows₁, hrows₂⟩ := bind_eq_ok.mp hrows
  obtain ⟨pg, hpg, hok⟩ := bind_eq_ok.mp hok
  cases hok
  have h₁ := inv.upsert (fun r hr ↦ by
    obtain ⟨p, hp, rfl⟩ := List.mem_map.mp hr
    exact ⟨rfl, p, hpgOf p (List.mem_filter.mp hp).1, rfl⟩) hrows₁
  have h₂ := h₁.upsert (fun r hr ↦ by
    obtain ⟨p, hp, hr⟩ := List.mem_flatMap.mp hr
    rw [(List.mem_replicate.mp hr).2]
    exact ⟨rfl, p, hpgOf p hp, rfl⟩) hrows₂
  refine h₂.congr_pg fun p hp ↦ Or.inl ?_
  have hp' := (List.mem_filter.mp hp).1
  rw [dropIndexes_eq hpg] at hp'
  exact (List.mem_filter.mp hp').1

theorem restoreRow (inv : Inv core registered s)
    (hr : r.key ∈ s.rows.map IndexRow.key) (hok : s.restoreRow r = .ok s') :
    Inv core registered s' ∧ s'.rows.map IndexRow.key = s.rows.map IndexRow.key := by
  obtain ⟨hrows, hcontexts, hpg⟩ := restoreRow_cases hok
  have hmarked := inv.setStatus .created (fun r' ↦ r'.command = r.command)
  have hkeys := map_key_setStatus .created (fun r' ↦ r'.command = r.command) s
  have hs' : s' = { s.setStatus .created (fun r' ↦ r'.command = r.command) with pg := s'.pg } := by
    cases s'
    simp_all [IndexState.setStatus]
  refine ⟨?_, by rw [hrows, hkeys]⟩
  rw [hs']
  refine hmarked.congr_pg fun p hp ↦ ?_
  rcases hpg with ⟨-, -, hpg⟩ | ⟨-, hpg⟩
  · rw [hpg] at hp
    exact Or.inl hp
  · rw [hpg] at hp
    rcases List.mem_append.mp hp with hp | hp
    · exact Or.inl hp
    · rw [List.mem_singleton.mp hp, hkeys]
      exact Or.inr hr

theorem restoreRows (inv : Inv core registered s) {rows : List IndexRow}
    (hrows : ∀ r ∈ rows, r.key ∈ s.rows.map IndexRow.key)
    (hok : rows.foldlM (fun s r ↦ s.restoreRow r) s = .ok s') : Inv core registered s' := by
  induction rows generalizing s with
  | nil =>
    cases hok
    exact inv
  | cons r rows ih =>
    obtain ⟨s₁, hs₁, hok⟩ := bind_eq_ok.mp hok
    rw [List.forall_mem_cons] at hrows
    obtain ⟨inv₁, hkeys⟩ := inv.restoreRow hrows.1 hs₁
    exact ih inv₁ (hkeys ▸ hrows.2) hok

theorem missingRows_key (hr : r ∈ s.missingRows tableName) :
    r.key ∈ s.rows.map IndexRow.key :=
  List.mem_map_of_mem (List.mem_filter.mp hr).1

theorem recluster (inv : Inv core registered s)
    (hok : s.recluster tableName = .ok s') : Inv core registered s' := by
  rw [IndexState.recluster] at hok
  split at hok
  · cases hok
    exact inv
  split at hok
  · cases hok
    exact inv
  · rename_i r hr
    exact (inv.restoreRow (missingRows_key (List.mem_of_find?_eq_some hr)) hok).1

theorem restore (inv : Inv core registered s)
    (hok : s.restoreIndexes tableName = .ok s') : Inv core registered s' := by
  obtain ⟨s₁, hs₁, hok⟩ := bind_eq_ok.mp hok
  obtain ⟨s₂, hs₂, hok⟩ := bind_eq_ok.mp hok
  have inv₁ := inv.recluster hs₁
  rw [resetCreating_eq hs₂] at hok
  refine restoreRows ?_ (fun r hr ↦ missingRows_key hr) hok
  exact (inv₁.setStatus _ _).congr_pg fun p hp ↦ Or.inl (List.mem_filter.mp hp).1

theorem contextId_ne_zero (inv : Inv core registered s) {contextName : String}
    (hid : s.contextId contextName = .ok id) : id ≠ 0 := by
  rw [contextId] at hid
  split at hid
  · cases hid
  · rename_i c hc
    cases hid
    exact inv.contexts c (List.mem_of_find?_eq_some hc)

theorem register (inv : Inv core registered s) {contextName commandText : String} {c : CreateIndex}
    (hid : s.contextId contextName = .ok id)
    (hcore : (c.tableName, c.indexName) ∈ core →
      (c.tableName, c.indexName) ∈ s.rows.map IndexRow.key)
    (hrowTables : ∀ r ∈ s.rows, r.name = c.indexName → r.tableName = c.tableName)
    (hpgTables : ∀ p ∈ s.pg, p.name = c.indexName → p.tableName = c.tableName)
    (hok : s.registerIndexDependency contextName commandText (some c) = .ok s') :
    Inv core (((c.tableName, c.indexName), id) :: registered) s' := by
  obtain ⟨id', hid', hok⟩ := bind_eq_ok.mp hok
  obtain rfl : id = id' := Except.ok.inj (hid.symm.trans hid')
  have hzero := inv.contextId_ne_zero hid
  dsimp only at hok
  split at hok
  · rename_i hknown
    cases hok
    refine inv.map_rows (fun r ↦ by split <;> rfl) (fun r hr ↦ ?_)
      (List.forall_mem_cons.mpr ⟨hknown, inv.recorded⟩)
    obtain ⟨hnodup, hlisted⟩ := inv.listed r hr
    split
    · rename_i hnew
      refine ⟨?_, fun i ↦ ?_⟩
      · exact List.Nodup.append hnodup (List.nodup_singleton _) (by simpa using hnew.2)
      · rw [List.mem_append, List.mem_singleton, hlisted, Dependent, Dependent, hnew.1,
          List.mem_cons, Prod.mk.injEq]
        tauto
    · rename_i hold
      refine ⟨hnodup, fun i ↦ ?_⟩
      rw [hlisted, Dependent, Dependent, List.mem_cons]
      constructor
      · exact fun h ↦ h.imp_left Or.inr
      · rintro ((heq | h) | h)
        · obtain ⟨hkey, rfl⟩ := Prod.mk.inj heq
          by_contra hnot
          exact hold ⟨hkey, fun hmem ↦ hnot ((hlisted _).mp hmem)⟩
        · exact Or.inl h
        · exact Or.inr h
  · rename_i hunknown
    cases hok
    have hfresh : ∀ i, ((c.tableName, c.indexName), i) ∉ registered :=
      fun i hi ↦ hunknown (inv.recorded _ hi)
    have hcore' : (c.tableName, c.indexName) ∉ core := fun h ↦ hunknown (hcore h)
    refine ⟨?_, ?_, ?_, ?_, ?_, inv.pgTables, ?_, inv.contexts⟩
    · rw [List.map_append]
      exact List.Nodup.append inv.keys (List.nodup_singleton _)
        (List.disjoint_singleton.mpr hunknown)
    · refine List.forall_mem_append.mpr ⟨fun r hr ↦ ?_, ?_⟩
      · obtain ⟨hnodup, hlisted⟩ := inv.listed r hr
        refine ⟨hnodup, fun i ↦ (hlisted i).trans ?_⟩
        have hne : (r.key, i) ≠ ((c.tableName, c.indexName), id) :=
          fun h ↦ hunknown ((Prod.mk.inj h).1 ▸ List.mem_map_of_mem hr)
        simp only [Dependent, List.mem_cons, hne, false_or]
      · intro r hr
        rw [List.mem_singleton.mp hr]
        refine ⟨List.nodup_singleton _, fun i ↦ ?_⟩
        simp only [Dependent, IndexRow.key, List.mem_cons, Prod.mk.injEq,
          true_and, hfresh, hcore', and_false, or_false]
        simp
    · rw [List.map_append]
      refine List.forall_mem_cons.mpr ⟨by simp [IndexRow.key], fun x hx ↦ ?_⟩
      exact List.mem_append_left _ (inv.recorded x hx)
    · refine List.forall_mem_append.mpr ⟨inv.tables, ?_⟩
      simpa using hpgTables
    · intro r hr r' hr' hname
      rcases List.mem_append.mp hr with hr | hr <;> rcases List.mem_append.mp hr' with hr' | hr'
      · exact inv.rowTables r hr r' hr' hname
      · rw [List.mem_singleton.mp hr'] at hname ⊢
        exact hrowTables r hr hname
      · rw [List.mem_singleton.mp hr] at hname ⊢
        exact (hrowTables r' hr' hname.symm).symm
      · rw [List.mem_singleton.mp hr, List.mem_singleton.mp hr']
    · intro p hp
      rw [List.map_append]
      exact (inv.pg p hp).imp_right (List.mem_append_left _)

theorem remove_listed (inv : Inv core registered s) (hid : id ≠ 0)
    (tableName name : String) : ∀ r ∈ s.rows,
    (if r.key = (tableName, name) then
        ({ r with contexts := r.contexts.filter (· ≠ id) } : IndexRow) else r).contexts.Nodup ∧
      ∀ i, i ∈ (if r.key = (tableName, name) then
        ({ r with contexts := r.contexts.filter (· ≠ id) } : IndexRow) else r).contexts ↔
        Dependent core (registered.filter (fun x ↦ decide (x ≠ ((tableName, name), id)))) r.key i := by
  intro r hr
  obtain ⟨hnodup, hlisted⟩ := inv.listed r hr
  split
  · rename_i hkey
    refine ⟨hnodup.filter _, fun i ↦ ?_⟩
    rw [List.mem_filter, hlisted, Dependent, Dependent, List.mem_filter, hkey]
    simp only [ne_eq, decide_eq_true_eq, Prod.mk.injEq, true_and]
    constructor
    · rintro ⟨h | h, hne⟩
      · exact Or.inl ⟨h, by simpa using hne⟩
      · exact Or.inr h
    · rintro (⟨h, hne⟩ | ⟨rfl, h⟩)
      · exact ⟨Or.inl h, by simpa using hne⟩
      · exact ⟨Or.inr ⟨rfl, h⟩, by simpa using Ne.symm hid⟩
  · rename_i hkey
    refine ⟨hnodup, fun i ↦ (hlisted i).trans ?_⟩
    simp [Dependent, hkey]

theorem delete_row (inv : Inv core registered s) (hr : r ∈ s.rows) (hempty : r.contexts = []) :
    Inv core registered { s with
      rows := s.rows.filter (fun r' ↦ decide (r'.key ≠ r.key))
      pg := s.pg.filter (fun p ↦ decide (p.name ∉ [r.name])) } := by
  have hkept : ∀ k ∈ s.rows.map IndexRow.key, k ≠ r.key →
      k ∈ (s.rows.filter (fun r' ↦ decide (r'.key ≠ r.key))).map IndexRow.key := by
    intro k hk hne
    obtain ⟨r', hr', rfl⟩ := List.mem_map.mp hk
    exact List.mem_map_of_mem (List.mem_filter.mpr ⟨hr', by simpa using hne⟩)
  refine ⟨inv.keys.sublist (List.filter_sublist.map _), ?_, ?_, ?_, ?_, ?_, ?_, inv.contexts⟩
  · exact fun r' hr' ↦ inv.listed r' (List.mem_filter.mp hr').1
  · rintro ⟨k, i⟩ hx
    refine hkept k (inv.recorded _ hx) ?_
    rintro rfl
    have hmem := ((inv.listed r hr).2 i).mpr (Or.inl hx)
    rw [hempty] at hmem
    cases hmem
  · exact fun r' hr' p hp ↦
      inv.tables r' (List.mem_filter.mp hr').1 p (List.mem_filter.mp hp).1
  · exact fun r₁ h₁ r₂ h₂ ↦
      inv.rowTables r₁ (List.mem_filter.mp h₁).1 r₂ (List.mem_filter.mp h₂).1
  · exact fun p hp p' hp' ↦ inv.pgTables p (List.mem_filter.mp hp).1 p' (List.mem_filter.mp hp').1
  · intro p hp
    obtain ⟨hp, hname⟩ := List.mem_filter.mp hp
    refine (inv.pg p hp).imp_right fun h ↦ hkept _ h ?_
    intro hkey
    have hname' : p.name = r.name := congrArg Prod.snd hkey
    simp [hname'] at hname

structure Removed (id : ℕ) (tableName name : String) (s s' : IndexState) : Prop where
  dropped : ∀ p, p ∈ s'.pg ↔ p ∈ s.pg ∧ ¬ (p.name = name ∧ ∃ r ∈ s.rows,
    r.key = (tableName, name) ∧ r.contexts.filter (· ≠ id) = [])
  others : ∀ r, r.key ≠ (tableName, name) → (r ∈ s'.rows ↔ r ∈ s.rows)

theorem removeDependency (inv : Inv core registered s) (hid : id ≠ 0)
    {name : String} (hok : s.removeIndexDependency id tableName name = .ok s') :
    Inv core (registered.filter (fun x ↦ decide (x ≠ ((tableName, name), id)))) s' ∧
      Removed id tableName name s s' := by
  have hmap := inv.map_rows (f := fun r ↦ if r.key = (tableName, name) then
      { r with contexts := r.contexts.filter (· ≠ id) } else r)
    (fun r ↦ by split <;> rfl) (inv.remove_listed hid tableName name)
    (fun x hx ↦ inv.recorded x (List.mem_filter.mp hx).1)
  have hothers : ∀ r, r.key ≠ (tableName, name) →
      (r ∈ s.rows.map (fun r ↦ if r.key = (tableName, name) then
        { r with contexts := r.contexts.filter (· ≠ id) } else r) ↔ r ∈ s.rows) := by
    intro r hne
    constructor
    · intro hr
      obtain ⟨r₀, hr₀, rfl⟩ := List.mem_map.mp hr
      split at hne
      · exact absurd ‹_› hne
      · rwa [if_neg ‹_›]
    · exact fun hr ↦ List.mem_map.mpr ⟨r, hr, if_neg hne⟩
  simp only [removeIndexDependency] at hok
  split at hok
  · rename_i hnone
    cases hok
    refine ⟨hmap, fun p ↦ ?_, hothers⟩
    have hno : ∀ r ∈ s.rows, r.key ≠ (tableName, name) := by
      intro r hr hkey
      refine absurd (List.find?_eq_none.mp hnone _ (List.mem_map_of_mem hr)) ?_
      rw [if_pos hkey, not_not]
      exact decide_eq_true hkey
    exact ⟨fun hp ↦ ⟨hp, fun h ↦ h.2.elim fun r hr ↦ hno r hr.1 hr.2.1⟩, fun hp ↦ hp.1⟩
  · rename_i r' hsome
    obtain ⟨r, hr, hr'⟩ := List.mem_map.mp (List.mem_of_find?_eq_some hsome)
    have hkey' : r'.key = (tableName, name) := by simpa using List.find?_some hsome
    have hkey : r.key = (tableName, name) := by
      rw [← hkey', ← hr']
      split <;> rfl
    rw [if_pos hkey] at hr'
    have hcontexts : r'.contexts = r.contexts.filter (· ≠ id) := by rw [← hr']
    have hunique : ∀ r₂ ∈ s.rows, r₂.key = (tableName, name) → r₂ = r := fun r₂ hr₂ hkey₂ ↦
      List.inj_on_of_nodup_map inv.keys hr₂ hr (hkey₂.trans hkey.symm)
    split at hok
    · rename_i hne
      cases hok
      refine ⟨hmap, fun p ↦ ⟨fun hp ↦ ⟨hp, ?_⟩, fun hp ↦ hp.1⟩, hothers⟩
      rintro ⟨-, r₂, hr₂, hkey₂, hempty⟩
      rw [hunique r₂ hr₂ hkey₂, ← hcontexts] at hempty
      exact hne hempty
    · rename_i hempty
      rw [not_not] at hempty
      obtain ⟨pg, hpg, hok⟩ := bind_eq_ok.mp hok
      cases hok
      have hname : r'.name = name := congrArg Prod.snd hkey'
      have hdelete := hmap.delete_row (List.mem_of_find?_eq_some hsome) hempty
      rw [hkey', hname] at hdelete
      rw [dropIndexes_eq hpg]
      refine ⟨hdelete, fun p ↦ ?_, fun r₂ hne ↦ ?_⟩
      · rw [List.mem_filter, decide_eq_true_eq, List.mem_singleton]
        refine and_congr_right fun _ ↦ not_congr ⟨fun h ↦ ⟨h, r, hr, hkey, ?_⟩, fun h ↦ h.1⟩
        rw [← hcontexts, hempty]
      · rw [List.mem_filter, decide_eq_true_eq, ← hothers r₂ hne]
        exact and_iff_left hne

theorem removeAll (inv : Inv core registered s) (hid : id ≠ 0) {rows : List IndexRow}
    (hrows : ∀ r ∈ rows, r ∈ s.rows) (hnodup : (rows.map IndexRow.key).Nodup)
    (hok : rows.foldlM (fun s r ↦ s.removeIndexDependency id r.tableName r.name) s = .ok s') :
    Inv core (registered.filter (fun x ↦ decide (x.2 = id → x.1 ∉ rows.map IndexRow.key))) s' ∧
      ∀ p, p ∈ s'.pg ↔ p ∈ s.pg ∧
        ¬ ∃ r ∈ rows, r.name = p.name ∧ r.contexts.filter (· ≠ id) = [] := by
  induction rows generalizing s registered with
  | nil =>
    cases hok
    simpa using inv
  | cons r rows ih =>
    obtain ⟨s₁, hs₁, hok⟩ := bind_eq_ok.mp hok
    rw [List.forall_mem_cons] at hrows
    rw [List.map_cons, List.nodup_cons] at hnodup
    obtain ⟨inv₁, hremoved⟩ := inv.removeDependency hid hs₁
    have hne : ∀ r' ∈ rows, r'.key ≠ r.key :=
      fun r' hr' heq ↦ hnodup.1 (heq ▸ List.mem_map_of_mem hr')
    obtain ⟨inv₂, hpg⟩ := ih inv₁
      (fun r' hr' ↦ (hremoved.others r' (hne r' hr')).mpr (hrows.2 r' hr')) hnodup.2 hok
    refine ⟨?_, fun p ↦ ?_⟩
    · rw [List.filter_filter] at inv₂
      convert inv₂ using 2
      funext x
      have hx : x ≠ ((r.tableName, r.name), id) ↔ (x.2 = id → x.1 ≠ r.key) := by
        rw [ne_eq, Prod.ext_iff]
        simp only [IndexRow.key]
        tauto
      rw [← Bool.decide_and, decide_eq_decide, hx, List.map_cons, List.mem_cons]
      tauto
    · rw [hpg, hremoved.dropped, and_assoc]
      refine and_congr_right fun _ ↦ ?_
      rw [← not_or, List.exists_mem_cons_iff]
      refine not_congr (or_congr ?_ Iff.rfl)
      constructor
      · rintro ⟨hname, r₂, hr₂, hkey, hempty⟩
        obtain rfl : r₂ = r := List.inj_on_of_nodup_map inv.keys hr₂ hrows.1 hkey
        exact ⟨hname.symm, hempty⟩
      · exact fun ⟨hname, hempty⟩ ↦ ⟨hname.symm, r, hrows.1, rfl, hempty⟩

theorem step {s : IndexSession} {call : IndexCall} (inv : Inv core s.registered s.toIndexState)
    (hlegal : s.Legal core call) :
    Inv core (s.step call).registered (s.step call).toIndexState := by
  rw [IndexSession.step]
  split
  · exact inv
  · rename_i s' hok
    cases call with
    | register contextName commandText parsed =>
      cases parsed with
      | none =>
        obtain ⟨id, -, hok⟩ := bind_eq_ok.mp hok
        cases hok
      | some c =>
        replace hok : s.toIndexState.registerIndexDependency contextName commandText (some c) =
          .ok s' := hok
        obtain ⟨id, hid, -⟩ := bind_eq_ok.mp hok
        simp only [registeredAfter, hid]
        exact inv.register hid hlegal.1 hlegal.2.1 hlegal.2.2 hok
    | removeDependency id tableName name => exact (inv.removeDependency hlegal hok).1
    | removeDependencies contextName =>
      obtain ⟨id, hid, hok⟩ := bind_eq_ok.mp hok
      have hall := (inv.removeAll (inv.contextId_ne_zero hid)
        (fun r hr ↦ (List.mem_filter.mp hr).1)
        (inv.keys.sublist (List.filter_sublist.map _)) hok).1
      simp only [registeredAfter, hid]
      convert hall using 1
      refine List.filter_congr fun x hx ↦ ?_
      rw [decide_eq_decide]
      refine ⟨fun hne heq ↦ absurd heq hne, fun himp heq ↦ himp heq ?_⟩
      obtain ⟨r, hr, hkey⟩ := List.mem_map.mp (inv.recorded x hx)
      refine List.mem_map.mpr ⟨r, List.mem_filter.mpr ⟨hr, ?_⟩, hkey⟩
      refine decide_eq_true (((inv.listed r hr).2 id).mpr (Or.inl ?_))
      rw [hkey, ← heq]
      exact hx
    | saveAndDrop tableName keepMonotonic => exact inv.saveAndDrop hok
    | restore tableName => exact inv.restore hok

end Inv

theorem Reachable.inv {s : IndexSession} (h : Reachable core s) :
    Inv core s.registered s.toIndexState := by
  induction h with
  | start hs => exact hs.inv
  | step _ hlegal ih => exact ih.step hlegal

theorem Inv.core_contexts (inv : Inv core registered s) {r : IndexRow} (hr : r ∈ s.rows)
    (hcore : r.key ∈ core) {id : ℕ} (hid : id ≠ 0) : r.contexts.filter (· ≠ id) ≠ [] := by
  have hmem := ((inv.listed r hr).2 0).mpr (Or.inr ⟨rfl, hcore⟩)
  exact List.ne_nil_of_mem (List.mem_filter.mpr ⟨hmem, by simpa using Ne.symm hid⟩)

/-- Every row lists, once, the contexts that registered the index and did not give it up, and hived
for the indexes of HAF. A removal drops an index exactly when it leaves no context, which does not
happen to an index of HAF. -/
theorem index_dependencies_counted {s : IndexSession} (h : Reachable core s) :
    (∀ r ∈ s.rows, r.contexts.Nodup ∧
      ∀ id, id ∈ r.contexts ↔ (r.key, id) ∈ s.registered ∨ id = 0 ∧ r.key ∈ core) ∧
    (∀ x ∈ s.registered, ∃ r ∈ s.rows, r.key = x.1) ∧
    (∀ id tableName name s', id ≠ 0 →
      s.toIndexState.removeIndexDependency id tableName name = .ok s' →
      ∀ p ∈ s.pg, (p ∉ s'.pg ↔ p.name = name ∧ ∃ r ∈ s.rows, r.key = (tableName, name) ∧
        r.contexts.filter (· ≠ id) = []) ∧ (p.key ∈ core → p ∈ s'.pg)) ∧
    ∀ contextName id s', s.toIndexState.contextId contextName = .ok id →
      s.toIndexState.removeIndexDependencies contextName = .ok s' →
      ∀ p ∈ s.pg, (p ∉ s'.pg ↔ ∃ r ∈ s.rows, r.name = p.name ∧ id ∈ r.contexts ∧
        r.contexts.filter (· ≠ id) = []) ∧ (p.key ∈ core → p ∈ s'.pg) := by
  have inv := h.inv
  have hkey : ∀ r ∈ s.rows, ∀ p ∈ s.pg, r.name = p.name → r.key = p.key :=
    fun r hr p hp hname ↦ Prod.ext (inv.tables r hr p hp hname.symm).symm hname
  refine ⟨inv.listed, fun x hx ↦ ?_, ?_, ?_⟩
  · obtain ⟨r, hr, hx⟩ := List.mem_map.mp (inv.recorded x hx)
    exact ⟨r, hr, hx⟩
  · intro id tableName name s' hid hok p hp
    obtain ⟨-, hdropped, -⟩ := inv.removeDependency hid hok
    have hiff : p ∉ s'.pg ↔ p.name = name ∧ ∃ r ∈ s.rows, r.key = (tableName, name) ∧
        r.contexts.filter (· ≠ id) = [] := by
      rw [hdropped p, not_and, not_not]
      exact ⟨fun h ↦ h hp, fun h _ ↦ h⟩
    refine ⟨hiff, fun hcore ↦ ?_⟩
    by_contra hgone
    obtain ⟨hname, r, hr, hrkey, hempty⟩ := hiff.mp hgone
    have hrname : r.name = p.name := (congrArg Prod.snd hrkey).trans hname.symm
    exact inv.core_contexts hr (hkey r hr p hp hrname ▸ hcore) hid hempty
  · intro contextName id s' hid hok p hp
    obtain ⟨id', hid', hok⟩ := bind_eq_ok.mp hok
    obtain rfl : id = id' := Except.ok.inj (hid.symm.trans hid')
    have hzero := inv.contextId_ne_zero hid
    obtain ⟨-, hdropped⟩ := inv.removeAll hzero (fun r hr ↦ (List.mem_filter.mp hr).1)
      (inv.keys.sublist (List.filter_sublist.map _)) hok
    have hiff : p ∉ s'.pg ↔ ∃ r ∈ s.rows, r.name = p.name ∧ id ∈ r.contexts ∧
        r.contexts.filter (· ≠ id) = [] := by
      rw [hdropped p, not_and, not_not]
      constructor
      · intro h
        obtain ⟨r, hr, hname, hempty⟩ := h hp
        obtain ⟨hr, hmem⟩ := List.mem_filter.mp hr
        exact ⟨r, hr, hname, by simpa using hmem, hempty⟩
      · rintro ⟨r, hr, hname, hmem, hempty⟩ -
        exact ⟨r, List.mem_filter.mpr ⟨hr, by simpa using hmem⟩, hname, hempty⟩
    refine ⟨hiff, fun hcore ↦ ?_⟩
    by_contra hgone
    obtain ⟨r, hr, hname, -, hempty⟩ := hiff.mp hgone
    exact inv.core_contexts hr (hkey r hr p hp hname ▸ hcore) hzero hempty

def coreIndexSession : IndexSession where
  contexts := [("app", 1)]
  rows := []
  pg := [⟨"hafd.operations", "hive_operations_block_num_id_idx", false,
    "CREATE INDEX hive_operations_block_num_id_idx ON hafd.operations USING btree (id)", true⟩]
  registered := []

def coreIndex : CreateIndex where
  indexName := "hive_operations_block_num_id_idx"
  tableName := "hafd.operations"
  command := ⟨"create index hive_operations_block_num_id_idx on hafd.operations (id)", false⟩

/-- Hived saves and drops its index, restores it, and the application registers it and gives it
up. -/
theorem saved_core_index_survives :
    ∃ s, Reachable [("hafd.operations", "hive_operations_block_num_id_idx")] s ∧
      s.rows.map IndexRow.contexts = [[0, 1]] ∧
      ∃ s', s.toIndexState.removeIndexDependencies "app" = .ok s' ∧ s'.pg = s.pg ∧ s.pg ≠ [] ∧
        ∀ p ∈ s.pg, p ∈ s'.pg := by
  have hstart : coreIndexSession.Start [("hafd.operations", "hive_operations_block_num_id_idx")] :=
    ⟨rfl, rfl, by decide, by decide, by decide⟩
  have hreach : Reachable [("hafd.operations", "hive_operations_block_num_id_idx")]
      (((coreIndexSession.step (.saveAndDrop "hafd.operations" false)).step
        (.restore "hafd.operations")).step (.register "app" "" (some coreIndex))) := by
    refine .step (.step (.step (.start hstart) trivial) trivial) ?_
    refine ⟨fun _ ↦ by decide +kernel, by decide +kernel, by decide +kernel⟩
  refine ⟨_, hreach, by decide +kernel, _, rfl, by decide +kernel, by decide +kernel, ?_⟩
  intro p hp
  refine ((index_dependencies_counted hreach).2.2.2 "app" 1 _ rfl rfl p hp).2 ?_
  revert p
  decide +kernel

/-- An application registers an index of HAF that hived has not recorded yet and gives it up again:
the index is dropped. -/
theorem unsaved_core_index_dropped :
    ((coreIndexSession.step (.register "app" "" (some coreIndex))).step
      (.removeDependencies "app")).pg = [] ∧
    (((coreIndexSession.step (.register "app" "" (some coreIndex))).step
      (.saveAndDrop "hafd.operations" true)).rows.map IndexRow.contexts) = [[1]] := by
  decide +kernel

end IndexSession

end HiveForkManager
