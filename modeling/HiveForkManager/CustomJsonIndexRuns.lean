import HiveForkManager.CustomJsonIndexes

namespace HiveForkManager.TypeIndexState

open ExceptList IndexState

variable {md5 : String → String} {asked : List (List ℕ)} {s s' s'' : TypeIndexState} {id : ℕ}
  {name : String} {ids : List ℕ}

structure Start (s : TypeIndexState) : Prop where
  requests : s.requests = []
  keys : (s.rows.map IndexRow.key).Nodup
  rows : ∀ r ∈ s.rows, isTypeIndex r.name = false
  pg : ∀ p ∈ s.pg, isTypeIndex p.name = false
  contextNames : (s.contexts.map Prod.fst).Nodup
  contextIds : (s.contexts.map Prod.snd).Nodup
  typeNames : (s.types.map Prod.fst).Nodup

def Within (asked : List (List ℕ)) (s : TypeIndexState) : Prop :=
  ∀ q ∈ s.requests, ∀ ids ∈ s.typeIds q.customJsonIds, ids ∈ asked

/-- A block request does not register a context on an index that is created while another one of
the context is created, too. -/
def NoLateRegistration (md5 : String → String) (s : TypeIndexState) : TypeIndexCall → Prop
  | .blockRequest contexts => ∀ q ∈ s.requests, q.indexName = none →
      (∃ c ∈ s.contexts, c.2 = q.contextId ∧ c.1 ∈ contexts) →
      ∀ ids ∈ s.typeIds q.customJsonIds, s.status? (typeIndexName md5 ids) = some .created →
      ∀ r ∈ s.rows, isTypeIndex r.name = true → r.name ≠ typeIndexName md5 ids →
      q.contextId ∈ r.contexts → r.status ≠ .created
  | _ => True

instance (call : TypeIndexCall) : Decidable (s.NoLateRegistration md5 call) := by
  unfold NoLateRegistration
  split <;> infer_instance

instance : Decidable (s.Within asked) := by
  unfold Within
  infer_instance

inductive Reachable (md5 : String → String) (asked : List (List ℕ))
    (P : TypeIndexState → TypeIndexCall → Prop) : TypeIndexState → Prop
  | start {s : TypeIndexState} (hs : s.Start) : Reachable md5 asked P s
  | step {s : TypeIndexState} {call : TypeIndexCall} (hs : Reachable md5 asked P s)
      (hcall : P s call) (hasked : (s.step md5 call).Within asked) :
      Reachable md5 asked P (s.step md5 call)

structure Inv (md5 : String → String) (asked : List (List ℕ)) (s : TypeIndexState) : Prop where
  keys : (s.rows.map IndexRow.key).Nodup
  contextNames : (s.contexts.map Prod.fst).Nodup
  contextIds : (s.contexts.map Prod.snd).Nodup
  typeNames : (s.types.map Prod.fst).Nodup
  requestIds : (s.requests.map TypeIndexRequest.contextId).Nodup
  owners : ∀ q ∈ s.requests, q.contextId ∈ s.contexts.map Prod.snd
  named : ∀ r ∈ s.rows, isTypeIndex r.name = true → r.tableName = "hafd.operations" ∧
    r.isConstraint = false ∧
    ∃ ids ∈ asked, r.name = typeIndexName md5 ids ∧ ids ⊆ s.types.map Prod.snd
  pg : ∀ p ∈ s.pg, isTypeIndex p.name = true → p.isConstraint = false ∧ s.status? p.name ≠ none
  registered : ∀ q ∈ s.requests, ∀ name ∈ q.indexName,
    (∃ ids, s.typeIds q.customJsonIds = some ids ∧ name = typeIndexName md5 ids) ∧
      q.contextId ∈ s.contextsOf name

/-- If the index a context is registered on is created, no other one of the context is. -/
def Settled (s : TypeIndexState) (id : ℕ) : Prop :=
  ∀ q ∈ s.requests, q.contextId = id → ∀ name ∈ q.indexName, s.status? name = some .created →
    ∀ m, isTypeIndex m = true → m ≠ name → id ∈ s.contextsOf m → s.status? m ≠ some .created

def Ready (md5 : String → String) (s : TypeIndexState) (id : ℕ) : Prop :=
  ∀ q ∈ s.requests, q.contextId = id → ∀ ids ∈ s.typeIds q.customJsonIds,
    s.status? (typeIndexName md5 ids) = some .created → ∀ m, isTypeIndex m = true →
    m ≠ typeIndexName md5 ids → id ∈ s.contextsOf m → s.status? m ≠ some .created

def Superseded (s : TypeIndexState) (id : ℕ) (name : String) : Prop :=
  ∃ q ∈ s.requests, q.contextId = id ∧ ∃ m ∈ q.indexName, m ≠ name ∧
    s.status? m = some .created ∧ id ∈ s.contextsOf m

theorem Start.inv (h : s.Start) : s.Inv md5 asked where
  keys := h.keys
  contextNames := h.contextNames
  contextIds := h.contextIds
  typeNames := h.typeNames
  requestIds := by simp [h.requests]
  owners := by simp [h.requests]
  named r hr hname := by simp [h.rows r hr] at hname
  pg p hp hname := by simp [h.pg p hp] at hname
  registered := by simp [h.requests]

theorem typeIds_congr (h : s'.types = s.types) (customJsonIds : List String) :
    s'.typeIds customJsonIds = s.typeIds customJsonIds := by
  rw [typeIds, typeIds, h]

variable {customJsonIds : List String} {i : ℕ} {t : String × ℕ} {q q' : TypeIndexRequest}
variable {l : List ℕ} {m : String} {call : TypeIndexCall}

theorem mem_of_typeIds (h : s.typeIds customJsonIds = some ids)
    : i ∈ ids ↔ ∃ t ∈ s.types, t.1 ∈ customJsonIds ∧ t.2 = i := by
  rw [typeIds] at h
  split at h
  · cases h
    simp [List.mem_insertionSort, and_assoc]
  · cases h

theorem typeIds_append (hnames : (s.types.map Prod.fst).Nodup)
    (h : s.typeIds customJsonIds = some ids) (ht : t.1 ∉ s.types.map Prod.fst)
    (hs' : s'.types = s.types ++ [t]) : s'.typeIds customJsonIds = some ids := by
  have hlen := h
  rw [typeIds] at hlen
  split at hlen
  case isFalse => cases hlen
  case isTrue hlength =>
    rw [List.length_insertionSort, List.length_map] at hlength
    have hnot : t.1 ∉ customJsonIds := by
      intro hmem
      have hnodup : (t.1 :: (s.types.filter
          (fun t ↦ decide (t.1 ∈ customJsonIds))).map Prod.fst).Nodup := by
        refine List.nodup_cons.mpr ⟨fun h ↦ ht ?_, hnames.sublist (List.filter_sublist.map _)⟩
        exact (List.filter_sublist.map _).subset h
      have hsub : (t.1 :: (s.types.filter
          (fun t ↦ decide (t.1 ∈ customJsonIds))).map Prod.fst) ⊆ customJsonIds := by
        refine List.cons_subset.mpr ⟨hmem, fun n hn ↦ ?_⟩
        obtain ⟨t', ht', rfl⟩ := List.mem_map.mp hn
        exact of_decide_eq_true (List.mem_filter.mp ht').2
      have hle := (List.subperm_of_subset hnodup hsub).length_le
      rw [List.length_cons, List.length_map] at hle
      omega
    rw [typeIds, hs', List.filter_append, List.filter_singleton, decide_eq_false hnot,
      cond_false, List.append_nil]
    exact h

theorem Inv.request_eq (inv : s.Inv md5 asked) (hq : q ∈ s.requests)
    (hq' : q' ∈ s.requests) (h : q.contextId = q'.contextId) : q = q' :=
  List.inj_on_of_nodup_map inv.requestIds hq hq' h

theorem Inv.named_of_key (inv : s.Inv md5 asked) {r r' : IndexRow} (hr : r ∈ s.rows)
    (hkey : r'.key = r.key) (hconstraint : r'.isConstraint = r.isConstraint)
    (hname : isTypeIndex r'.name = true) : r'.tableName = "hafd.operations" ∧
      r'.isConstraint = false ∧ ∃ ids ∈ asked, r'.name = typeIndexName md5 ids ∧
        ids ⊆ s.types.map Prod.snd := by
  obtain ⟨htable, hname'⟩ := Prod.mk.inj hkey
  rw [hname'] at hname ⊢
  rw [htable, hconstraint]
  exact inv.named r hr hname

theorem exists_row (h : id ∈ s.contextsOf name) :
    ∃ r ∈ s.rows, r.key = ("hafd.operations", name) ∧ id ∈ r.contexts ∧
      s.status? name = some r.status := by
  obtain ⟨r, hr, hid⟩ := mem_contextsOf.mp h
  obtain ⟨hmem, hkey⟩ := row?_eq_some hr
  exact ⟨r, hmem, hkey, hid, by rw [status?, hr]; rfl⟩

theorem Settled.mono (h : s.Settled id) (hrequests : s'.requests = s.requests)
    (hcontexts : ∀ m, s'.contextsOf m ⊆ s.contextsOf m)
    (hstatus : ∀ m, s'.status? m = some .created → s.status? m = some .created) :
    s'.Settled id := by
  intro q hq hid n hn hcreated m hm hne hmem hother
  exact h q (hrequests ▸ hq) hid n hn (hstatus n hcreated) m hm hne (hcontexts m hmem)
    (hstatus m hother)

theorem Ready.settled (h : s.Ready md5 id) (inv : s.Inv md5 asked) : s.Settled id := by
  intro q hq hid name hname
  obtain ⟨⟨ids, hids, rfl⟩, -⟩ := inv.registered q hq name hname
  exact h q hq hid ids hids

/-- What `registerRequested` does when all types have ids. -/
structure Registered (id : ℕ) (name : String) (s s' : TypeIndexState) : Prop where
  indexes : Registers id name s.toIndexState s'.toIndexState
  types : s'.types = s.types
  requests : s'.requests = setIndexName id name s.requests

theorem mem_setIndexName {requests : List TypeIndexRequest}
    (h : q' ∈ setIndexName id name requests) : ∃ q ∈ requests, q'.contextId = q.contextId ∧
      q'.customJsonIds = q.customJsonIds ∧
      (q.contextId = id → q'.indexName = some name) ∧ (q.contextId ≠ id → q' = q) := by
  obtain ⟨q, hq, rfl⟩ := List.mem_map.mp h
  refine ⟨q, hq, ?_⟩
  by_cases hid : q.contextId = id <;> simp [hid]

theorem map_setIndexName (requests : List TypeIndexRequest) :
    (setIndexName id name requests).map (fun q ↦ (q.contextId, q.customJsonIds)) =
      requests.map (fun q ↦ (q.contextId, q.customJsonIds)) := by
  rw [setIndexName, List.map_map]
  refine List.map_congr_left fun q _ ↦ ?_
  rw [Function.comp_apply]
  split <;> rfl

theorem map_contextId_setIndexName (requests : List TypeIndexRequest) :
    (setIndexName id name requests).map TypeIndexRequest.contextId =
      requests.map TypeIndexRequest.contextId := by
  rw [setIndexName, List.map_map]
  refine List.map_congr_left fun q _ ↦ ?_
  rw [Function.comp_apply]
  split <;> rfl

theorem Inv.exists_registerRequested (inv : s.Inv md5 asked) (hq : q ∈ s.requests) :
    (s.typeIds q.customJsonIds = none ∧ s.registerRequested md5 q.contextId = .ok (s, false)) ∨
      ∃ ids s', s.typeIds q.customJsonIds = some ids ∧
        s.registerRequested md5 q.contextId = .ok (s', true) ∧
        Registered q.contextId (typeIndexName md5 ids) s s' := by
  have hrequest : s.request? q.contextId = some q := find?_key_of_mem inv.requestIds hq rfl
  obtain ⟨c, hc, hid⟩ := List.mem_map.mp (inv.owners q hq)
  have hcontext : s.contexts.find? (fun c ↦ decide (c.2 = q.contextId)) = some c :=
    find?_key_of_mem inv.contextIds hc hid
  have hcontextId : s.toIndexState.contextId c.1 = .ok q.contextId := by
    have hfind : s.contexts.find? (fun x ↦ decide (x.1 = c.1)) = some c :=
      find?_key_of_mem inv.contextNames hc rfl
    simp only [contextId, hfind, hid]
  cases hids : s.typeIds q.customJsonIds with
  | none =>
    refine .inl ⟨rfl, ?_⟩
    simp only [registerRequested, hrequest, hcontext, hids]
  | some ids =>
    obtain ⟨t, ht⟩ : ∃ t, s.toIndexState.registerIndexDependency c.1 (typeIndexCommand md5 ids)
        (some (createTypeIndex md5 ids)) = .ok t := by
      rw [registerIndexDependency, hcontextId]
      dsimp only [bind, Except.bind]
      split <;> exact ⟨_, rfl⟩
    have hindexes := registers_of_ok rfl hcontextId ht
    rw [indexName_createTypeIndex] at hindexes
    refine .inr ⟨ids, ⟨t, s.types, setIndexName q.contextId (typeIndexName md5 ids) s.requests⟩,
      rfl, ?_, ⟨hindexes, rfl, rfl⟩⟩
    simp only [registerRequested, hrequest, hcontext, hids, ht]
    rfl

section Registered

variable (inv : s.Inv md5 asked) {q : TypeIndexRequest} (hq : q ∈ s.requests)
  (hids : s.typeIds q.customJsonIds = some ids)
  (h : Registered q.contextId (typeIndexName md5 ids) s s')
include inv hq hids h

theorem Inv.registerOne (hasked : ids ∈ asked) : s'.Inv md5 asked where
  keys := h.indexes.keys inv.keys
  contextNames := h.indexes.contexts ▸ inv.contextNames
  contextIds := h.indexes.contexts ▸ inv.contextIds
  typeNames := h.types ▸ inv.typeNames
  requestIds := by
    rw [h.requests, map_contextId_setIndexName]
    exact inv.requestIds
  owners q' hq' := by
    rw [h.requests] at hq'
    obtain ⟨q₀, hq₀, hid, -⟩ := mem_setIndexName hq'
    rw [hid, h.indexes.contexts]
    exact inv.owners q₀ hq₀
  named r hr hname := by
    rw [h.types]
    rcases h.indexes.rows r hr with ⟨hkey, hconstraint⟩ | ⟨r₀, hr₀, hkey, hconstraint⟩
    · obtain ⟨htable, hindex⟩ := Prod.mk.inj hkey
      refine ⟨htable, hconstraint, ids, hasked, hindex, fun i hi ↦ ?_⟩
      obtain ⟨t, ht, -, rfl⟩ := (mem_of_typeIds hids).mp hi
      exact List.mem_map_of_mem ht
    · exact inv.named_of_key hr₀ hkey hconstraint hname
  pg p hp hname := by
    rw [h.indexes.pg] at hp
    obtain ⟨hconstraint, hstatus⟩ := inv.pg p hp hname
    exact ⟨hconstraint, h.indexes.status _ (.inr hstatus) ▸ hstatus⟩
  registered q' hq' n hn := by
    rw [h.requests] at hq'
    obtain ⟨q₀, hq₀, hid, hset, hthis, hother⟩ := mem_setIndexName hq'
    rw [typeIds_congr h.types, h.indexes.contextsOf]
    by_cases heq : q₀.contextId = q.contextId
    · obtain rfl := inv.request_eq hq₀ hq heq
      rw [hthis rfl, Option.mem_some_iff] at hn
      exact ⟨⟨ids, hset ▸ hids, hn.symm⟩, .inr ⟨hn.symm, hid⟩⟩
    · rw [hother heq] at hn ⊢
      obtain ⟨hnamed, hmem⟩ := inv.registered q₀ hq₀ n hn
      exact ⟨hnamed, .inl hmem⟩

omit hq hids in
theorem Inv.status_of_registered {m : String} (hm : s'.status? m = some .created) :
    s.status? m = some .created := by
  by_cases hold : m ≠ typeIndexName md5 ids ∨ s.status? m ≠ none
  · rwa [h.indexes.status m hold] at hm
  · rw [not_or, not_not, not_not] at hold
    obtain ⟨rfl, hnone⟩ := hold
    have hmissing := h.indexes.fresh hnone fun p hp hname ↦
      (inv.pg p hp (hname ▸ isTypeIndex_typeIndexName md5 ids)).2 (hname ▸ hnone)
    rw [hmissing] at hm
    cases hm

theorem Inv.ready_of_registered {i : ℕ} (hready : s.Ready md5 i) : s'.Ready md5 i := by
  intro q' hq' hid ids' hids' hcreated m hm hne hmem
  rw [h.requests] at hq'
  obtain ⟨q₀, hq₀, hid₀, hset, -⟩ := mem_setIndexName hq'
  rw [typeIds_congr h.types, hset] at hids'
  have hmem' : i ∈ s.contextsOf m := by
    refine ((h.indexes.contextsOf m i).mp hmem).resolve_right fun hnew ↦ hne ?_
    obtain rfl := inv.request_eq hq₀ hq (by rw [← hid₀, hid, hnew.2])
    rw [hids, Option.mem_some_iff] at hids'
    rw [hnew.1, hids']
  intro hother
  exact hready q₀ hq₀ (hid₀ ▸ hid) ids' hids' (inv.status_of_registered h hcreated) m hm
    hne hmem' (inv.status_of_registered h hother)

omit hq hids in
theorem Inv.settled_of_registered {i : ℕ} (hi : i ≠ q.contextId) (hsettled : s.Settled i) :
    s'.Settled i := by
  intro q' hq' hid n hn hcreated m hm hne hmem hother
  rw [h.requests] at hq'
  obtain ⟨q₀, hq₀, hid₀, -, -, hsame⟩ := mem_setIndexName hq'
  obtain rfl := hsame (by rw [← hid₀, hid]; exact hi)
  have hmem' : i ∈ s.contextsOf m :=
    ((h.indexes.contextsOf m i).mp hmem).resolve_right fun hnew ↦ hi hnew.2
  exact hsettled q' hq₀ hid n hn (inv.status_of_registered h hcreated) m hm hne hmem'
    (inv.status_of_registered h hother)

end Registered

def HasIndex (s : TypeIndexState) (id : ℕ) : Prop :=
  ∃ q ∈ s.requests, q.contextId = id ∧ q.indexName ≠ none

theorem Inv.indexName_eq (inv : s.Inv md5 asked) (hq : q ∈ s.requests)
    (hindex : s.HasIndex q.contextId) (hids : s.typeIds q.customJsonIds = some ids) :
    q.indexName = some (typeIndexName md5 ids) := by
  obtain ⟨q', hq', hid, hsome⟩ := hindex
  obtain rfl := inv.request_eq hq' hq hid
  obtain ⟨n, hn⟩ := Option.ne_none_iff_exists'.mp hsome
  obtain ⟨⟨ids', hids', rfl⟩, -⟩ := inv.registered q' hq' n hn
  rw [hn, Option.some.inj (hids'.symm.trans hids)]

structure Grows (s s' : TypeIndexState) : Prop where
  contexts : s'.contexts = s.contexts
  pg : s'.pg = s.pg
  types : s'.types = s.types
  requests : s'.requests.map (fun q ↦ (q.contextId, q.customJsonIds)) =
    s.requests.map (fun q ↦ (q.contextId, q.customJsonIds))
  contextsOf : ∀ m, s.contextsOf m ⊆ s'.contextsOf m
  hasIndex : ∀ i, s.HasIndex i → s'.HasIndex i

theorem Grows.refl (s : TypeIndexState) : Grows s s :=
  ⟨rfl, rfl, rfl, rfl, fun _ _ ↦ id, fun _ ↦ id⟩

theorem Grows.trans (h : Grows s s') (h' : Grows s' s'') : Grows s s'' :=
  ⟨h'.contexts.trans h.contexts, h'.pg.trans h.pg, h'.types.trans h.types,
    h'.requests.trans h.requests, fun m ↦ List.Subset.trans (h.contextsOf m) (h'.contextsOf m),
    fun i hi ↦ h'.hasIndex i (h.hasIndex i hi)⟩

theorem Registered.grows (h : Registered id name s s') : Grows s s' where
  contexts := h.indexes.contexts
  pg := h.indexes.pg
  types := h.types
  requests := by rw [h.requests, map_setIndexName]
  contextsOf m i hi := (h.indexes.contextsOf m i).mpr (.inl hi)
  hasIndex i hi := by
    obtain ⟨q, hq, rfl, hsome⟩ := hi
    rw [HasIndex, h.requests, setIndexName]
    refine ⟨_, List.mem_map_of_mem hq, by split <;> rfl, ?_⟩
    split
    · simp
    · exact hsome

theorem Registered.hasIndex (h : Registered id name s s')
    (hq : q ∈ s.requests) (hid : q.contextId = id) : s'.HasIndex id := by
  rw [HasIndex, h.requests, setIndexName]
  exact ⟨_, List.mem_map_of_mem hq, by rw [if_pos hid]; exact hid, by rw [if_pos hid]; simp⟩

theorem Grows.exists_request (h : Grows s s') (hq : q ∈ s.requests) :
    ∃ q' ∈ s'.requests, q'.contextId = q.contextId ∧ q'.customJsonIds = q.customJsonIds := by
  have hmem : (q.contextId, q.customJsonIds) ∈
      s'.requests.map (fun q ↦ (q.contextId, q.customJsonIds)) := by
    rw [h.requests]
    exact List.mem_map.mpr ⟨q, hq, rfl⟩
  obtain ⟨q', hq', heq⟩ := List.mem_map.mp hmem
  exact ⟨q', hq', congrArg Prod.fst heq, congrArg Prod.snd heq⟩

theorem within_congr (htypes : s'.types = s.types)
    (hrequests : s'.requests.map (fun q ↦ (q.contextId, q.customJsonIds)) =
      s.requests.map (fun q ↦ (q.contextId, q.customJsonIds))) :
    s'.Within asked ↔ s.Within asked := by
  have key : ∀ t : TypeIndexState, t.Within asked ↔
      ∀ x ∈ t.requests.map (fun q ↦ (q.contextId, q.customJsonIds)),
        ∀ ids ∈ t.typeIds x.2, ids ∈ asked := fun t ↦ by
    rw [List.forall_mem_map]
    rfl
  simp only [key, hrequests, typeIds_congr htypes]

theorem Grows.within_iff (h : Grows s s') : s'.Within asked ↔ s.Within asked :=
  within_congr h.types h.requests

theorem Inv.exists_registerAll (inv : s.Inv md5 asked) (hwithin : s.Within asked)
    (hl : ∀ i ∈ l, i ∈ s.requests.map TypeIndexRequest.contextId) :
    ∃ s', s.registerAll md5 l = .ok s' ∧ s'.Inv md5 asked ∧ Grows s s' ∧
      (∀ i ∈ l, ∀ q ∈ s.requests, q.contextId = i → s.typeIds q.customJsonIds ≠ none →
        s'.HasIndex i) ∧
      ((∀ i, s.Settled i) → (∀ i ∈ l, s.Ready md5 i) → ∀ i, s'.Settled i) := by
  induction l generalizing s with
  | nil => exact ⟨s, rfl, inv, .refl s, List.forall_mem_nil _, fun h _ ↦ h⟩
  | cons i l ih =>
    obtain ⟨q, hq, rfl⟩ := List.mem_map.mp (hl i List.mem_cons_self)
    rcases inv.exists_registerRequested hq with ⟨hnone, hok⟩ | ⟨ids, s₁, hids, hok, hreg⟩
    · obtain ⟨s₂, h₂, hinv₂, hgrows, hdepends, hsettled⟩ :=
        ih inv hwithin fun i hi ↦ hl i (List.mem_cons_of_mem _ hi)
      refine ⟨s₂, ?_, hinv₂, hgrows, ?_, fun hs hr ↦ hsettled hs fun i hi ↦
        hr i (List.mem_cons_of_mem _ hi)⟩
      · rw [registerAll, List.foldlM_cons, hok]
        exact h₂
      · refine List.forall_mem_cons.mpr ⟨fun q' hq' hid hsome ↦ ?_, hdepends⟩
        exact absurd hnone (inv.request_eq hq' hq hid ▸ hsome)
    · have hinv₁ := inv.registerOne hq hids hreg (hwithin q hq ids hids)
      have hl₁ : ∀ i ∈ l, i ∈ s₁.requests.map TypeIndexRequest.contextId := by
        rw [hreg.requests, map_contextId_setIndexName]
        exact fun i hi ↦ hl i (List.mem_cons_of_mem _ hi)
      obtain ⟨s₂, h₂, hinv₂, hgrows, hdepends, hsettled⟩ :=
        ih hinv₁ (hreg.grows.within_iff.mpr hwithin) hl₁
      refine ⟨s₂, ?_, hinv₂, hreg.grows.trans hgrows, ?_, fun hs hr ↦ hsettled (fun i ↦ ?_)
        fun i hi ↦ inv.ready_of_registered hq hids hreg (hr i (List.mem_cons_of_mem _ hi))⟩
      · rw [registerAll, List.foldlM_cons, hok]
        exact h₂
      · refine List.forall_mem_cons.mpr ⟨fun _ _ _ _ ↦ hgrows.hasIndex _ (hreg.hasIndex hq rfl),
          fun i hi q' hq' hid ↦ ?_⟩
        · obtain ⟨q₁, hq₁, hid₁, hset⟩ := hreg.grows.exists_request hq'
          have := hdepends i hi q₁ hq₁ (hid₁.trans hid)
          rwa [typeIds_congr hreg.types, hset] at this
      · by_cases hi : i = q.contextId
        · rw [hi]
          exact (inv.ready_of_registered hq hids hreg (hr _ List.mem_cons_self)).settled hinv₁
        · exact inv.settled_of_registered hreg hi (hs i)

section Statuses

variable {t t' : IndexState} (h : t'.status? name = t.status? name ∨ t'.status? name = none)
include h

theorem created_of_status (hname : t'.status? name = some .created) :
    t.status? name = some .created := by
  rcases h with heq | hnone
  · rwa [heq] at hname
  · rw [hnone] at hname
    cases hname

theorem status_of_mem (hmem : id ∈ t'.contextsOf name) : t'.status? name = t.status? name := by
  refine h.resolve_right fun hnone ↦ ?_
  rw [contextsOf_eq_nil_of_status hnone] at hmem
  cases hmem

end Statuses

structure Releases (s s' : TypeIndexState) : Prop where
  requests : s'.requests = s.requests
  types : s'.types = s.types
  contextsOf : ∀ m, s'.contextsOf m ⊆ s.contextsOf m
  status : ∀ m, s'.status? m = s.status? m ∨ s'.status? m = none
  kept : ∀ m, ∀ i ∈ s.contextsOf m, i ∈ s'.contextsOf m ∨ s'.Superseded i m
  dropped : ∀ p ∈ s.pg, p ∈ s'.pg ∨ s'.contextsOf p.name = []

theorem Releases.status_created (h : Releases s s')
    (hm : s'.status? m = some .created) : s.status? m = some .created :=
  created_of_status (h.status m) hm

theorem Releases.settled (h : Releases s s') (hsettled : s.Settled i) : s'.Settled i :=
  hsettled.mono h.requests h.contextsOf fun _ ↦ h.status_created

theorem Inv.superseded_of_releases (inv : s'.Inv md5 asked) (h : Releases s s')
    (hm : s.Superseded i m) : s'.Superseded i m := by
  obtain ⟨q, hq, rfl, n, hn, hne, hcreated, -⟩ := hm
  rw [← h.requests] at hq
  have hmem := (inv.registered q hq n hn).2
  exact ⟨q, hq, rfl, n, hn, hne, (status_of_mem (h.status n) hmem).trans hcreated, hmem⟩

theorem Releases.refl (s : TypeIndexState) : Releases s s :=
  ⟨rfl, rfl, fun _ _ ↦ id, fun _ ↦ .inl rfl, fun _ _ ↦ .inl, fun _ ↦ .inl⟩

theorem Releases.trans (h : Releases s s') (h' : Releases s' s'') (inv : s''.Inv md5 asked) :
    Releases s s'' where
  requests := h'.requests.trans h.requests
  types := h'.types.trans h.types
  contextsOf m := List.Subset.trans (h'.contextsOf m) (h.contextsOf m)
  status m := by
    rcases h'.status m with heq | hnone
    · rw [heq]
      exact h.status m
    · exact .inr hnone
  kept m i hi := by
    rcases h.kept m i hi with hi | hsup
    · exact h'.kept m i hi
    · exact .inr (inv.superseded_of_releases h' hsup)
  dropped p hp := by
    rcases h.dropped p hp with hp | hnil
    · exact h'.dropped p hp
    · exact .inr (List.subset_nil.mp (hnil ▸ h'.contextsOf p.name))

theorem Inv.removes (inv : s.Inv md5 asked) {names : List String} {t : IndexState}
    (h : Removes id names s.toIndexState t)
    (hnames : ∀ q ∈ s.requests, q.contextId = id → ∀ name ∈ q.indexName, name ∉ names) :
    Inv md5 asked { s with toIndexState := t } where
  keys := h.keys
  contextNames := h.contexts ▸ inv.contextNames
  contextIds := h.contexts ▸ inv.contextIds
  typeNames := inv.typeNames
  requestIds := inv.requestIds
  owners := h.contexts ▸ inv.owners
  named r' hr' hname := by
    obtain ⟨r, hr, hkey, hconstraint⟩ := h.rows r' hr'
    exact inv.named_of_key hr hkey hconstraint hname
  pg p hp hname := by
    obtain ⟨hp, hstatus⟩ := h.pg p hp
    exact ⟨(inv.pg p hp hname).1, hstatus ▸ (inv.pg p hp hname).2⟩
  registered q hq n hn := by
    obtain ⟨hnamed, hmem⟩ := inv.registered q hq n hn
    exact ⟨hnamed, (h.contextsOf n _).mpr ⟨hmem, fun hthis ↦ hnames q hq hthis.2 n hn hthis.1⟩⟩

theorem Inv.mem_superseded (inv : s.Inv md5 asked) (hq : q ∈ s.requests)
    {n : String} (hn : q.indexName = some n) :
    m ∈ s.superseded q.contextId ↔ s.status? n = some .created ∧ isTypeIndex m = true ∧ m ≠ n ∧
      q.contextId ∈ s.contextsOf m ∧ s.status? m ≠ some .creating := by
  have hrequest : s.request? q.contextId = some q := find?_key_of_mem inv.requestIds hq rfl
  have hname : (s.request? q.contextId).bind TypeIndexRequest.indexName = some n := by
    rw [hrequest, Option.bind_some, hn]
  rw [superseded, hname]
  dsimp only
  split
  case isFalse hstatus => simp [hstatus]
  case isTrue hstatus =>
    rw [List.mem_map]
    constructor
    · rintro ⟨r, hr, rfl⟩
      obtain ⟨hr, hwhich⟩ := List.mem_filter.mp hr
      obtain ⟨htable, hindex, hne, hcreating, hmem⟩ := of_decide_eq_true hwhich
      have hrow : s.row? r.name = some r := row?_of_mem inv.keys hr (by rw [IndexRow.key, htable])
      refine ⟨hstatus, hindex, hne, mem_contextsOf.mpr ⟨r, hrow, hmem⟩, ?_⟩
      rw [status?, hrow]
      simpa using hcreating
    · rintro ⟨-, hindex, hne, hmem, hcreating⟩
      obtain ⟨r, hr, hkey, hid, hr_status⟩ := exists_row hmem
      obtain ⟨htable, rfl⟩ := Prod.mk.inj hkey
      refine ⟨r, List.mem_filter.mpr ⟨hr, decide_eq_true ⟨htable, hindex, hne, ?_, hid⟩⟩, rfl⟩
      rw [hr_status] at hcreating
      simpa using hcreating

theorem superseded_eq_nil
    (h : ∀ q ∈ s.requests, q.contextId = id → q.indexName = none) : s.superseded id = [] := by
  have hname : (s.request? id).bind TypeIndexRequest.indexName = none := by
    rw [request?]
    cases hfind : s.requests.find? (fun q ↦ decide (q.contextId = id)) with
    | none => rfl
    | some q =>
      exact h q (List.mem_of_find?_eq_some hfind) (by simpa using List.find?_some hfind)
  rw [superseded, hname]

theorem Inv.exists_releaseSuperseded (inv : s.Inv md5 asked) (id : ℕ) :
    ∃ s', s.releaseSuperseded id = .ok s' ∧ s'.Inv md5 asked ∧ Releases s s' ∧ s'.Settled id := by
  have hnames : ∀ m ∈ s.superseded id, isTypeIndex m = true ∧ ∃ q ∈ s.requests,
      q.contextId = id ∧ ∃ n ∈ q.indexName, m ≠ n ∧ s.status? n = some .created := by
    intro m hm
    by_cases hnone : ∀ q ∈ s.requests, q.contextId = id → q.indexName = none
    · rw [superseded_eq_nil hnone] at hm
      cases hm
    · simp only [not_forall] at hnone
      obtain ⟨q, hq, rfl, hsome⟩ := hnone
      obtain ⟨n, hn⟩ := Option.ne_none_iff_exists'.mp hsome
      obtain ⟨hcreated, hindex, hne, -⟩ := (inv.mem_superseded hq hn).mp hm
      exact ⟨hindex, q, hq, rfl, n, hn, hne, hcreated⟩
  obtain ⟨t, ht, hremoves⟩ := exists_removeAll id inv.keys
    fun p hp hname ↦ (inv.pg p hp (hnames _ hname).1).1
  have hinv : Inv md5 asked { s with toIndexState := t } := by
    refine inv.removes hremoves fun q hq hid n hn hmem ↦ ?_
    obtain ⟨-, q', hq', hid', n', hn', hne, -⟩ := hnames n hmem
    obtain rfl := inv.request_eq hq hq' (hid.trans hid'.symm)
    rw [hn] at hn'
    exact hne (Option.some.inj hn')
  refine ⟨{ s with toIndexState := t }, by rw [releaseSuperseded, ht]; rfl, hinv, ?_, ?_⟩
  · refine ⟨rfl, rfl, fun m i hi ↦ ((hremoves.contextsOf m i).mp hi).1, hremoves.status,
      fun m i hi ↦ ?_, hremoves.dropped⟩
    by_cases hthis : m ∈ s.superseded id ∧ i = id
    · obtain ⟨hmem, rfl⟩ := hthis
      obtain ⟨-, q, hq, hid, n, hn, hne, hcreated⟩ := hnames m hmem
      have hdepends := (hinv.registered q hq n hn).2
      exact .inr ⟨q, hq, hid, n, hn, hne.symm,
        (status_of_mem (hremoves.status n) hdepends).trans hcreated, hid ▸ hdepends⟩
    · exact .inl ((hremoves.contextsOf m i).mpr ⟨hi, hthis⟩)
  · rintro q hq rfl n hn hcreated m hm hne hmem hother
    obtain ⟨hmem, hnot⟩ := (hremoves.contextsOf m _).mp hmem
    have hstatus : ∀ m, t.status? m = some .created → s.status? m = some .created := fun m ↦
      created_of_status (hremoves.status m)
    refine hnot ⟨(inv.mem_superseded hq hn).mpr ⟨hstatus n hcreated, hm, hne, hmem, ?_⟩, rfl⟩
    rw [hstatus m hother]
    simp

theorem Inv.onIndexCreated (inv : s.Inv md5 asked) (hsettled : ∀ i, i ∉ l → s.Settled i) :
    (s.onIndexCreated l).Inv md5 asked ∧ Releases s (s.onIndexCreated l) ∧
      ∀ i, (s.onIndexCreated l).Settled i := by
  induction l generalizing s with
  | nil => exact ⟨inv, .refl s, fun i ↦ hsettled i List.not_mem_nil⟩
  | cons id l ih =>
    obtain ⟨s₁, h₁, hinv₁, hrel₁, hset₁⟩ := inv.exists_releaseSuperseded id
    have hsettled₁ : ∀ i, i ∉ l → s₁.Settled i := by
      intro i hi
      by_cases heq : i = id
      · exact heq ▸ hset₁
      · exact hrel₁.settled (hsettled i (by simp [heq, hi]))
    have heq : s.onIndexCreated (id :: l) = s₁.onIndexCreated l := by
      rw [TypeIndexState.onIndexCreated, List.foldl_cons, h₁]
      rfl
    obtain ⟨hinv₂, hrel₂, hset₂⟩ := ih hinv₁ hsettled₁
    rw [heq]
    exact ⟨hinv₂, hrel₁.trans hrel₂ hinv₂, hset₂⟩

structure Advanced (md5 : String → String) (asked : List (List ℕ)) (call : TypeIndexCall)
    (s s' : TypeIndexState) : Prop where
  inv : s'.Inv md5 asked
  settled : ∀ i, s'.Settled i
  kept : ∀ m, ∀ i ∈ s.contextsOf m, i ∈ s'.contextsOf m ∨ s'.Superseded i m
  dropped : ∀ p ∈ s.pg, (∀ p' ∈ s'.pg, p'.name ≠ p.name) →
    call = .buildFailed p.name ∨ s'.contextsOf p.name = []

theorem Advanced.refl (inv : s.Inv md5 asked)
    (hsettled : ∀ i, s.Settled i) : Advanced md5 asked call s s :=
  ⟨inv, hsettled, fun _ _ ↦ .inl, fun p hp hnone ↦ absurd rfl (hnone p hp)⟩

theorem Advanced.of_grows (inv : s'.Inv md5 asked)
    (hsettled : ∀ i, s'.Settled i) (h : Grows s s') : Advanced md5 asked call s s' :=
  ⟨inv, hsettled, fun m _ hi ↦ .inl (h.contextsOf m hi),
    fun p hp hnone ↦ absurd rfl (hnone p (h.pg ▸ hp))⟩

theorem Inv.marked (inv : s.Inv md5 asked) {t : IndexState} (hcontexts : t.contexts = s.contexts)
    {status : IndexStatus} (hrows : t.rows = (s.markByName status name).rows)
    (hpg : ∀ p ∈ t.pg, isTypeIndex p.name = true →
      p.isConstraint = false ∧ s.status? p.name ≠ none) :
    Inv md5 asked { s with toIndexState := t } where
  keys := by
    rw [show TypeIndexState.toIndexState _ = t from rfl, hrows, keys_markByName]
    exact inv.keys
  contextNames := hcontexts ▸ inv.contextNames
  contextIds := hcontexts ▸ inv.contextIds
  typeNames := inv.typeNames
  requestIds := inv.requestIds
  owners := hcontexts ▸ inv.owners
  named r' hr' hname := by
    have hmem : r' ∈ (s.markByName status name).rows := hrows ▸ hr'
    obtain ⟨r, hr, rfl⟩ := List.mem_map.mp hmem
    refine inv.named_of_key hr ?_ ?_ hname
    · split <;> rfl
    · split <;> rfl
  pg p hp hname := by
    obtain ⟨hconstraint, hstatus⟩ := hpg p hp hname
    refine ⟨hconstraint, ?_⟩
    rw [show TypeIndexState.toIndexState _ = t from rfl, status?_congr hrows, status?_markByName]
    split
    · rwa [Ne, Option.map_eq_none_iff]
    · exact hstatus
  registered q hq n hn := by
    obtain ⟨hnamed, hmem⟩ := inv.registered q hq n hn
    refine ⟨hnamed, ?_⟩
    rw [show TypeIndexState.toIndexState _ = t from rfl, contextsOf_congr hrows,
      contextsOf_markByName]
    exact hmem

section Marks

variable {t : IndexState} {status : IndexStatus} (hrows : t.rows = (s.markByName status name).rows)
include hrows

theorem contextsOf_of_marked (m : String) : t.contextsOf m = s.contextsOf m :=
  (contextsOf_congr hrows).trans (contextsOf_markByName status m)

theorem settled_of_marked (hstatus : status ≠ .created) {i : ℕ} (hsettled : s.Settled i) :
    Settled { s with toIndexState := t } i := by
  refine hsettled.mono rfl (fun m i hi ↦ contextsOf_of_marked hrows m ▸ hi) fun m hm ↦ ?_
  have hm : t.status? m = some .created := hm
  rw [status?_congr hrows, status?_markByName] at hm
  split at hm
  · obtain ⟨_, -, heq⟩ := Option.map_eq_some_iff.mp hm
    exact absurd heq hstatus
  · exact hm

end Marks

theorem Inv.startBuild (inv : s.Inv md5 asked) (hsettled : ∀ i, s.Settled i) (name : String) :
    Advanced md5 asked (.buildStarted name) s (s.startBuild name) := by
  rw [TypeIndexState.startBuild]
  split
  case h_1 => exact .refl inv hsettled
  case h_2 r hrow =>
    split
    case isFalse => exact .refl inv hsettled
    case isTrue =>
      obtain ⟨hr, hkey⟩ := row?_eq_some hrow
      obtain ⟨t, ht⟩ : ∃ t, t = if s.pg.any (fun p ↦ decide (p.name = name)) = true then
        s.toIndexState.markByName .creating name
        else (s.toIndexState.markByName .creating name).beginBuild name r := ⟨_, rfl⟩
      dsimp only
      rw [← ht]
      have hrows : t.rows = (s.markByName .creating name).rows := by
        rw [ht]
        split <;> rfl
      have hpg : ∀ p ∈ t.pg, p ∈ s.pg ∨ p.name = r.name ∧ p.isConstraint = r.isConstraint := by
        rw [ht]
        split
        · exact fun p ↦ .inl
        · intro p hp
          rcases List.mem_append.mp hp with hp | hp
          · exact .inl hp
          · rw [List.mem_singleton.mp hp]
            exact .inr ⟨(congrArg Prod.snd hkey).symm, rfl⟩
      have hsub : s.pg ⊆ t.pg := by
        rw [ht]
        split
        · exact fun _ ↦ id
        · exact List.subset_append_left _ _
      refine ⟨inv.marked (by rw [ht]; split <;> rfl) hrows fun p hp hname ↦ ?_,
        fun i ↦ settled_of_marked hrows (by decide) (hsettled i), fun m i hi ↦ .inl ?_,
        fun p hp hnone ↦ absurd rfl (hnone p (hsub hp))⟩
      · rcases hpg p hp with hp | ⟨hname', hconstraint⟩
        · exact inv.pg p hp hname
        · rw [hname'] at hname ⊢
          refine ⟨hconstraint.trans (inv.named r hr hname).2.1, ?_⟩
          rw [show r.name = name from congrArg Prod.snd hkey, status?, hrow]
          simp
      · exact (contextsOf_of_marked hrows m).symm ▸ hi

theorem Inv.failBuild (inv : s.Inv md5 asked) (hsettled : ∀ i, s.Settled i)
    (hok : s.failBuild name = .ok s') : Advanced md5 asked (.buildFailed name) s s' := by
  rw [TypeIndexState.failBuild] at hok
  split at hok
  case isFalse =>
    cases hok
    exact .refl inv hsettled
  case isTrue =>
    obtain ⟨pg, hpg, hok⟩ := bind_eq_ok.mp hok
    cases hok
    have hrows : (⟨s.contexts, (s.markByName .missing name).rows, pg⟩ : IndexState).rows =
        (s.markByName .missing name).rows := rfl
    have hmem : ∀ p, p ∈ pg ↔ p ∈ s.pg ∧ p.name ≠ name := by
      intro p
      rw [dropIndexes_eq hpg, List.mem_filter, decide_eq_true_eq, List.mem_singleton]
    refine ⟨inv.marked rfl hrows fun p hp ↦ inv.pg p ((hmem p).mp hp).1,
      fun i ↦ settled_of_marked hrows (by decide) (hsettled i),
      fun m i hi ↦ .inl ((contextsOf_of_marked hrows m).symm ▸ hi), fun p hp hnone ↦ .inl ?_⟩
    by_contra hne
    refine hnone p ((hmem p).mpr ⟨hp, fun h ↦ hne ?_⟩) rfl
    rw [h]

theorem Inv.completeBuild (inv : s.Inv md5 asked) (hsettled : ∀ i, s.Settled i) (name : String) :
    Advanced md5 asked (.buildCompleted name) s (s.completeBuild name) := by
  rw [TypeIndexState.completeBuild]
  split
  case isFalse => exact .refl inv hsettled
  case isTrue =>
    obtain ⟨t, ht⟩ : ∃ t, t = (s.toIndexState.validate name).markByName .created name := ⟨_, rfl⟩
    rw [← ht]
    have hrows : t.rows = (s.markByName .created name).rows := by rw [ht]; rfl
    have hpg : t.pg = (s.toIndexState.validate name).pg := by rw [ht]; rfl
    have hinv : Inv md5 asked { s with toIndexState := t } := by
      refine inv.marked (by rw [ht]; rfl) hrows fun p' hp' hname ↦ ?_
      rw [hpg] at hp'
      obtain ⟨p, hp, rfl⟩ := List.mem_map.mp hp'
      have heq : ∀ p : PgIndex, (if p.name = name then { p with valid := true } else p).name =
          p.name ∧ (if p.name = name then { p with valid := true } else p).isConstraint =
            p.isConstraint := fun p ↦ by split <;> exact ⟨rfl, rfl⟩
      rw [(heq p).1] at hname ⊢
      rw [(heq p).2]
      exact inv.pg p hp hname
    have hnames : ∀ p ∈ s.pg, ∃ p' ∈ t.pg, p'.name = p.name := by
      intro p hp
      rw [hpg]
      exact ⟨_, List.mem_map_of_mem hp, by split <;> rfl⟩
    have hothers : ∀ i, i ∉ t.contextsOf name ∨ isTypeIndex name = false →
        Settled { s with toIndexState := t } i := by
      intro i hi q hq hid n hn hcreated m hm hne hmem hother
      have hstatus : ∀ m, isTypeIndex m = true → i ∈ t.contextsOf m →
          t.status? m = s.status? m := by
        intro m hm hmem
        rw [status?_congr hrows, status?_markByName, if_neg]
        rintro rfl
        exact hi.elim (fun h ↦ h hmem) fun h ↦ by simp [h] at hm
      obtain ⟨⟨ids, -, rfl⟩, hdepends⟩ := hinv.registered q hq n hn
      refine hsettled i q hq hid _ hn ?_ m hm hne ((contextsOf_of_marked hrows m) ▸ hmem) ?_
      · rw [← hstatus _ (isTypeIndex_typeIndexName md5 ids) (hid ▸ hdepends)]
        exact hcreated
      · rw [← hstatus m hm hmem]
        exact hother
    dsimp only
    split
    case isTrue =>
      obtain ⟨hinv', hreleases, hsettled'⟩ := hinv.onIndexCreated
        (l := t.contextsOf name) fun i hi ↦ hothers i (.inl hi)
      refine ⟨hinv', hsettled', fun m i hi ↦ hreleases.kept m i ?_, fun p hp hnone ↦ .inr ?_⟩
      · exact (contextsOf_of_marked hrows m).symm ▸ hi
      · obtain ⟨p', hp', hname⟩ := hnames p hp
        rw [← hname]
        exact (hreleases.dropped p' hp').resolve_left fun h ↦ hnone p' h hname
    case isFalse hindex =>
      refine ⟨hinv, fun i ↦ hothers i (.inr (Bool.eq_false_iff.mpr hindex)), fun m i hi ↦ .inl ?_,
        fun p hp hnone ↦ ?_⟩
      · exact (contextsOf_of_marked hrows m).symm ▸ hi
      · obtain ⟨p', hp', hname⟩ := hnames p hp
        exact absurd hname (hnone p' hp')

theorem mem_upsertRequest (h : q' ∈ (s.upsertRequest id customJsonIds).requests) :
    q' ∈ s.requests ∨ q'.contextId = id ∧ q'.indexName = none := by
  rw [upsertRequest] at h
  dsimp only at h
  split at h
  · obtain ⟨q, hq, rfl⟩ := List.mem_map.mp h
    split
    case isTrue hthis => exact .inr ⟨hthis.1, rfl⟩
    case isFalse => exact .inl hq
  · rcases List.mem_append.mp h with h | h
    · exact .inl h
    · rw [List.mem_singleton.mp h]
      exact .inr ⟨rfl, rfl⟩

theorem Inv.upsertRequest (inv : s.Inv md5 asked) (hid : id ∈ s.contexts.map Prod.snd)
    (customJsonIds : List String) : (s.upsertRequest id customJsonIds).Inv md5 asked where
  keys := inv.keys
  contextNames := inv.contextNames
  contextIds := inv.contextIds
  typeNames := inv.typeNames
  requestIds := by
    rw [TypeIndexState.upsertRequest]
    dsimp only
    split
    case isTrue =>
      rw [List.map_map]
      refine Eq.subst ?_ inv.requestIds
      refine List.map_congr_left fun q _ ↦ ?_
      rw [Function.comp_apply]
      split <;> rfl
    case isFalse hnew =>
      rw [List.map_append]
      exact List.Nodup.append inv.requestIds (List.nodup_singleton _)
        (List.disjoint_singleton.mpr hnew)
  owners q hq := by
    rcases mem_upsertRequest hq with hq | ⟨hq, -⟩
    · exact inv.owners q hq
    · rw [hq]
      exact hid
  named := inv.named
  pg := inv.pg
  registered q hq n hn := by
    rcases mem_upsertRequest hq with hq | ⟨-, hq⟩
    · exact inv.registered q hq n hn
    · rw [hq] at hn
      cases hn

theorem settled_upsertRequest (hsettled : s.Settled id) (id' : ℕ) (customJsonIds : List String) :
    (s.upsertRequest id' customJsonIds).Settled id := by
  intro q hq hid n hn
  rcases mem_upsertRequest hq with hq | ⟨-, hq⟩
  · exact hsettled q hq hid n hn
  · rw [hq] at hn
    cases hn

theorem exists_request_upsertRequest (id : ℕ) (customJsonIds : List String) :
    ∃ q ∈ (s.upsertRequest id customJsonIds).requests, q.contextId = id := by
  rw [upsertRequest]
  dsimp only
  split
  case isTrue hmem =>
    obtain ⟨q, hq, rfl⟩ := List.mem_map.mp hmem
    exact ⟨_, List.mem_map_of_mem hq, by split <;> rfl⟩
  case isFalse => exact ⟨_, List.mem_append_right _ List.mem_cons_self, rfl⟩

theorem Inv.registerAndRelease (inv : s.Inv md5 asked)
    (hq : q ∈ s.requests) (hsettled : ∀ i, i ≠ q.contextId → s.Settled i)
    (hok : (do
      let (s, _) ← s.registerRequested md5 q.contextId
      s.releaseSuperseded q.contextId) = .ok s') (hwithin : s'.Within asked) :
    Advanced md5 asked call s s' := by
  obtain ⟨⟨s₁, b⟩, h₁, h₂⟩ := bind_eq_ok.mp hok
  have hfirst : Grows s s₁ ∧ (s.Within asked → s₁.Inv md5 asked) ∧
      ∀ i, i ≠ q.contextId → s₁.Settled i := by
    rcases inv.exists_registerRequested hq with ⟨-, hreg⟩ | ⟨ids, s₂, hids, hreg, hgrows⟩
    · cases h₁.symm.trans hreg
      exact ⟨.refl _, fun _ ↦ inv, hsettled⟩
    · cases h₁.symm.trans hreg
      exact ⟨hgrows.grows, fun hw ↦ inv.registerOne hq hids hgrows (hw q hq ids hids),
        fun i hi ↦ inv.settled_of_registered hgrows hi (hsettled i hi)⟩
  obtain ⟨hgrows, hinv₁, hsettled₁⟩ := hfirst
  have hwithin₁ : s₁.Within asked := by
    obtain ⟨t, -, h₂⟩ := bind_eq_ok.mp h₂
    cases h₂
    exact hwithin
  have hinv₁ := hinv₁ (hgrows.within_iff.mp hwithin₁)
  obtain ⟨s₂, hs₂, hinv₂, hreleases, hsettled₂⟩ := hinv₁.exists_releaseSuperseded q.contextId
  cases hs₂.symm.trans h₂
  refine ⟨hinv₂, fun i ↦ ?_, fun m i hi ↦ hreleases.kept m i (hgrows.contextsOf m hi),
    fun p hp hnone ↦ .inr ?_⟩
  · by_cases hi : i = q.contextId
    · exact hi ▸ hsettled₂
    · exact hreleases.settled (hsettled₁ i hi)
  · exact (hreleases.dropped p (hgrows.pg ▸ hp)).resolve_left fun h ↦ hnone p h rfl

theorem Inv.registerTypeIndex (inv : s.Inv md5 asked) (hsettled : ∀ i, s.Settled i)
    {sessionUser contextName idsText : String} {authorized : Bool}
    {customJsonIds : List (Option String)}
    (hok : s.registerTypeIndex md5 sessionUser authorized contextName customJsonIds idsText =
      .ok s')
    (hwithin : s'.Within asked) : Advanced md5 asked call s s' := by
  rw [TypeIndexState.registerTypeIndex] at hok
  split at hok
  case h_1 => cases hok
  case h_2 c hfind =>
    split at hok
    case isTrue => cases hok
    case isFalse =>
      split at hok
      case isTrue => cases hok
      case isFalse =>
        have hid : c.2 ∈ s.contexts.map Prod.snd :=
          List.mem_map_of_mem (List.mem_of_find?_eq_some hfind)
        obtain ⟨q, hq, hqid⟩ := exists_request_upsertRequest (s := s) c.2
          (customJsonIds.reduceOption.dedup.insertionSort (· ≤ ·))
        dsimp only at hok
        rw [← hqid] at hok hid hq
        have hadvanced : Advanced md5 asked call _ s' :=
          (inv.upsertRequest hid _).registerAndRelease hq
            (fun i _ ↦ settled_upsertRequest (hsettled i) _ _) hok hwithin
        exact ⟨hadvanced.inv, hadvanced.settled, hadvanced.kept, hadvanced.dropped⟩

theorem within_of_registerRequested {b : Bool} (hok : s.registerRequested md5 id = .ok (s', b)) :
    s'.Within asked ↔ s.Within asked := by
  rw [registerRequested] at hok
  split at hok
  case h_2 => cases hok
  case h_1 =>
    split at hok
    · cases hok
      rfl
    · obtain ⟨t, -, hok⟩ := bind_eq_ok.mp hok
      cases hok
      exact within_congr rfl (map_setIndexName _)

theorem within_of_registerAll (hok : s.registerAll md5 l = .ok s') :
    s'.Within asked ↔ s.Within asked := by
  induction l generalizing s with
  | nil =>
    cases hok
    rfl
  | cons i l ih =>
    obtain ⟨s₁, h₁, hok⟩ := bind_eq_ok.mp hok
    obtain ⟨⟨s₂, b⟩, h₂, h₁⟩ := bind_eq_ok.mp h₁
    cases h₁
    exact (ih hok).trans (within_of_registerRequested h₂)

theorem Inv.ready_of_new (inv : s.Inv md5 asked)
    (hnames : ∀ a ∈ asked, ∀ b ∈ asked, typeIndexName md5 a = typeIndexName md5 b → a = b)
    (ht : ∀ t' ∈ s.types, ¬ (t'.1 = t.1 ∨ t'.2 = t.2))
    (hwithin : Within asked { s with types := s.types ++ [t] })
    (hq : q ∈ s.requests) (hmem : t.1 ∈ q.customJsonIds) :
    Ready md5 { s with types := s.types ++ [t] } q.contextId := by
  intro q' hq' hid ids hids hcreated
  obtain rfl := inv.request_eq hq' hq hid
  obtain ⟨r, hrow, -⟩ := Option.map_eq_some_iff.mp hcreated
  obtain ⟨hr, hkey⟩ := row?_eq_some hrow
  obtain ⟨-, hname⟩ := Prod.mk.inj hkey
  obtain ⟨-, -, ids', hasked, hname', hsub⟩ :=
    inv.named r hr (hname ▸ isTypeIndex_typeIndexName md5 ids)
  obtain rfl : ids' = ids :=
    hnames ids' hasked ids (hwithin q' hq' ids hids) (hname'.symm.trans hname)
  have hnew : t.2 ∈ ids' :=
    (mem_of_typeIds hids).mpr ⟨t, List.mem_append_right _ List.mem_cons_self, hmem, rfl⟩
  obtain ⟨t', ht', heq⟩ := List.mem_map.mp (hsub hnew)
  exact absurd (.inr heq) (ht t' ht')

theorem Inv.addOne (inv : s.Inv md5 asked) (ht : ∀ t' ∈ s.types, ¬ (t'.1 = t.1 ∨ t'.2 = t.2)) :
    Inv md5 asked { s with types := s.types ++ [t] } := by
  have hnew : t.1 ∉ s.types.map Prod.fst := by
    intro h
    obtain ⟨t', ht', heq⟩ := List.mem_map.mp h
    exact ht t' ht' (.inl heq)
  refine ⟨inv.keys, inv.contextNames, inv.contextIds, ?_, inv.requestIds, inv.owners,
    fun r hr hname ↦ ?_, inv.pg, fun q hq n hn ↦ ?_⟩
  · rw [List.map_append]
    exact List.Nodup.append inv.typeNames (List.nodup_singleton _)
      (List.disjoint_singleton.mpr hnew)
  · obtain ⟨htable, hconstraint, ids, hasked, hname, hsub⟩ := inv.named r hr hname
    refine ⟨htable, hconstraint, ids, hasked, hname, List.Subset.trans hsub ?_⟩
    rw [List.map_append]
    exact List.subset_append_left _ _
  · obtain ⟨⟨ids, hids, hname⟩, hmem⟩ := inv.registered q hq n hn
    exact ⟨⟨ids, typeIds_append inv.typeNames hids hnew rfl, hname⟩, hmem⟩

theorem Inv.addType (inv : s.Inv md5 asked) (hsettled : ∀ i, s.Settled i)
    (hnames : ∀ a ∈ asked, ∀ b ∈ asked, typeIndexName md5 a = typeIndexName md5 b → a = b)
    {customJsonId : String} {locked : List ℕ}
    (hok : s.addType md5 customJsonId id locked = .ok s') (hwithin : s'.Within asked) :
    Advanced md5 asked call s s' := by
  rw [TypeIndexState.addType] at hok
  split at hok
  case isTrue =>
    cases hok
    exact .refl inv hsettled
  case isFalse hnew =>
    have ht : ∀ t' ∈ s.types, ¬ (t'.1 = customJsonId ∨ t'.2 = id) := by
      simpa only [not_exists, not_and] using hnew
    have hwithin₁ := (within_of_registerAll hok).mp hwithin
    have hinv₁ : Inv md5 asked { s with types := s.types ++ [(customJsonId, id)] } :=
      inv.addOne ht
    obtain ⟨s₂, h₂, hinv₂, hgrows, -, hsettled₂⟩ := hinv₁.exists_registerAll hwithin₁
      (l := (s.requests.filter (fun q : TypeIndexRequest ↦ decide (q.indexName = none ∧
        customJsonId ∈ q.customJsonIds ∧ q.contextId ∉ locked))).map TypeIndexRequest.contextId)
      fun i hi ↦ (List.filter_sublist.map _).subset hi
    cases h₂.symm.trans hok
    refine ⟨hinv₂, hsettled₂ hsettled fun i hi ↦ ?_, fun m i hi ↦ .inl (hgrows.contextsOf m hi),
      fun p hp hnone ↦ absurd rfl (hnone p (hgrows.pg ▸ hp))⟩
    obtain ⟨q, hq, rfl⟩ := List.mem_map.mp hi
    obtain ⟨hq, hwhich⟩ := List.mem_filter.mp hq
    obtain ⟨-, hmem, -⟩ := of_decide_eq_true hwhich
    exact inv.ready_of_new hnames ht hwithin₁ hq hmem

theorem Inv.exists_registerPending (inv : s.Inv md5 asked) (hwithin : s.Within asked)
    (contexts : List String) :
    ∃ s', s.registerPending md5 contexts = .ok s' ∧ s'.Inv md5 asked ∧ Grows s s' ∧
      (∀ c ∈ s.contexts, c.1 ∈ contexts → ∀ q ∈ s.requests, q.contextId = c.2 →
        s.typeIds q.customJsonIds ≠ none → s'.HasIndex c.2) ∧
      ((∀ i, s.Settled i) → s.NoLateRegistration md5 (.blockRequest contexts) →
        ∀ i, s'.Settled i) := by
  obtain ⟨s', hs', hinv, hgrows, hdepends, hsettled⟩ := inv.exists_registerAll hwithin
    (l := (s.requests.filter (fun q : TypeIndexRequest ↦ decide (q.indexName = none ∧
      ∃ c ∈ s.contexts, c.2 = q.contextId ∧ c.1 ∈ contexts))).map TypeIndexRequest.contextId)
    fun i hi ↦ (List.filter_sublist.map _).subset hi
  refine ⟨s', hs', hinv, hgrows, fun c hc hname q hq hid hids ↦ ?_,
    fun hs hcall ↦ hsettled hs fun i hi ↦ ?_⟩
  · by_cases hindex : q.indexName = none
    · refine hdepends c.2 (List.mem_map.mpr ⟨q, List.mem_filter.mpr ⟨hq, ?_⟩, hid⟩) q hq hid hids
      exact decide_eq_true ⟨hindex, c, hc, hid.symm, hname⟩
    · exact hgrows.hasIndex _ ⟨q, hq, hid, hindex⟩
  · obtain ⟨q, hq, rfl⟩ := List.mem_map.mp hi
    obtain ⟨hq, hwhich⟩ := List.mem_filter.mp hq
    obtain ⟨hindex, hcontext⟩ := of_decide_eq_true hwhich
    intro q' hq' hid ids hids hcreated m hm hne hmem hother
    obtain rfl := inv.request_eq hq' hq hid
    obtain ⟨r, hr, hkey, hrmem, hrstatus⟩ := exists_row hmem
    obtain ⟨-, rfl⟩ := Prod.mk.inj hkey
    refine hcall q' hq' hindex hcontext ids hids hcreated r hr hm hne hrmem ?_
    rw [hrstatus] at hother
    exact Option.some.inj hother

theorem Inv.step (inv : s.Inv md5 asked) (hsettled : ∀ i, s.Settled i) (hwithin : s.Within asked)
    (hnames : ∀ a ∈ asked, ∀ b ∈ asked, typeIndexName md5 a = typeIndexName md5 b → a = b)
    (hcall : s.NoLateRegistration md5 call)
    (hasked : (s.step md5 call).Within asked) :
    Advanced md5 asked call s (s.step md5 call) := by
  rw [TypeIndexState.step] at hasked ⊢
  split at hasked
  case h_1 heq => exact .refl inv hsettled
  case h_2 s' hok =>
    cases call with
    | register => exact inv.registerTypeIndex hsettled hok hasked
    | typeAdded => exact inv.addType hsettled hnames hok hasked
    | blockRequest contexts =>
      obtain ⟨s₁, h₁, hinv₁, hgrows, -, hsettled₁⟩ := inv.exists_registerPending hwithin contexts
      cases h₁.symm.trans hok
      exact .of_grows hinv₁ (hsettled₁ hsettled hcall) hgrows
    | buildStarted name =>
      cases hok
      exact inv.startBuild hsettled name
    | buildFailed name => exact inv.failBuild hsettled hok
    | buildCompleted name =>
      cases hok
      exact inv.completeBuild hsettled name

theorem Reachable.inv
    (hnames : ∀ a ∈ asked, ∀ b ∈ asked, typeIndexName md5 a = typeIndexName md5 b → a = b)
    (h : Reachable md5 asked (NoLateRegistration md5) s) :
    s.Inv md5 asked ∧ (∀ i, s.Settled i) ∧ s.Within asked := by
  induction h with
  | start hs =>
    refine ⟨hs.inv, fun i q hq ↦ ?_, fun q hq ↦ ?_⟩ <;>
    · rw [hs.requests] at hq
      cases hq
  | step hs hcall hasked ih =>
    obtain ⟨hinv, hsettled, hwithin⟩ := ih
    have hadvanced := hinv.step hsettled hwithin hnames hcall hasked
    exact ⟨hadvanced.inv, hadvanced.settled, hasked⟩

/-- The indexes that a context requested are kept exactly, if different sets of types give indexes
of different names. -/
theorem requested_indexes_kept
    (hnames : ∀ a ∈ asked, ∀ b ∈ asked, typeIndexName md5 a = typeIndexName md5 b → a = b)
    (hreach : Reachable md5 asked (NoLateRegistration md5) s) (call : TypeIndexCall)
    (hcall : s.NoLateRegistration md5 call) (hasked : (s.step md5 call).Within asked) :
    (∀ contexts, call = .blockRequest contexts → ∀ c ∈ s.contexts, c.1 ∈ contexts →
      ∀ q ∈ s.requests, q.contextId = c.2 → ∀ ids ∈ s.typeIds q.customJsonIds,
        c.2 ∈ (s.step md5 call).contextsOf (typeIndexName md5 ids) ∧
        ((s.step md5 call).status? (typeIndexName md5 ids) = some .created →
          (∀ m, isTypeIndex m = true → m ≠ typeIndexName md5 ids →
            c.2 ∈ (s.step md5 call).contextsOf m →
            (s.step md5 call).status? m ≠ some .missing ∧
              (s.step md5 call).status? m ≠ some .creating) →
          ∀ m, isTypeIndex m = true → m ≠ typeIndexName md5 ids →
            c.2 ∉ (s.step md5 call).contextsOf m)) ∧
    (∀ m, ∀ id ∈ s.contextsOf m, id ∉ (s.step md5 call).contextsOf m →
      (s.step md5 call).Superseded id m) ∧
    ∀ p ∈ s.pg, (∀ p' ∈ (s.step md5 call).pg, p'.name ≠ p.name) →
      call = .buildFailed p.name ∨
        ∀ id ∈ s.contextsOf p.name, (s.step md5 call).Superseded id p.name := by
  obtain ⟨hinv, hsettled, hwithin⟩ := hreach.inv hnames
  have hadvanced := hinv.step hsettled hwithin hnames hcall hasked
  have hkept : ∀ m, ∀ id ∈ s.contextsOf m, id ∉ (s.step md5 call).contextsOf m →
      (s.step md5 call).Superseded id m := fun m id hid hnot ↦
    (hadvanced.kept m id hid).resolve_left hnot
  refine ⟨?_, hkept, fun p hp hnone ↦ ?_⟩
  · rintro contexts rfl c hc hname q hq hid ids hids
    obtain ⟨s', hs', hinv', hgrows, hindex, -⟩ := hinv.exists_registerPending hwithin contexts
    have hstep : s.step md5 (.blockRequest contexts) = s' := by
      rw [TypeIndexState.step, execute, hs']
    rw [hstep] at hadvanced ⊢
    obtain ⟨q', hq', hid', hset⟩ := hgrows.exists_request hq
    have hname' : q'.indexName = some (typeIndexName md5 ids) := by
      refine hinv'.indexName_eq hq' ?_ (by rw [typeIds_congr hgrows.types, hset]; exact hids)
      rw [hid', hid]
      refine hindex c hc hname q hq hid ?_
      rw [hids]
      simp
    have hmem := (hinv'.registered q' hq' _ hname').2
    rw [hid', hid] at hmem
    refine ⟨hmem, fun hcreated hothers m hm hne hother ↦ ?_⟩
    obtain ⟨hmissing, hcreating⟩ := hothers m hm hne hother
    have hnot := hadvanced.settled c.2 q' hq' (hid'.trans hid) _ hname' hcreated m hm hne hother
    obtain ⟨status, hstatus⟩ := status_isSome hother
    rw [hstatus] at hmissing hcreating hnot
    cases status
    · exact hmissing rfl
    · exact hcreating rfl
    · exact hnot rfl
  · refine (hadvanced.dropped p hp hnone).imp_right fun hnil id hid ↦ hkept _ id hid ?_
    rw [hnil]
    exact List.not_mem_nil

/-- Every call of a list is of the kind `P`, and only the sets `asked` are requested. -/
def Runs (md5 : String → String) (asked : List (List ℕ))
    (P : TypeIndexState → TypeIndexCall → Prop) (s : TypeIndexState) : List TypeIndexCall → Prop
  | [] => True
  | call :: calls =>
    (P s call ∧ (s.step md5 call).Within asked) ∧ Runs md5 asked P (s.step md5 call) calls

instance decidableRuns (P : TypeIndexState → TypeIndexCall → Prop)
    [∀ s call, Decidable (P s call)] :
    (s : TypeIndexState) → (calls : List TypeIndexCall) → Decidable (Runs md5 asked P s calls)
  | _, [] => .isTrue trivial
  | s, call :: calls =>
    have := decidableRuns P (s.step md5 call) calls
    inferInstanceAs (Decidable (_ ∧ _))

theorem Reachable.runCalls {P : TypeIndexState → TypeIndexCall → Prop}
    (hs : Reachable md5 asked P s) {calls : List TypeIndexCall}
    (hcalls : Runs md5 asked P s calls) :
    Reachable md5 asked P (runCalls md5 calls s) := by
  induction calls generalizing s with
  | nil => exact hs
  | cons call calls ih => exact ih (hs.step hcalls.1.1 hcalls.1.2) hcalls.2

def twoContexts : TypeIndexState where
  contexts := [("x", 1), ("y", 2)]
  rows := []
  pg := []
  types := [("a", 1)]
  requests := []

def unhashed (text : String) : String := text

def indexA : String := typeIndexName unhashed [1]

def indexAB : String := typeIndexName unhashed [1, 2]

/-- The context `x` requests two types; its request is locked when the second one appears. -/
def lockedOnly : List TypeIndexCall :=
  [.register "x" true "x" [some "a", some "b"] "\x7ba,b\x7d", .typeAdded "b" 2 [1]]

theorem lockedOnly_registered :
    1 ∉ (runCalls unhashed lockedOnly twoContexts).contextsOf indexAB ∧
    1 ∈ ((runCalls unhashed lockedOnly twoContexts).step unhashed
      (.blockRequest ["x"])).contextsOf indexAB := by
  have hreach : Reachable unhashed [[1, 2]] (NoLateRegistration unhashed)
      (runCalls unhashed lockedOnly twoContexts) := by
    refine Reachable.runCalls (.start ⟨rfl, ?_, ?_, ?_, ?_, ?_, ?_⟩) ?_ <;> decide +kernel
  refine ⟨by decide +kernel, ?_⟩
  have hkept := requested_indexes_kept (by decide +kernel) hreach (.blockRequest ["x"])
    (by decide +kernel) (by decide +kernel)
  exact (hkept.1 ["x"] rfl ("x", 1) (by decide +kernel) (by decide +kernel)
    ⟨1, ["a", "b"], none⟩ (by decide +kernel) rfl [1, 2] (by decide +kernel)).1

def lockedRequest : List TypeIndexCall :=
  [.register "x" true "x" [some "a"] "\x7ba\x7d", .buildStarted indexA, .buildCompleted indexA,
    .register "x" true "x" [some "a", some "b"] "\x7ba,b\x7d",
    .register "y" true "y" [some "a", some "b"] "\x7ba,b\x7d", .typeAdded "b" 2 [1]]

/-- The index is created before `x` asks for its next block. Nothing releases its index of one type
then. -/
theorem previous_index_stays :
    (runCalls unhashed (lockedRequest ++ [.buildStarted indexAB, .buildCompleted indexAB,
      .blockRequest ["x"], .blockRequest ["x"]]) twoContexts).requests =
        [⟨1, ["a", "b"], some indexAB⟩, ⟨2, ["a", "b"], some indexAB⟩] ∧
    (runCalls unhashed (lockedRequest ++ [.buildStarted indexAB, .buildCompleted indexAB,
      .blockRequest ["x"], .blockRequest ["x"]]) twoContexts).rows.map
        (fun r ↦ (r.name, r.status, r.contexts)) =
        [(indexA, .created, [1]), (indexAB, .created, [2, 1])] := by
  decide +kernel

end HiveForkManager.TypeIndexState
