import HiveForkManager.Outcome

namespace HiveForkManager

open UndoLog ExceptList

/-- The rows are those of the blocks up to `b`, with ids that the sequence has already given. -/
structure Holds (rowidSeq b : ℕ) (rows : List (Row ℕ)) : Prop where
  rowids : (rows.map Row.hiveRowid).Nodup
  lt_seq : ∀ t ∈ rows, t.hiveRowid < rowidSeq
  blocks : (rows.map Row.columns).Perm (List.range' 1 b)

namespace Holds

variable {seq b : ℕ} {rows rows' : List (Row ℕ)}

theorem perm (hp : rows.Perm rows') (h : Holds seq b rows') : Holds seq b rows where
  rowids := (hp.map _).nodup_iff.mpr h.rowids
  lt_seq t ht := h.lt_seq t (hp.mem_iff.mp ht)
  blocks := (hp.map _).trans h.blocks

theorem mono (h : Holds seq b rows) {seq' : ℕ} (hseq : seq ≤ seq') : Holds seq' b rows :=
  ⟨h.rowids, fun t ht ↦ (h.lt_seq t ht).trans_le hseq, h.blocks⟩

theorem empty (seq : ℕ) : Holds seq 0 [] := ⟨List.nodup_nil, by simp, .refl _⟩

end Holds

def newRows (seq : ℕ) (nums : List ℕ) : List (Row ℕ) :=
  nums.zipIdx.map (fun c ↦ ⟨seq + c.2, c.1⟩)

theorem newRows_columns (seq : ℕ) (nums : List ℕ) : (newRows seq nums).map Row.columns = nums := by
  rw [newRows, List.map_map]
  exact List.zipIdx_map_fst 0 nums

theorem newRows_hiveRowid (seq : ℕ) (nums : List ℕ) :
    (newRows seq nums).map Row.hiveRowid = List.range' seq nums.length := by
  have hsnd : nums.zipIdx.map Prod.snd = List.range' 0 nums.length := List.zipIdx_map_snd 0 nums
  have hcomp : (Row.hiveRowid ∘ fun c : ℕ × ℕ ↦ (⟨seq + c.2, c.1⟩ : Row ℕ)) =
      (seq + ·) ∘ Prod.snd := rfl
  rw [newRows, List.map_map, hcomp, ← List.map_map, hsnd, List.map_add_range', Nat.add_zero]

theorem Holds.insert {seq b b' : ℕ} {rows : List (Row ℕ)} (h : Holds seq b rows) (hb : b ≤ b') :
    Holds (seq + (b' - b)) b' (rows ++ newRows seq (List.range' (b + 1) (b' - b))) where
  rowids := by
    rw [List.map_append, newRows_hiveRowid, List.length_range', List.nodup_append]
    refine ⟨h.rowids, List.nodup_range', ?_⟩
    intro i hi j hj
    obtain ⟨t, ht, rfl⟩ := List.mem_map.mp hi
    have hlt := h.lt_seq t ht
    rw [List.mem_range'_1] at hj
    omega
  lt_seq t ht := by
    rcases List.mem_append.mp ht with ht | ht
    · exact (h.lt_seq t ht).trans_le (Nat.le_add_right _ _)
    · have hid := List.mem_map_of_mem (f := Row.hiveRowid) ht
      rw [newRows_hiveRowid, List.length_range', List.mem_range'_1] at hid
      omega
  blocks := by
    rw [List.map_append, newRows_columns]
    refine (h.blocks.append_right _).trans (.of_eq ?_)
    rw [Nat.add_comm b 1, List.range'_append_1]
    congr 1
    omega

/-- The table holds the blocks up to `cur` and can be brought back to any block from `irr` on. -/
def TableExact (irr cur : ℕ) (t : RegisteredTable ℕ) : Prop :=
  Restorable ShadowRow.hiveBlockNum revert (Holds t.rowidSeq) irr cur t.shadow t.rows

namespace TableExact

variable {irr cur n : ℕ} {t : RegisteredTable ℕ}

theorem registered (irr : ℕ) (hasTriggers : Bool) : TableExact irr 0 ⟨[], [], 1, hasTriggers⟩ :=
  Restorable.of_le_base .nil (by simp) (Holds.empty 1) (Nat.zero_le _)

theorem removeObsolete (h : TableExact irr cur t) (hn : irr ≤ n) :
    TableExact n cur (removeObsoleteOperations n t) :=
  h.purge hn

theorem rewind (h : TableExact irr cur t) (hn : irr ≤ n) (hcur : n ≤ cur) :
    TableExact irr n (backFromForkOneTable n t) :=
  Restorable.rewind h hn hcur

theorem insert (h : TableExact irr cur t) {cur' : ℕ} (hcur : cur < cur')
    (hstep : t.hasTriggers = true ∧ cur' = cur + 1 ∨ cur' ≤ irr) {t' : RegisteredTable ℕ}
    (hok : t.insertColumns cur' (List.range' (cur + 1) (cur' - cur)) = .ok t') :
    TableExact irr cur' t' ∧ t'.hasTriggers = t.hasTriggers := by
  obtain ⟨rows, shadow, seq, triggers⟩ := t
  have hrows : Holds (seq + (cur' - cur)) cur'
      (rows ++ newRows seq (List.range' (cur + 1) (cur' - cur))) := h.current.insert hcur.le
  have hinsert : (⟨rows, shadow, seq, triggers⟩ : RegisteredTable ℕ).insertColumns cur'
      (List.range' (cur + 1) (cur' - cur)) =
      (⟨rows, shadow, seq + (cur' - cur), triggers⟩ : RegisteredTable ℕ).execute cur'
        (.insert (newRows seq (List.range' (cur + 1) (cur' - cur)))) := by
    rw [RegisteredTable.insertColumns, List.length_range']
    rfl
  rw [hinsert, RegisteredTable.execute] at hok
  cases triggers with
  | false =>
    have hle : cur' ≤ irr := hstep.resolve_left fun hs ↦ by cases hs.1
    rw [if_neg Bool.false_ne_true, Except.ok.injEq] at hok
    subst hok
    refine ⟨?_, rfl⟩
    exact Restorable.of_le_base h.ordered (fun r hr ↦ (h.bounded r hr).trans hcur.le) hrows hle
  | true =>
    rw [if_pos rfl, if_neg (by omega), Except.ok.injEq] at hok
    subst hok
    refine ⟨?_, rfl⟩
    refine Restorable.extend (R := fun a b ↦ a.Perm b) (P := Holds seq) revert_perm
      (fun _ _ _ ↦ Holds.perm) h hcur.le (fun _ hr ↦ Statement.hiveBlockNum_of_mem_records hr) ?_
      (fun b rows _ hr ↦ hr.mono (Nat.le_add_right _ _))
      (fun b hb hlt hlt' ↦ absurd hlt (by omega)) hrows
    refine Statement.undo_records (.insert _) h.current.rowids ?_
    intro r hr hmem
    obtain ⟨t₀, ht₀, hid⟩ := List.mem_map.mp hmem
    have hlt : t₀.hiveRowid < seq := h.current.lt_seq t₀ ht₀
    have hr' := List.mem_map_of_mem (f := Row.hiveRowid) hr
    rw [newRows_hiveRowid, List.mem_range'_1] at hr'
    omega

end TableExact

def Context.Settled {ρ : Type} (c : Context ρ) : Prop :=
  ¬ (c.isForking = true ∧ c.isAttached = true) → c.currentBlockNum ≤ c.irreversibleBlock

def KeepsIrreversible {ρ : Type} (c c' : Context ρ) : Prop :=
  c.currentBlockNum ≤ c'.currentBlockNum ∨ c'.irreversibleBlock ≤ c'.currentBlockNum

instance {ρ : Type} (c c' : Context ρ) : Decidable (KeepsIrreversible c c') := by
  unfold KeepsIrreversible; infer_instance

/-- The tables of the context hold exactly the blocks up to its current one. A context without
triggers is not above its irreversible block. -/
structure Exact (c : Context ℕ) : Prop where
  triggers : c.isForking = true → c.isAttached = true → ∀ t ∈ c.tables, t.hasTriggers = true
  tables : ∀ t ∈ c.tables, TableExact c.irreversibleBlock c.currentBlockNum t
  settled : c.Settled

section Moves

variable {h : Hafd} {history : List HistoryEntry} {lo : ℕ} {chain : List BlockData}
  {c c' s : Context ℕ} {limit : Option ℕ} {range : Option BlocksRange}

namespace Exact

theorem updateIrreversible (inv : EventsInv h history lo chain)
    (hirr : c.irreversibleBlock ≤ h.irreversibleHead) (hp : lo ≤ c.eventsId) (hc : Exact c) :
    Exact (c.updateIrreversible h) := by
  obtain ⟨n, hlearns, hn, htables⟩ := updateIrreversible_learns inv hirr hp
  have hflags : (c.updateIrreversible h).isForking = c.isForking ∧
      (c.updateIrreversible h).isAttached = c.isAttached := by
    rw [Context.updateIrreversible]
    cases c.newIrreversible h <;> exact ⟨rfl, rfl⟩
  refine ⟨?_, ?_, ?_⟩
  · rw [hflags.1, hflags.2]
    intro hfork hatt t ht
    rcases htables with htables | htables <;> rw [htables] at ht
    · obtain ⟨t₀, ht₀, rfl⟩ := List.mem_map.mp ht
      exact hc.triggers hfork hatt t₀ ht₀
    · exact hc.triggers hfork hatt t ht
  · rw [hn, updateIrreversible_currentBlockNum]
    intro t ht
    rcases htables with htables | htables <;> rw [htables] at ht
    · obtain ⟨t₀, ht₀, rfl⟩ := List.mem_map.mp ht
      exact (hc.tables t₀ ht₀).removeObsolete hlearns.le
    · exact (hc.tables t ht).mono_base hlearns.le
  · rw [Context.Settled, hn, hflags.1, hflags.2, updateIrreversible_currentBlockNum]
    exact fun hnot ↦ (hc.settled hnot).trans hlearns.le

theorem backFromFork {b : ℕ} (hc : Exact c)
    (hb : c.currentBlockNum ≤ b ∨ c.irreversibleBlock ≤ b) : Exact (c.backFromFork b) := by
  rcases Nat.lt_or_ge b c.currentBlockNum with hlt | hge
  · have hb : c.irreversibleBlock ≤ b := hb.resolve_left (not_le.mpr hlt)
    rw [Context.backFromFork, if_pos hlt]
    refine ⟨?_, ?_, ?_⟩
    · intro hfork hatt t ht
      obtain ⟨t₀, ht₀, rfl⟩ := List.mem_map.mp ht
      exact hc.triggers hfork hatt t₀ ht₀
    · intro t ht
      obtain ⟨t₀, ht₀, rfl⟩ := List.mem_map.mp ht
      exact (hc.tables t₀ ht₀).rewind hb hlt.le
    · intro hnot
      have := hc.settled hnot
      dsimp only
      omega
  · rwa [Context.backFromFork_of_le hge]

theorem move (hc : Exact c) (eventsId forkId : ℕ) : Exact { c with eventsId, forkId } :=
  ⟨hc.triggers, hc.tables, hc.settled⟩

end Exact

theorem Squashed.exact (inv : EventsInv h history lo chain) (hground : Grounded h history lo c)
    (hc : Exact c) (hs : Squashed h history c s) : Exact s := by
  have hupdate : c.eventsId ≠ 0 → Exact (c.updateIrreversible h) := fun hp ↦
    hc.updateIrreversible inv hground.irr_le (hground.refersTo.kept.resolve_left hp)
  cases hs with
  | fresh => exact hc
  | updated hp => exact hupdate hp
  | forked hp => exact (hupdate hp).move _ _
  | synced hp => exact (hupdate hp).move _ _
  | rewound hp => exact ((hupdate hp).backFromFork (.inr le_rfl)).move _ _

inductive Handed (s : Context ℕ) : Context ℕ → Option BlocksRange → Prop
  | block {r : BlocksRange} (eventsId forkId : ℕ)
      (hr : r.firstBlock = (s.currentBlockNum + 1 : ℕ)) :
      Handed s { s with currentBlockNum := s.currentBlockNum + 1, eventsId, forkId } (some r)
  | nothing {c' : Context ℕ}
      (hexact : Exact s → KeepsIrreversible s c' → c'.Settled → Exact c') : Handed s c' none

theorem BlocksRange.toResult_some {r : BlocksRange} (hr : r.firstBlock ≤ r.lastBlock) :
    BlocksRange.toResult (some r) = some r := by
  rw [BlocksRange.toResult, Option.filter_some, if_pos (decide_eq_true hr)]

theorem Outcome.handed (hout : Outcome h history limit s c' range) :
    Handed s c' (BlocksRange.toResult range) := by
  cases hout with
  | firstReversible hon hi hev hnum =>
    rw [hnum, BlocksRange.toResult_some le_rfl]
    exact .block _ _ rfl
  | refused => exact .nothing fun hs _ _ ↦ hs.move _ _
  | irreversible hon hi hn hlt =>
    rw [BlocksRange.toResult_some (Int.ofNat_le.mpr hlt)]
    exact .block _ _ rfl
  | waiting => exact .nothing fun hs _ _ ↦ hs.move _ _
  | nextReversible hoff ha hev hnum =>
    rw [hnum, BlocksRange.toResult_some le_rfl]
    exact .block _ _ rfl
  | lost => exact .nothing fun hs _ _ ↦ hs.move _ _
  | @forked a hoff ha hev hle =>
    refine .nothing fun hs hrewind _ ↦ ?_
    rw [KeepsIrreversible, Context.backFromFork_irreversibleBlock] at hrewind
    have hexact := (hs.backFromFork hrewind).move (s.eventsId + 1) a.forkId
    have hcur : (s.backFromFork a.height).currentBlockNum = a.height := by
      rw [Context.backFromFork_currentBlockNum, Nat.min_eq_right hle]
    generalize s.backFromFork a.height = d at hexact hcur
    rw [← hcur]
    exact hexact
  | announced => exact .nothing fun hs _ _ ↦ hs.move _ _
  | idle => exact .nothing fun hs _ _ ↦ hs

theorem insertBlocks_eq_ok {nums : List ℕ} (hok : c.insertBlocks nums = .ok c') :
    ∃ tables, c.tables.mapM (fun t ↦ t.insertColumns c.currentBlockNum nums) = .ok tables ∧
      c' = { c with tables } := by
  obtain ⟨tables, htables, hok⟩ := bind_eq_ok.mp hok
  cases hok
  exact ⟨tables, htables, rfl⟩

theorem exists_insertBlocks (hpos : 0 < c.currentBlockNum) (nums : List ℕ) :
    ∃ c', c.insertBlocks nums = .ok c' := by
  have hinsert : ∀ t ∈ c.tables, ∃ t', t.insertColumns c.currentBlockNum nums = .ok t' := by
    intro t _
    rw [RegisteredTable.insertColumns, RegisteredTable.execute, if_neg (not_le.mpr hpos)]
    split
    · exact ⟨_, rfl⟩
    · exact ⟨_, rfl⟩
  obtain ⟨tables, htables⟩ := exists_mapM_ok hinsert
  refine ⟨{ c with tables }, ?_⟩
  rw [Context.insertBlocks, htables]
  rfl

theorem Exact.insertBlocks {b : ℕ} (hb : b < c.currentBlockNum)
    (htables : ∀ t ∈ c.tables, TableExact c.irreversibleBlock b t)
    (htriggers : c.isForking = true → c.isAttached = true → ∀ t ∈ c.tables, t.hasTriggers = true)
    (hstep : (c.isForking = true ∧ c.isAttached = true) ∧ c.currentBlockNum = b + 1 ∨
      c.currentBlockNum ≤ c.irreversibleBlock)
    (hok : c.insertBlocks (List.range' (b + 1) (c.currentBlockNum - b)) = .ok c') : Exact c' := by
  obtain ⟨tables, hmap, rfl⟩ := insertBlocks_eq_ok hok
  have hnew : ∀ t' ∈ tables, TableExact c.irreversibleBlock c.currentBlockNum t' ∧
      (c.isForking = true → c.isAttached = true → t'.hasTriggers = true) := by
    intro t' ht'
    obtain ⟨t, ht, hins⟩ := exists_of_mem_mapM hmap ht'
    obtain ⟨hexact, htr⟩ := (htables t ht).insert hb
      (hstep.imp_left fun hs ↦ ⟨htriggers hs.1.1 hs.1.2 t ht, hs.2⟩) hins
    exact ⟨hexact, fun hfork hatt ↦ htr.trans (htriggers hfork hatt t ht)⟩
  refine ⟨fun hfork hatt t' ht' ↦ (hnew t' ht').2 hfork hatt, fun t' ht' ↦ (hnew t' ht').1, ?_⟩
  exact fun hnot ↦ hstep.resolve_left fun hs ↦ hnot hs.1

end Moves

end HiveForkManager
