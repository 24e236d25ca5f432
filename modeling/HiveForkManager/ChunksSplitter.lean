import HiveForkManager.LogFile
import HiveForkManager.Lib.Double

namespace HiveForkManager

namespace ChunksSplitter

variable {α : Type}

def lengthOfBatch (size writers : ℕ) : ℕ := (Double.ceilDiv size writers).toNat % 2 ^ 32

def boundAt (size batch writerNum : ℕ) : ℕ :=
  if writerNum % 2 ^ 32 * batch % 2 ^ 32 < size then writerNum % 2 ^ 32 * batch % 2 ^ 32 else size

def chunk (rows : List α) (batch writerNum : ℕ) : List α :=
  (rows.take (boundAt rows.length batch (writerNum + 1))).drop
    (boundAt rows.length batch writerNum)

/-- The chunks of `trigger`, one for each writer. -/
def chunks (rows : List α) (writers : ℕ) : List (List α) :=
  (List.range writers).map (chunk rows (lengthOfBatch rows.length writers))

/-- `flush_scalar_live_data` for the first row and the others. -/
def flushScalarLiveData (conv : α → Bytes) (row : α) (rows : List α) : Bytes :=
  rows.foldl (fun query r ↦ query ++ [44, 40] ++ conv r ++ [41, 10])
    ([40] ++ conv row ++ [41, 10])

/-- What a writer leaves in its string: an empty chunk only reports that the batch is finished. -/
def writeChunk (conv : α → Bytes) (string : Bytes) : List α → Bytes
  | [] => string
  | row :: rows => flushScalarLiveData conv row rows

/-- A round of the loop of `get_merged_strings`. -/
def mergeString (result string : Bytes) : Bytes :=
  if string.isEmpty then result
  else if result.isEmpty then result ++ string
  else result ++ ([44] ++ string)

/-- `get_merged_strings`: the merged string, and the writers' strings after it. -/
def getMergedStrings (strings : List Bytes) : Bytes × List Bytes :=
  (strings.foldl mergeString [], strings.map fun _ ↦ [])

/-- A flush of one container: `trigger`, the writers' work and the merge. -/
def flush (conv : α → Bytes) (strings : List Bytes) (rows : List α) : Bytes × List Bytes :=
  getMergedStrings (List.zipWith (writeChunk conv) strings (chunks rows strings.length))

def flushAll (conv : α → Bytes) : List Bytes → List (List α) → List Bytes
  | _, [] => []
  | strings, rows :: batches =>
    (flush conv strings rows).1 :: flushAll conv (flush conv strings rows).2 batches

def Fits (size writers : ℕ) : Prop := (size + writers - 1) / writers * writers < 2 ^ 32

variable {size writers : ℕ} {rows : List α}

theorem lengthOfBatch_eq (hwriters : 0 < writers) (hfits : Fits size writers) :
    lengthOfBatch size writers = (size + writers - 1) / writers ∧
      size ≤ lengthOfBatch size writers * writers ∧
      lengthOfBatch size writers * writers < 2 ^ 32 := by
  have hdiv := Nat.div_add_mod (size + writers - 1) writers
  have hmod := Nat.mod_lt (size + writers - 1) hwriters
  have hhigh : size ≤ (size + writers - 1) / writers * writers := by
    rw [Nat.mul_comm]
    omega
  have hlow : (size + writers - 1) / writers * writers < size + writers := by
    rw [Nat.mul_comm]
    omega
  have hfits' : (size + writers - 1) / writers * writers < 2 ^ 32 := hfits
  have hquotient : (size + writers - 1) / writers < 2 ^ 32 :=
    lt_of_le_of_lt (Nat.le_mul_of_pos_right _ hwriters) hfits'
  have hbatch : lengthOfBatch size writers = (size + writers - 1) / writers := by
    rw [lengthOfBatch, Double.ceilDiv_eq hwriters (by omega) hlow hhigh, Int.toNat_natCast,
      Nat.mod_eq_of_lt hquotient]
  rw [hbatch]
  exact ⟨rfl, hhigh, hfits'⟩

theorem boundAt_eq {batch writerNum : ℕ} (hnum : writerNum ≤ writers)
    (hfits : batch * writers < 2 ^ 32) (hsize : size ≤ batch * writers) :
    boundAt size batch writerNum = min (writerNum * batch) size := by
  have hproduct : writerNum * batch ≤ batch * writers := by
    rw [Nat.mul_comm]
    exact Nat.mul_le_mul_left _ hnum
  have hbits : writerNum % 2 ^ 32 * batch % 2 ^ 32 = writerNum * batch := by
    rcases Nat.eq_zero_or_pos batch with rfl | hbatch
    · rw [Nat.mul_zero, Nat.mul_zero, Nat.zero_mod]
    · have hsmall : writerNum < 2 ^ 32 := by
        have := Nat.le_mul_of_pos_right writerNum hbatch
        omega
      rw [Nat.mod_eq_of_lt hsmall, Nat.mod_eq_of_lt (by omega)]
  rw [boundAt, hbits]
  split_ifs with h
  · exact (Nat.min_eq_left h.le).symm
  · exact (Nat.min_eq_right (Nat.le_of_not_lt h)).symm

theorem take_min_length (rows : List α) (k : ℕ) :
    rows.take (min k rows.length) = rows.take k := by
  rw [← List.take_take, List.take_length]

theorem flatten_chunks_range {batch : ℕ} (k : ℕ)
    (hbound : ∀ i ≤ k, boundAt rows.length batch i = min (i * batch) rows.length) :
    ((List.range k).map (chunk rows batch)).flatten = rows.take (k * batch) := by
  induction k with
  | zero => simp
  | succ k ih =>
    have hchunk : chunk rows batch k = (rows.take ((k + 1) * batch)).drop (k * batch) := by
      rw [chunk, hbound (k + 1) (Nat.le_refl _), hbound k (Nat.le_succ k), take_min_length]
      rcases Nat.le_total (k * batch) rows.length with hinside | hbeyond
      · rw [Nat.min_eq_left hinside]
      · rw [Nat.min_eq_right hbeyond, List.drop_eq_nil_of_le (List.length_take_le' _ _),
          List.drop_eq_nil_of_le ((List.length_take_le' _ _).trans hbeyond)]
    have hstart : rows.take (k * batch) = (rows.take ((k + 1) * batch)).take (k * batch) := by
      rw [List.take_take, Nat.min_eq_left (Nat.mul_le_mul_right _ (Nat.le_succ k))]
    rw [List.range_succ, List.map_append, List.flatten_append,
      ih fun i hi ↦ hbound i (Nat.le_succ_of_le hi), List.map_singleton, List.flatten_singleton,
      hchunk, hstart, List.take_append_drop]

theorem flatten_chunks (hwriters : 0 < writers)
    (hfits : Fits rows.length writers) : (chunks rows writers).flatten = rows := by
  obtain ⟨-, hsize, hbits⟩ := lengthOfBatch_eq hwriters hfits
  rw [chunks, flatten_chunks_range writers fun i hi ↦ boundAt_eq hi hbits hsize]
  exact List.take_of_length_le (by rwa [Nat.mul_comm] at hsize)

theorem flushScalarLiveData_append (conv : α → Bytes) (row row' : α) (rows rows' : List α) :
    flushScalarLiveData conv row (rows ++ row' :: rows') =
      flushScalarLiveData conv row rows ++ ([44] ++ flushScalarLiveData conv row' rows') := by
  have hacc : ∀ (more : List α) (a b : Bytes),
      more.foldl (fun query r ↦ query ++ [44, 40] ++ conv r ++ [41, 10]) (a ++ b) =
        a ++ more.foldl (fun query r ↦ query ++ [44, 40] ++ conv r ++ [41, 10]) b := by
    intro more
    induction more with
    | nil => exact fun _ _ ↦ rfl
    | cons r more ih =>
      intro a b
      rw [List.foldl_cons, List.foldl_cons, ← ih]
      simp
  calc flushScalarLiveData conv row (rows ++ row' :: rows')
      = rows'.foldl (fun query r ↦ query ++ [44, 40] ++ conv r ++ [41, 10])
          (flushScalarLiveData conv row rows ++ [44, 40] ++ conv row' ++ [41, 10]) := by
        rw [flushScalarLiveData, List.foldl_append, List.foldl_cons]
        rfl
    _ = rows'.foldl (fun query r ↦ query ++ [44, 40] ++ conv r ++ [41, 10])
          ((flushScalarLiveData conv row rows ++ [44]) ++ ([40] ++ conv row' ++ [41, 10])) := by
        simp
    _ = flushScalarLiveData conv row rows ++ ([44] ++ flushScalarLiveData conv row' rows') := by
        rw [hacc, List.append_assoc]
        rfl

theorem flushScalarLiveData_ne_nil (conv : α → Bytes) (row : α) (rows : List α) :
    flushScalarLiveData conv row rows ≠ [] := by
  induction rows using List.reverseRecOn with
  | nil => simp [flushScalarLiveData]
  | append_singleton rows row' _ =>
    rw [flushScalarLiveData_append]
    simp

theorem writeChunk_append (conv : α → Bytes) (rows rows' : List α) :
    mergeString (writeChunk conv [] rows) (writeChunk conv [] rows') =
      writeChunk conv [] (rows ++ rows') := by
  cases rows' with
  | nil => rw [List.append_nil]; rfl
  | cons row' rows' =>
    have hnot : (flushScalarLiveData conv row' rows').isEmpty = false := by
      rw [List.isEmpty_eq_false_iff]
      exact flushScalarLiveData_ne_nil conv row' rows'
    cases rows with
    | nil => simp [writeChunk, mergeString, hnot]
    | cons row rows =>
      have hnot' : (flushScalarLiveData conv row rows).isEmpty = false := by
        rw [List.isEmpty_eq_false_iff]
        exact flushScalarLiveData_ne_nil conv row rows
      rw [List.cons_append]
      simp only [writeChunk, mergeString, hnot, hnot', Bool.false_eq_true, if_false]
      rw [flushScalarLiveData_append]

theorem foldl_mergeString (conv : α → Bytes) (parts : List (List α)) : ∀ rows : List α,
    (parts.map (writeChunk conv [])).foldl mergeString (writeChunk conv [] rows) =
      writeChunk conv [] (rows ++ parts.flatten) := by
  induction parts with
  | nil => exact fun rows ↦ by rw [List.flatten_nil, List.append_nil]; rfl
  | cons part parts ih =>
    intro rows
    rw [List.map_cons, List.foldl_cons, writeChunk_append, ih, List.flatten_cons,
      List.append_assoc]

def cleared (writers : ℕ) : List Bytes := List.replicate writers []

theorem zipWith_cleared (conv : α → Bytes) (parts : List (List α)) :
    List.zipWith (writeChunk conv) (cleared parts.length) parts =
      parts.map (writeChunk conv []) := by
  induction parts with
  | nil => rfl
  | cons part parts ih => exact congrArg _ ih

theorem flush_cleared (conv : α → Bytes) (hwriters : 0 < writers)
    (hfits : Fits rows.length writers) :
    flush conv (cleared writers) rows = (writeChunk conv [] rows, cleared writers) := by
  have hlength : (chunks rows writers).length = writers := by simp [chunks]
  have hwritten := zipWith_cleared conv (chunks rows writers)
  rw [hlength] at hwritten
  have hmerged := foldl_mergeString conv (chunks rows writers) []
  rw [flatten_chunks hwriters hfits] at hmerged
  rw [flush, cleared, List.length_replicate, ← cleared, hwritten, getMergedStrings]
  refine Prod.ext hmerged ?_
  rw [List.map_const', List.length_map, hlength]
  rfl

theorem flushAll_cleared (conv : α → Bytes) (hwriters : 0 < writers)
    {batches : List (List α)} (hfits : ∀ rows ∈ batches, Fits rows.length writers) :
    flushAll conv (cleared writers) batches = batches.map (writeChunk conv []) := by
  induction batches with
  | nil => rfl
  | cons rows batches ih =>
    rw [flushAll, flush_cleared conv hwriters (hfits rows (List.mem_cons_self ..)),
      ih fun r hr ↦ hfits r (List.mem_cons_of_mem _ hr), List.map_cons]

theorem Fits.one (hwriters : 0 < writers) (hfits : Fits size writers) :
    Fits size 1 := by
  obtain ⟨-, hsize, hbits⟩ := lengthOfBatch_eq hwriters hfits
  rw [Fits, Nat.div_one, Nat.mul_one]
  omega

/-- For every number of writers the chunks are consecutive parts that together are the rows, and
for any containers flushed one after another the merged strings are those of one writer. -/
theorem split_rows_same_result (conv : α → Bytes) (writers : ℕ) (hwriters : 0 < writers)
    (batches : List (List α)) (hfits : ∀ rows ∈ batches, Fits rows.length writers) :
    (∀ rows ∈ batches, (chunks rows writers).length = writers ∧
      (chunks rows writers).flatten = rows) ∧
    flushAll conv (cleared writers) batches = flushAll conv (cleared 1) batches ∧
    flushAll conv (cleared writers) batches = batches.map (writeChunk conv []) := by
  have hmany := flushAll_cleared conv hwriters hfits
  have hone := flushAll_cleared conv Nat.one_pos fun rows hrows ↦ (hfits rows hrows).one hwriters
  refine ⟨fun rows hrows ↦ ⟨?_, flatten_chunks hwriters (hfits rows hrows)⟩, ?_, hmany⟩
  · rw [chunks, List.length_map, List.length_range]
  · rw [hmany, hone]

/-- More writers than rows, then no rows at all, then more rows than writers. -/
theorem three_writers_same_result :
    flushAll decimal (cleared 3) [[7], [], [1, 2, 3, 4]] =
      [ascii "(7)\n".toList, [], ascii "(1)\n,(2)\n,(3)\n,(4)\n".toList] := by
  rw [(split_rows_same_result decimal 3 (by decide) [[7], [], [1, 2, 3, 4]] (by
    intro rows hrows
    simp only [List.mem_cons, List.not_mem_nil, or_false] at hrows
    rcases hrows with rfl | rfl | rfl <;> simp [Fits])).2.2]
  decide +kernel

end ChunksSplitter

end HiveForkManager
