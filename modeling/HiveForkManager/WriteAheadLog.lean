import HiveForkManager.LogNames

namespace HiveForkManager

/-- A command for the database; PostgreSQL refuses query strings of a gigabyte and more. -/
structure Command where
  sql : Bytes
  length_lt : sql.length < 2 ^ 30
  deriving DecidableEq, Repr

abbrev Entry := ℕ × Command

def maxSequenceNumber : ℕ := 2147483647

def maxLogSize : ℕ := 104857600

def isLessThan (lhs rhs : ℕ) : Bool :=
  (lhs < rhs && rhs - lhs < maxSequenceNumber / 2) ||
    (rhs < lhs && maxSequenceNumber / 2 < lhs - rhs)

def getSequenceNumberAfter (n : ℕ) : ℕ := if n = maxSequenceNumber then 0 else n + 1

structure WalFile where
  name : LogName
  records : List Entry
  fileSize : ℕ
  deriving DecidableEq, Repr

def WalFile.isEmpty (f : WalFile) : Bool := f.fileSize == 0

def WalFile.getLastSequenceNumber (f : WalFile) : ℕ := (f.records.getLast?.map Prod.fst).getD 0

def WalFile.writeRecord (e : Entry) (f : WalFile) : WalFile :=
  ⟨f.name, f.records ++ [e], (f.fileSize + 28 + e.2.sql.length + 28) % 2 ^ 32⟩

/-- `log_file::create` at the reading `now` of the clock, after the file `last`. -/
def WalFile.create (last : Option WalFile) (now : ClockReading) : WalFile :=
  ⟨⟨now.toIsoString, firstSerial (last.map WalFile.name) now.toIsoString⟩, [], 0⟩

structure WriteAheadLogManager where
  logFiles : List WalFile
  lastSequenceNumber : Option ℕ
  lastCompletedTransactionSequenceNumber : Option ℕ
  deriving DecidableEq, Repr

namespace WriteAheadLogManager

def log (w : WriteAheadLogManager) : List Entry := w.logFiles.flatMap WalFile.records

def computeLastSequenceNumber (files : List WalFile) : Option ℕ :=
  (files.reverse.find? (!·.isEmpty)).map WalFile.getLastSequenceNumber

def sortedFiles (files : List WalFile) : List WalFile :=
  files.insertionSort fun f g ↦ codes f.name.filename ≤ codes g.name.filename

/-- `open` on the files found in the directory: it reads them in the order of their names. -/
def openFiles (files : List WalFile) : WriteAheadLogManager :=
  ⟨sortedFiles files, computeLastSequenceNumber (sortedFiles files), none⟩

def getNextSequenceNumber (w : WriteAheadLogManager) : ℕ :=
  match w.lastSequenceNumber with
  | some n => getSequenceNumberAfter n
  | none => 0

/-- The file begun when there is none or the last one has grown too large. -/
def newFile (now : ClockReading) (files : List WalFile) : Option WalFile :=
  match files.getLast? with
  | none => some (WalFile.create none now)
  | some f => if maxLogSize < f.fileSize then some (WalFile.create (some f) now) else none

/-- The files with a record added to the last one, or to a new one. -/
def storeInLast (now : ClockReading) (e : Entry) : List WalFile → List WalFile
  | [] => [(WalFile.create none now).writeRecord e]
  | [f] =>
    if maxLogSize < f.fileSize then [f, (WalFile.create (some f) now).writeRecord e]
    else [f.writeRecord e]
  | f :: g :: fs => f :: storeInLast now e (g :: fs)

/-- A new file whose name is taken is refused, as `log_file::create` opens it exclusively. -/
def storeTransaction (c : Command) (now : ClockReading) (w : WriteAheadLogManager) :
    Except String (ℕ × WriteAheadLogManager) :=
  let n := w.getNextSequenceNumber
  if (newFile now w.logFiles).any fun f ↦
      w.logFiles.any fun g ↦ g.name.filename = f.name.filename then
    .error "File already exists"
  else .ok (n, { w with
    logFiles := storeInLast now (n, c) w.logFiles
    lastSequenceNumber := some n })

/-- The loop of `transaction_completed`: the last file is kept unless the log is shutting
down. -/
def removeCompleted (n : ℕ) (shuttingDown : Bool) : List WalFile → List WalFile
  | [] => []
  | f :: fs =>
    if (!fs.isEmpty || shuttingDown) && (f.isEmpty || n == f.getLastSequenceNumber ||
        isLessThan f.getLastSequenceNumber n) then
      removeCompleted n shuttingDown fs
    else f :: fs

def transactionCompleted (n : ℕ) (shuttingDown : Bool) (w : WriteAheadLogManager) :
    Except String WriteAheadLogManager :=
  if w.logFiles.isEmpty then .error "I don't know anything about transaction sequence number"
  else .ok { w with
    lastCompletedTransactionSequenceNumber := some n
    logFiles := removeCompleted n shuttingDown w.logFiles }

def close (w : WriteAheadLogManager) : Except String (List WalFile) :=
  match w.lastCompletedTransactionSequenceNumber with
  | some n => (w.transactionCompleted n true).map logFiles
  | none => .ok w.logFiles

def replayTransactionsAfter (n : ℕ) (w : WriteAheadLogManager) : List Entry :=
  w.logFiles.flatMap fun f ↦
    if f.isEmpty || isLessThan f.getLastSequenceNumber n then []
    else f.records.filter fun e ↦ isLessThan n e.1

/-- The transactions `replay_wal_if_necessary` executes, given the number remembered by the
database. -/
def replayWalIfNecessary (inDb : Option ℕ) (w : WriteAheadLogManager) : List Entry :=
  match inDb, w.lastSequenceNumber with
  | some n, some last => if isLessThan n last then w.replayTransactionsAfter n else []
  | _, _ => []

end WriteAheadLogManager

/-- The clock when the next file is begun: it does not read earlier than the name of the last file,
and in the second of that name a serial number of three digits is left. -/
def ClockFits (now : ClockReading) (files : List WalFile) : Prop :=
  ∀ f ∈ files.getLast?, maxLogSize < f.fileSize →
    codes f.name.creationTime ≤ codes now.toIsoString ∧
      (f.name.creationTime = now.toIsoString → f.name.serialNumber < 999)

instance (now : ClockReading) (files : List WalFile) : Decidable (ClockFits now files) := by
  unfold ClockFits
  infer_instance

structure InNameOrder (names : List LogName) : Prop where
  increasing : names.Pairwise fun f g ↦ codes f.filename < codes g.filename
  stamped : ∀ f ∈ names, ∃ r : ClockReading, f.creationTime = r.toIsoString

/-- Records whose numbers count on from `base`, wrapping. -/
def Numbered (base : ℕ) (log : List Entry) : Prop :=
  ∀ i e, log[i]? = some e → e.1 = (base + i) % 2 ^ 31

/-- The number just before position `k` of the numbering. -/
def Precedes (n k : ℕ) : Prop := n < 2 ^ 31 ∧ (n + 1) % 2 ^ 31 = k % 2 ^ 31

def logLimit : ℕ := 1073741822

theorem getSequenceNumberAfter_mod (k : ℕ) :
    getSequenceNumberAfter (k % 2 ^ 31) = (k + 1) % 2 ^ 31 := by
  unfold getSequenceNumberAfter maxSequenceNumber
  split <;> omega

theorem Precedes.mod_add {n k : ℕ} (h : Precedes n k) (j : ℕ) :
    (k + j) % 2 ^ 31 = (n + 1 + j) % 2 ^ 31 := by
  rw [Nat.add_mod, ← h.2, ← Nat.add_mod]

theorem isLessThan_iff {lhs rhs : ℕ} : isLessThan lhs rhs = true ↔
    lhs < rhs ∧ rhs - lhs < 1073741823 ∨ rhs < lhs ∧ 1073741823 < lhs - rhs := by
  have hhalf : maxSequenceNumber / 2 = 1073741823 := rfl
  simp only [isLessThan, Bool.or_eq_true, Bool.and_eq_true, decide_eq_true_eq, hhalf]

theorem mod_cases {a : ℕ} (h : a < 2 ^ 32) :
    a % 2 ^ 31 = a ∧ a < 2 ^ 31 ∨ a % 2 ^ 31 = a - 2 ^ 31 ∧ 2 ^ 31 ≤ a := by
  omega

section Window

variable {base i m n : ℕ} (hprec : Precedes n (base + m)) (hi : i < logLimit) (hm : m ≤ logLimit)
include hprec hi hm

theorem isLessThan_of_le (h : m ≤ i) : isLessThan n ((base + i) % 2 ^ 31) = true := by
  have hn := hprec.1
  have hmod := hprec.mod_add (i - m)
  rw [show base + m + (i - m) = base + i by omega] at hmod
  rw [isLessThan_iff]
  unfold logLimit at hi hm
  rw [hmod]
  rcases mod_cases (a := n + 1 + (i - m)) (by omega) with ⟨h, hlt⟩ | ⟨h, hle⟩ <;> rw [h] <;>
    clear hprec hmod h <;> omega

theorem not_isLessThan_of_lt (h : i < m) : isLessThan n ((base + i) % 2 ^ 31) = false := by
  have hn := hprec.1
  have hmod : ((base + i) % 2 ^ 31 + (m - i)) % 2 ^ 31 = (n + 1) % 2 ^ 31 := by
    rw [Nat.mod_add_mod, show base + i + (m - i) = base + m by omega, hprec.2]
  have hlt : (base + i) % 2 ^ 31 < 2 ^ 31 := Nat.mod_lt _ (by decide)
  generalize (base + i) % 2 ^ 31 = x at *
  rw [← Bool.not_eq_true, isLessThan_iff]
  unfold logLimit at hi hm
  rcases mod_cases (a := x + (m - i)) (by omega) with ⟨h, hle⟩ | ⟨h, hle⟩ <;>
    rcases mod_cases (a := n + 1) (by omega) with ⟨h', hle'⟩ | ⟨h', hle'⟩ <;>
    rw [h, h'] at hmod <;> clear hprec h h' <;> omega

theorem not_completed_of_le (h : m ≤ i) :
    n ≠ (base + i) % 2 ^ 31 ∧ isLessThan ((base + i) % 2 ^ 31) n = false := by
  have hn := hprec.1
  have hmod := hprec.mod_add (i - m)
  rw [show base + m + (i - m) = base + i by omega] at hmod
  rw [← Bool.not_eq_true, isLessThan_iff]
  unfold logLimit at hi hm
  rw [hmod]
  rcases mod_cases (a := n + 1 + (i - m)) (by omega) with ⟨h, hlt⟩ | ⟨h, hle⟩ <;> rw [h] <;>
    clear hprec hmod h <;> omega

end Window

variable {base : ℕ}

theorem Numbered.append_right {front back : List Entry}
    (h : Numbered base (front ++ back)) : Numbered (base + front.length) back := by
  intro i e he
  have := h (front.length + i) e (by rw [List.getElem?_append_right (by omega)]; simpa using he)
  rw [this, Nat.add_assoc]

theorem Numbered.concat {log : List Entry} (h : Numbered base log) {e : Entry}
    (he : e.1 = (base + log.length) % 2 ^ 31) : Numbered base (log ++ [e]) := by
  intro i e' he'
  rcases Nat.lt_trichotomy i log.length with hi | rfl | hi
  · exact h i e' (by rwa [List.getElem?_append_left hi] at he')
  · simp only [List.getElem?_concat_length, Option.some.injEq] at he'
    rw [← he', he]
  · rw [List.getElem?_eq_none (by simp only [List.length_append, List.length_singleton]; omega)]
      at he'
    cases he'

theorem Numbered.getLast? {log : List Entry} (h : Numbered base log) {e : Entry}
    (he : log.getLast? = some e) : 0 < log.length ∧ e.1 = (base + (log.length - 1)) % 2 ^ 31 := by
  rw [List.getLast?_eq_getElem?] at he
  exact ⟨by have := (List.getElem?_eq_some_iff.1 he).1; omega, h _ e he⟩

structure WalFile.Filled (f : WalFile) : Prop where
  records : f.records ≠ []
  size : f.fileSize ≠ 0

theorem WalFile.Filled.isEmpty {f : WalFile} (h : f.Filled) : f.isEmpty = false := by
  simpa [WalFile.isEmpty] using h.size

theorem WalFile.filled_writeRecord (e : Entry) {f : WalFile} (hf : f.fileSize ≤ maxLogSize) :
    (f.writeRecord e).Filled := by
  have hlen := e.2.length_lt
  unfold maxLogSize at hf
  refine ⟨by simp [WalFile.writeRecord], ?_⟩
  simp only [WalFile.writeRecord]
  rw [Nat.mod_eq_of_lt (by omega)]
  omega

namespace WriteAheadLogManager

variable {now : ClockReading}

theorem flatMap_storeInLast (e : Entry) (files : List WalFile) :
    (storeInLast now e files).flatMap WalFile.records = files.flatMap WalFile.records ++ [e] := by
  fun_induction storeInLast now e files with
  | case1 => rfl
  | case2 f h => simp [WalFile.writeRecord, WalFile.create]
  | case3 f h => simp [WalFile.writeRecord]
  | case4 f g fs ih =>
    rw [List.flatMap_cons, ih, ← List.append_assoc]
    rfl

variable {files : List WalFile}

theorem filled_storeInLast (e : Entry) (h : ∀ f ∈ files, f.Filled) :
    ∀ f ∈ storeInLast now e files, f.Filled := by
  have hnew : ∀ last, ((WalFile.create last now).writeRecord e).Filled :=
    fun last ↦ WalFile.filled_writeRecord e (Nat.zero_le _)
  fun_induction storeInLast now e files with
  | case1 => simpa using hnew none
  | case2 f hbig => simpa [hnew] using h f (by simp)
  | case3 f hbig => simpa using WalFile.filled_writeRecord e (Nat.le_of_not_lt hbig)
  | case4 f g fs ih =>
    obtain ⟨hf, hfs⟩ := List.forall_mem_cons.1 h
    exact List.forall_mem_cons.2 ⟨hf, ih hfs⟩

theorem map_name_storeInLast (e : Entry) (files : List WalFile) :
    (storeInLast now e files).map WalFile.name =
      files.map WalFile.name ++ ((newFile now files).map WalFile.name).toList := by
  fun_induction storeInLast now e files with
  | case1 => rfl
  | case2 f h => simp [newFile, WalFile.writeRecord, h]
  | case3 f h => simp [newFile, WalFile.writeRecord, h]
  | case4 f g fs ih => simp only [newFile, List.map_cons, List.cons_append,
      List.getLast?_cons_cons] at ih ⊢; rw [ih]

theorem inNameOrder_concat {names : List LogName} {f : LogName} {r : ClockReading}
    (h : InNameOrder names) (htime : f.creationTime = r.toIsoString)
    (hlast : ∀ g ∈ names.getLast?, codes g.filename < codes f.filename) :
    InNameOrder (names ++ [f]) := by
  refine ⟨List.pairwise_append.2 ⟨h.increasing, List.pairwise_singleton _ _, ?_⟩, ?_⟩
  · intro g hg f' hf'
    rw [List.mem_singleton.1 hf']
    obtain ⟨last, hgetLast⟩ := Option.isSome_iff_exists.1
      (List.getLast?_isSome.2 (List.ne_nil_of_mem hg))
    obtain ⟨front, rfl⟩ := List.getLast?_eq_some_iff.1 hgetLast
    rcases List.mem_append.1 hg with hfront | hlast'
    · have hbefore := (List.pairwise_append.1 h.increasing).2.2 g hfront last (by simp)
      exact hbefore.trans (hlast last hgetLast)
    · rw [List.mem_singleton.1 hlast']
      exact hlast last hgetLast
  · intro g hg
    rcases List.mem_append.1 hg with hg | hg
    · exact h.stamped g hg
    · rw [List.mem_singleton.1 hg]
      exact ⟨r, htime⟩

theorem inNameOrder_storeInLast (e : Entry) (h : InNameOrder (files.map WalFile.name))
    (hclock : ClockFits now files) :
    InNameOrder ((storeInLast now e files).map WalFile.name) := by
  rw [map_name_storeInLast, newFile]
  cases hlast : files.getLast? with
  | none =>
    refine inNameOrder_concat h (r := now) rfl fun g hg ↦ ?_
    rw [List.getLast?_map, hlast] at hg
    cases hg
  | some f =>
    dsimp only
    split
    case isTrue hbig =>
      obtain ⟨r, htime⟩ := h.stamped f.name (List.mem_map_of_mem (List.mem_of_getLast? hlast))
      obtain ⟨hle, hserial⟩ := hclock f hlast hbig
      refine inNameOrder_concat h (r := now) rfl fun g hg ↦ ?_
      rw [List.getLast?_map, hlast] at hg
      obtain rfl := Option.some.inj hg
      exact LogName.filename_lt_next htime hle hserial
    case isFalse => simpa using h

theorem sortedFiles_eq (h : InNameOrder (files.map WalFile.name)) :
    sortedFiles files = files := by
  refine List.Pairwise.insertionSort_eq ((List.pairwise_map.1 h.increasing).imp ?_)
  exact fun hlt ↦ le_of_lt hlt

theorem openFiles_eq (h : InNameOrder (files.map WalFile.name)) :
    openFiles files = ⟨files, computeLastSequenceNumber files, none⟩ := by
  rw [openFiles, sortedFiles_eq h]

theorem computeLastSequenceNumber_eq (h : ∀ f ∈ files, f.Filled) :
    computeLastSequenceNumber files =
      (files.flatMap WalFile.records).getLast?.map Prod.fst := by
  induction files using List.reverseRecOn with
  | nil => rfl
  | append_singleton files f ih =>
    have hf := h f (by simp)
    rw [computeLastSequenceNumber, List.reverse_append, List.reverse_singleton,
      List.singleton_append, List.find?_cons_of_pos (by simp [hf.isEmpty]), List.flatMap_append,
      List.flatMap_singleton, List.getLast?_append_of_ne_nil _ hf.records]
    simp [WalFile.getLastSequenceNumber, List.getLast?_eq_some_getLast hf.records]

theorem exists_getNextSequenceNumber {w : WriteAheadLogManager} {base : ℕ}
    (hnum : Numbered base w.log) (hlast : w.lastSequenceNumber = w.log.getLast?.map Prod.fst) :
    ∃ base', (w.log ≠ [] → base' = base) ∧ Numbered base' w.log ∧
      w.getNextSequenceNumber = (base' + w.log.length) % 2 ^ 31 := by
  by_cases hnil : w.log = []
  · refine ⟨0, fun hne ↦ absurd hnil hne, by simp [Numbered, hnil], ?_⟩
    rw [hnil] at hlast ⊢
    simp [getNextSequenceNumber, hlast]
  · refine ⟨base, fun _ ↦ rfl, hnum, ?_⟩
    obtain ⟨e, he⟩ : ∃ e, w.log.getLast? = some e := ⟨_, List.getLast?_eq_some_getLast hnil⟩
    obtain ⟨hpos, hnumber⟩ := hnum.getLast? he
    rw [he, Option.map_some] at hlast
    rw [getNextSequenceNumber, hlast]
    simp only [hnumber, getSequenceNumberAfter_mod]
    congr 1
    omega

theorem exists_removeCompleted (n : ℕ) (shuttingDown : Bool) (files : List WalFile) :
    ∃ removed, files = removed ++ removeCompleted n shuttingDown files ∧ ∀ f ∈ removed,
      f.isEmpty = true ∨ n = f.getLastSequenceNumber ∨
        isLessThan f.getLastSequenceNumber n = true := by
  induction files with
  | nil => exact ⟨[], rfl, by simp⟩
  | cons f fs ih =>
    unfold removeCompleted
    split
    case isTrue h =>
      obtain ⟨removed, heq, hremoved⟩ := ih
      refine ⟨f :: removed, by rw [List.cons_append, ← heq], ?_⟩
      simp only [Bool.and_eq_true, Bool.or_eq_true, beq_iff_eq] at h
      exact List.forall_mem_cons.2 ⟨or_assoc.1 h.2, hremoved⟩
    case isFalse h => exact ⟨[], rfl, by simp⟩

theorem inNameOrder_removeCompleted (n : ℕ) (shuttingDown : Bool)
    (h : InNameOrder (files.map WalFile.name)) :
    InNameOrder ((removeCompleted n shuttingDown files).map WalFile.name) := by
  obtain ⟨removed, heq, -⟩ := exists_removeCompleted n shuttingDown files
  have hsub := (List.sublist_append_right removed (removeCompleted n shuttingDown files)).map
    WalFile.name
  rw [← heq] at hsub
  exact ⟨h.increasing.sublist hsub, fun f hf ↦ h.stamped f (hsub.subset hf)⟩

theorem removeCompleted_ne_nil (n : ℕ) (h : files ≠ []) :
    removeCompleted n false files ≠ [] := by
  induction files with
  | nil => exact absurd rfl h
  | cons f fs ih =>
    unfold removeCompleted
    split
    case isTrue hremove =>
      simp only [Bool.or_false, Bool.and_eq_true, Bool.not_eq_true', List.isEmpty_eq_false_iff]
        at hremove
      exact ih hremove.1
    case isFalse => simp

theorem getLastSequenceNumber_eq {base : ℕ} {front back : List WalFile} {f : WalFile}
    (hnum : Numbered base ((front ++ f :: back).flatMap WalFile.records))
    (hf : f.records ≠ []) :
    f.getLastSequenceNumber =
      (base + ((front.flatMap WalFile.records).length + (f.records.length - 1))) % 2 ^ 31 := by
  rw [List.flatMap_append, List.flatMap_cons] at hnum
  obtain ⟨e, he⟩ : ∃ e, f.records.getLast? = some e :=
    ⟨_, List.getLast?_eq_some_getLast hf⟩
  have hpos := List.length_pos_iff.2 hf
  have hlast := he
  rw [List.getLast?_eq_getElem?] at hlast
  rw [WalFile.getLastSequenceNumber, he]
  refine hnum _ e ?_
  rw [List.getElem?_append_right (by omega), Nat.add_sub_cancel_left,
    List.getElem?_append_left (by omega), hlast]

variable {base n : ℕ} {done pending : List Entry} {files : List WalFile}
  (hlog : files.flatMap WalFile.records = done ++ pending)
  (hnum : Numbered base (done ++ pending)) (hshort : (done ++ pending).length ≤ logLimit)
  (hfilled : ∀ f ∈ files, f.Filled) (hprec : Precedes n (base + done.length))
include hlog hnum hshort hfilled hprec

theorem removeCompleted_spec (shuttingDown : Bool) :
    ∃ gone kept, done = gone ++ kept ∧
      (removeCompleted n shuttingDown files).flatMap WalFile.records = kept ++ pending := by
  obtain ⟨removed, heq, hremoved⟩ := exists_removeCompleted n shuttingDown files
  have happ : removed.flatMap WalFile.records ++
      (removeCompleted n shuttingDown files).flatMap WalFile.records = done ++ pending := by
    rw [← List.flatMap_append, ← heq, hlog]
  suffices hle : (removed.flatMap WalFile.records).length ≤ done.length by
    obtain ⟨kept, hkept⟩ := List.prefix_of_prefix_length_le
      (List.prefix_append _ _) (happ ▸ List.prefix_append done pending) hle
    refine ⟨_, kept, hkept.symm, ?_⟩
    rw [← hkept, List.append_assoc] at happ
    exact List.append_cancel_left happ
  by_contra hlt
  rcases List.eq_nil_or_concat removed with rfl | ⟨front, f, rfl⟩
  · simp at hlt
  · have hf := hfilled f (by rw [heq]; simp)
    have hpos := List.length_pos_iff.2 hf.records
    have hnum' : Numbered base
        ((front ++ f :: removeCompleted n shuttingDown files).flatMap WalFile.records) := by
      rw [← hlog, heq] at hnum
      simpa using hnum
    have hlast := getLastSequenceNumber_eq hnum' hf.records
    have hlen := congrArg List.length happ
    simp only [List.concat_eq_append, List.flatMap_append, List.flatMap_singleton,
      List.length_append] at hlt hlen hshort
    obtain ⟨hne, hless⟩ := not_completed_of_le hprec
      (i := (front.flatMap WalFile.records).length + (f.records.length - 1))
      (by omega) (by omega) (by omega)
    rw [← hlast] at hne hless
    rcases hremoved f (by simp) with h | h | h
    · rw [hf.isEmpty] at h
      cases h
    · exact hne h
    · rw [hless] at h
      cases h

theorem replayTransactionsAfter_eq {last completed : Option ℕ} :
    replayTransactionsAfter n ⟨files, last, completed⟩ = pending := by
  have hfile : ∀ f ∈ files, (if f.isEmpty || isLessThan f.getLastSequenceNumber n then []
      else f.records.filter fun e ↦ isLessThan n e.1) =
      f.records.filter fun e ↦ isLessThan n e.1 := by
    intro f hf
    rw [(hfilled f hf).isEmpty, Bool.false_or]
    refine ite_eq_right_iff.2 fun hskip ↦ ?_
    obtain ⟨front, back, rfl⟩ := List.append_of_mem hf
    have hrecords := (hfilled f hf).records
    have hlast := getLastSequenceNumber_eq (hlog ▸ hnum) hrecords
    have hlen := congrArg List.length hlog
    simp only [List.flatMap_append, List.flatMap_cons, List.length_append] at hlen hshort
    have hpos := List.length_pos_iff.2 hrecords
    have hbefore : (front.flatMap WalFile.records).length + (f.records.length - 1) <
        done.length := by
      by_contra hle
      have := (not_completed_of_le hprec (by omega) (by omega) (Nat.le_of_not_lt hle)).2
      rw [← hlast, hskip] at this
      cases this
    refine (List.filter_eq_nil_iff.2 fun e he ↦ ?_).symm
    obtain ⟨i, hi, hget⟩ := List.mem_iff_getElem.1 he
    have hnumber := hnum ((front.flatMap WalFile.records).length + i) e (by
      rw [← hlog, List.flatMap_append, List.flatMap_cons,
        List.getElem?_append_right (by omega), Nat.add_sub_cancel_left,
        List.getElem?_append_left hi, List.getElem?_eq_getElem hi, hget])
    rw [hnumber, not_isLessThan_of_lt hprec (by omega) (by omega) (by omega)]
    decide
  have hdone : done.filter (fun e ↦ isLessThan n e.1) = [] := by
    refine List.filter_eq_nil_iff.2 fun e he ↦ ?_
    obtain ⟨i, hi, hget⟩ := List.mem_iff_getElem.1 he
    simp only [List.length_append] at hshort
    rw [hnum i e (by rw [List.getElem?_append_left hi, List.getElem?_eq_getElem hi, hget]),
      not_isLessThan_of_lt hprec (by omega) (by omega) hi]
    decide
  have hpending : pending.filter (fun e ↦ isLessThan n e.1) = pending := by
    refine List.filter_eq_self.2 fun e he ↦ ?_
    obtain ⟨i, hi, hget⟩ := List.mem_iff_getElem.1 he
    simp only [List.length_append] at hshort
    rw [hnum (done.length + i) e (by
        rw [List.getElem?_append_right (by omega), Nat.add_sub_cancel_left,
          List.getElem?_eq_getElem hi, hget]),
      isLessThan_of_le hprec (by omega) (by omega) (by omega)]
  rw [replayTransactionsAfter, List.flatMap_congr hfile, ← List.filter_flatMap, hlog,
    List.filter_append, hdone, hpending, List.nil_append]

end WriteAheadLogManager

end HiveForkManager
