import HiveForkManager.Lib.RecordStream

namespace HiveForkManager

abbrev Bytes := List UInt8

def ascii (text : List Char) : Bytes := text.map Char.toUInt8

def newline : UInt8 := 10

def isSpace (b : UInt8) : Bool := b == 32 || (9 ≤ b && b ≤ 13)

def isDigit (b : UInt8) : Bool := 48 ≤ b && b ≤ 57

def decimal (n : ℕ) : Bytes :=
  if n = 0 then [48] else ((Nat.digits 10 n).map fun d ↦ UInt8.ofNat (48 + d)).reverse

def signedDecimal (z : ℤ) : Bytes :=
  if z < 0 then 45 :: decimal z.natAbs else decimal z.natAbs

/-- `std::setw(10)`: blanks on the left, never a cut. -/
def setw10 (text : Bytes) : Bytes := List.replicate (10 - text.length) 32 ++ text

def padZeros (width : ℕ) (text : Bytes) : Bytes :=
  List.replicate (width - text.length) 48 ++ text

structure LogRecord where
  sequenceNumber : ℤ
  sql : Bytes
  deriving DecidableEq, Repr

def beginLine (r : LogRecord) : Bytes :=
  ascii ['b', 'e', 'g', 'i', 'n', ' '] ++ setw10 (signedDecimal r.sequenceNumber) ++ [32] ++
    setw10 (decimal r.sql.length) ++ [newline]

def endLine (r : LogRecord) : Bytes :=
  newline :: ascii ['e', 'n', 'd', ' '] ++ setw10 (signedDecimal r.sequenceNumber) ++ [32] ++
    setw10 (decimal r.sql.length) ++ [newline, newline]

def writeRecord (r : LogRecord) : Bytes := beginLine r ++ r.sql ++ endLine r

def extractWord (stream : Bytes) : Option (Bytes × Bytes) :=
  let stream := stream.dropWhile isSpace
  let word := stream.takeWhile (!isSpace ·)
  if word.isEmpty then none else some (word, stream.dropWhile (!isSpace ·))

/-- The sign and the digits `>>` collects for a number. -/
def extractDigits (stream : Bytes) : Option (Bool × ℕ × Bytes) :=
  let stream := stream.dropWhile isSpace
  let negative := stream.head? == some 45
  let stream := if negative || stream.head? == some 43 then stream.tail else stream
  let digits := stream.takeWhile isDigit
  if digits.isEmpty then none
  else some (negative, digits.foldl (fun n d ↦ 10 * n + (d.toNat - 48)) 0,
    stream.dropWhile isDigit)

/-- `>>` into an `int32_t`; a number out of range sets the fail bit. -/
def extractInt32 (stream : Bytes) : Option (ℤ × Bytes) := do
  let (negative, n, rest) ← extractDigits stream
  if negative then (if n ≤ 2 ^ 31 then some (-(n : ℤ), rest) else none)
  else (if n < 2 ^ 31 then some ((n : ℤ), rest) else none)

/-- `>>` into a `uint32_t`; a minus sign negates modulo `2 ^ 32`. -/
def extractUInt32 (stream : Bytes) : Option (ℕ × Bytes) := do
  let (negative, n, rest) ← extractDigits stream
  if n < 2 ^ 32 then some (if negative then (2 ^ 32 - n) % 2 ^ 32 else n, rest) else none

/-- The word and the two numbers of a `begin` or an `end` line; the line is a C string, so it
ends at its first zero byte. -/
def parseLine (line : Bytes) : Option (Bytes × ℤ × ℕ) := do
  let (word, rest) ← extractWord (line.takeWhile (· != 0))
  let (sequenceNumber, rest) ← extractInt32 rest
  let (sqlLength, _) ← extractUInt32 rest
  some (word, sequenceNumber, sqlLength)

def readBytes (n : ℕ) (file : Bytes) : Except String (Bytes × Bytes) :=
  if n ≤ file.length then .ok (file.take n, file.drop n)
  else .error "Error reading record from log file"

def require (condition : Bool) (message : String) : Except String Unit :=
  if condition then .ok () else .error message

/-- The part of `read_record` after the begin line. -/
def readSqlAndEnd (sequenceNumber : ℤ) (sqlLength : ℕ) (file : Bytes) :
    Except String (LogRecord × Bytes) := do
  let (sql, file) ← readBytes sqlLength file
  let (endBuffer, file) ← readBytes 28 file
  require (endBuffer[0]? == some newline) "Invalid 'end' line in log file"
  require (endBuffer[27]? == some newline) "Invalid 'end' line in log file"
  require (endBuffer[26]? == some newline) "Invalid 'end' line in log file"
  let some (endWord, endSequenceNumber, endSqlLength) := parseLine ((endBuffer.take 26).drop 1)
    | .error "Error parsing 'end' line in log file"
  require (endWord == ascii ['e', 'n', 'd']) "Error parsing 'end' line in log file"
  require (sqlLength == endSqlLength) "Error parsing 'end' line in log file"
  require (sequenceNumber == endSequenceNumber) "Error parsing 'end' line in log file"
  return (⟨sequenceNumber, sql⟩, file)

def readRecord (file : Bytes) : Except String (LogRecord × Bytes) := do
  let (beginBuffer, file) ← readBytes 28 file
  require (beginBuffer[27]? == some newline) "Invalid 'begin' line in log file"
  let some (word, sequenceNumber, sqlLength) := parseLine (beginBuffer.take 27)
    | .error "Error parsing 'begin' line in log file"
  require (word == ascii ['b', 'e', 'g', 'i', 'n']) "Error parsing 'begin' line in log file"
  readSqlAndEnd sequenceNumber sqlLength file

/-- `for_each_record` reads a record before it looks for the end of the file. -/
def forEachRecord (file : Bytes) : Except String (List LogRecord) :=
  RecordStream.readAll readRecord file

/-- An existing file as `open` leaves it: its size in 32 bits and the first and last sequence
number of its records. -/
structure LogFile where
  content : Bytes
  fileSize : ℕ
  sequenceNumberRange : Option (ℤ × ℤ)
  deriving DecidableEq, Repr

def LogFile.openExisting (content : Bytes) : Except String LogFile := do
  let records ← forEachRecord content
  let numbers := records.map LogRecord.sequenceNumber
  return ⟨content, content.length % 2 ^ 32, numbers.head?.map fun n ↦ (n, numbers.getLast?.getD n)⟩

theorem isDigit_ofNat {d : ℕ} (hd : d < 10) : isDigit (UInt8.ofNat (48 + d)) = true := by
  interval_cases d <;> rfl

theorem toNat_ofNat_digit {d : ℕ} (hd : d < 10) : (UInt8.ofNat (48 + d)).toNat - 48 = d := by
  interval_cases d <;> rfl

variable {n : ℕ} {b : UInt8} {z : ℤ} {r : LogRecord}

theorem isDigit_of_mem_decimal (hb : b ∈ decimal n) : isDigit b = true := by
  unfold decimal at hb
  split at hb
  · rw [List.mem_singleton.1 hb]
    rfl
  · obtain ⟨d, hd, rfl⟩ := List.mem_map.1 (List.mem_reverse.1 hb)
    exact isDigit_ofNat (Nat.digits_lt_base (by decide) hd)

theorem decimal_ne_nil (n : ℕ) : decimal n ≠ [] := by
  unfold decimal
  split
  · simp
  · simpa only [ne_eq, List.reverse_eq_nil_iff, List.map_eq_nil_iff, Nat.digits_eq_nil_iff_eq_zero]

theorem decimal_length_le {k : ℕ} (hk : 0 < k) (hn : n < 10 ^ k) : (decimal n).length ≤ k := by
  unfold decimal
  split
  · exact hk
  · rw [List.length_reverse, List.length_map, Nat.digits_length_le_iff (by decide)]
    exact hn

theorem foldl_decimal (n : ℕ) :
    (decimal n).foldl (fun n d ↦ 10 * n + (d.toNat - 48)) 0 = n := by
  unfold decimal
  split
  case isTrue h => rw [h]; rfl
  case isFalse h =>
    rw [List.foldl_reverse, List.foldr_map]
    calc List.foldr (fun d n ↦ 10 * n + ((UInt8.ofNat (48 + d)).toNat - 48)) 0 (Nat.digits 10 n)
        = List.foldr (fun d n ↦ d + 10 * n) 0 (Nat.digits 10 n) := by
          refine List.foldr_ext _ _ _ fun d hd n ↦ ?_
          rw [toNat_ofNat_digit (Nat.digits_lt_base (by decide) hd), Nat.add_comm]
      _ = n := by
          have := Nat.ofDigits_digits 10 n
          rwa [Nat.ofDigits_eq_foldr] at this

theorem isSpace_of_isDigit (hb : isDigit b = true) : isSpace b = false := by
  simp only [isDigit, isSpace, Bool.and_eq_true, decide_eq_true_eq, Bool.or_eq_false_iff,
    Bool.and_eq_false_iff, decide_eq_false_iff_not, UInt8.le_iff_toNat_le, beq_eq_false_iff_ne,
    ne_eq, ← UInt8.toNat_inj] at hb ⊢
  have h48 : (48 : UInt8).toNat = 48 := rfl
  have h13 : (13 : UInt8).toNat = 13 := rfl
  have h32 : (32 : UInt8).toNat = 32 := rfl
  omega

theorem head?_decimal (n : ℕ) (rest : Bytes) :
    ∃ b, (decimal n ++ rest).head? = some b ∧ isDigit b = true := by
  cases h : decimal n with
  | nil => exact absurd h (decimal_ne_nil n)
  | cons b bs => exact ⟨b, rfl, isDigit_of_mem_decimal (h ▸ List.mem_cons_self)⟩

theorem signedDecimal_natCast (n : ℕ) : signedDecimal n = decimal n := by
  simp [signedDecimal]

theorem extractDigits_setw10 (z : ℤ) {rest : Bytes}
    (hrest : ∀ b ∈ rest.head?, isDigit b = false) :
    extractDigits (setw10 (signedDecimal z) ++ rest) = some (decide (z < 0), z.natAbs, rest) := by
  have htake : (decimal z.natAbs ++ rest).takeWhile isDigit = decimal z.natAbs := by
    rw [List.takeWhile_append_of_pos fun b ↦ isDigit_of_mem_decimal]
    cases rest with
    | nil => simp
    | cons b bs => simp [hrest b rfl]
  have hdrop : (decimal z.natAbs ++ rest).dropWhile isDigit = rest := by
    rw [List.dropWhile_append_of_pos fun b ↦ isDigit_of_mem_decimal]
    cases rest with
    | nil => simp
    | cons b bs => simp [hrest b rfl]
  have hblank : ∀ t : Bytes, (∀ b ∈ t.head?, isSpace b = false) →
      (List.replicate (10 - (signedDecimal z).length) 32 ++ t).dropWhile isSpace = t := by
    intro t ht
    rw [List.dropWhile_append_of_pos (by simp [isSpace])]
    cases t with
    | nil => simp
    | cons b bs => simp [ht b rfl]
  have hne : (decimal z.natAbs).isEmpty = false := by
    simpa only [List.isEmpty_eq_false_iff] using decimal_ne_nil z.natAbs
  unfold extractDigits
  by_cases hz : z < 0
  · have hsigned : signedDecimal z = 45 :: decimal z.natAbs := by simp [signedDecimal, hz]
    rw [setw10, List.append_assoc, hblank _ (by simp [hsigned, isSpace]), hsigned]
    simp [htake, hdrop, hne, foldl_decimal, hz]
  · have hsigned : signedDecimal z = decimal z.natAbs := by simp [signedDecimal, hz]
    obtain ⟨b, hb, hdigit⟩ := head?_decimal z.natAbs rest
    have h45 : (some b == some (45 : UInt8)) = false := by
      simp only [Option.some_beq_some, beq_eq_false_iff_ne]
      rintro rfl
      cases hdigit
    have h43 : (some b == some (43 : UInt8)) = false := by
      simp only [Option.some_beq_some, beq_eq_false_iff_ne]
      rintro rfl
      cases hdigit
    have hspace : ∀ b ∈ (signedDecimal z ++ rest).head?, isSpace b = false := by
      rw [hsigned, hb]
      rintro b' ⟨⟩
      exact isSpace_of_isDigit hdigit
    rw [setw10, List.append_assoc, hblank _ hspace, hsigned]
    simp [htake, hdrop, hne, foldl_decimal, hz, hb, h45, h43]

theorem extractInt32_setw10 (hlow : -2 ^ 31 ≤ z) (hhigh : z < 2 ^ 31) {rest : Bytes}
    (hrest : ∀ b ∈ rest.head?, isDigit b = false) :
    extractInt32 (setw10 (signedDecimal z) ++ rest) = some (z, rest) := by
  simp only [extractInt32, extractDigits_setw10 z hrest, Option.bind_eq_bind, Option.bind_some,
    decide_eq_true_eq]
  split
  case isTrue hz => rw [if_pos (by omega), show -((z.natAbs : ℕ) : ℤ) = z by omega]
  case isFalse hz => rw [if_pos (by omega), show ((z.natAbs : ℕ) : ℤ) = z by omega]

theorem extractUInt32_setw10 (hn : n < 2 ^ 32) :
    extractUInt32 (setw10 (decimal n)) = some (n, []) := by
  have h : extractDigits (setw10 (signedDecimal n) ++ []) = some (decide ((n : ℤ) < 0), _, []) :=
    extractDigits_setw10 n (by simp)
  rw [List.append_nil, signedDecimal_natCast] at h
  simp only [extractUInt32, h, Option.bind_eq_bind, Option.bind_some, Int.natAbs_natCast, hn,
    if_true]
  simp

/-- The records whose numbers fit their ten characters and whose length fits 32 bits. The log
manager only hands out sequence numbers from `0` to `2147483647`. -/
def LogRecord.Fits (r : LogRecord) : Prop :=
  -10 ^ 9 < r.sequenceNumber ∧ r.sequenceNumber < 2 ^ 31 ∧ r.sql.length < 2 ^ 32

instance (r : LogRecord) : Decidable r.Fits := by
  unfold LogRecord.Fits
  infer_instance

theorem length_setw10 {text : Bytes} (h : text.length ≤ 10) : (setw10 text).length = 10 := by
  simp only [setw10, List.length_append, List.length_replicate]
  omega

theorem length_signedDecimal_le (hlow : -10 ^ 9 < z) (hhigh : z < 2 ^ 31) :
    (signedDecimal z).length ≤ 10 := by
  unfold signedDecimal
  split
  · exact Nat.succ_le_succ (decimal_length_le (by decide) (by omega))
  · exact decimal_length_le (by decide) (by omega)

def LogRecord.numbers (r : LogRecord) : Bytes :=
  setw10 (signedDecimal r.sequenceNumber) ++ 32 :: setw10 (decimal r.sql.length)

theorem LogRecord.Fits.length_numbers (hr : r.Fits) : r.numbers.length = 21 := by
  obtain ⟨hlow, hhigh, hlen⟩ := hr
  have hdec := decimal_length_le (n := r.sql.length) (k := 10) (by decide) (by omega)
  simp only [LogRecord.numbers, List.length_append, List.length_cons, length_setw10 hdec,
    length_setw10 (length_signedDecimal_le hlow hhigh)]

theorem beginLine_eq (r : LogRecord) :
    beginLine r = (ascii ['b', 'e', 'g', 'i', 'n'] ++ 32 :: r.numbers) ++ [newline] := by
  simp only [beginLine, LogRecord.numbers, ascii, List.map_cons, List.map_nil, List.append_assoc,
    List.cons_append, List.nil_append]
  rfl

theorem endLine_eq (r : LogRecord) :
    endLine r = newline :: ((ascii ['e', 'n', 'd'] ++ 32 :: r.numbers) ++ [newline, newline]) := by
  simp only [endLine, LogRecord.numbers, ascii, List.map_cons, List.map_nil, List.append_assoc,
    List.cons_append, List.nil_append]
  rfl

theorem LogRecord.Fits.length_beginLine (hr : r.Fits) : (beginLine r).length = 28 := by
  simp [beginLine_eq, ascii, hr.length_numbers]

theorem LogRecord.Fits.length_endLine (hr : r.Fits) : (endLine r).length = 28 := by
  simp [endLine_eq, ascii, hr.length_numbers]

theorem ne_zero_of_mem_setw10 {text : Bytes} (htext : ∀ b ∈ text, b ≠ 0)
    (hb : b ∈ setw10 text) : b ≠ 0 := by
  rcases List.mem_append.1 hb with hb | hb
  · rw [List.eq_of_mem_replicate hb]
    decide
  · exact htext b hb

theorem ne_zero_of_mem_decimal (hb : b ∈ decimal n) : b ≠ 0 := by
  rintro rfl
  cases isDigit_of_mem_decimal hb

theorem ne_zero_of_mem_signedDecimal (hb : b ∈ signedDecimal z) : b ≠ 0 := by
  unfold signedDecimal at hb
  split at hb
  · rcases List.mem_cons.1 hb with rfl | hb
    · decide
    · exact ne_zero_of_mem_decimal hb
  · exact ne_zero_of_mem_decimal hb

theorem LogRecord.ne_zero_of_mem_numbers (hb : b ∈ r.numbers) :
    b ≠ 0 := by
  rcases List.mem_append.1 hb with hb | hb
  · exact ne_zero_of_mem_setw10 (fun _ ↦ ne_zero_of_mem_signedDecimal) hb
  · rcases List.mem_cons.1 hb with rfl | hb
    · decide
    · exact ne_zero_of_mem_setw10 (fun _ ↦ ne_zero_of_mem_decimal) hb

theorem LogRecord.Fits.parseLine_numbers (hr : r.Fits) {word : Bytes} (hne : word ≠ [])
    (hword : ∀ b ∈ word, isSpace b = false ∧ b ≠ 0) :
    parseLine (word ++ 32 :: r.numbers) = some (word, r.sequenceNumber, r.sql.length) := by
  obtain ⟨hlow, hhigh, hlen⟩ := hr
  have hzero : (word ++ 32 :: r.numbers).takeWhile (· != 0) = word ++ 32 :: r.numbers := by
    refine List.takeWhile_eq_self_iff.2 ?_
    intro b hb
    rw [bne_iff_ne]
    rcases List.mem_append.1 hb with hb | hb
    · exact (hword b hb).2
    · rcases List.mem_cons.1 hb with rfl | hb
      · decide
      · exact r.ne_zero_of_mem_numbers hb
  obtain ⟨b, bs, rfl⟩ := List.exists_cons_of_ne_nil hne
  have hdrop : (b :: bs ++ 32 :: r.numbers).dropWhile isSpace = b :: bs ++ 32 :: r.numbers := by
    rw [List.cons_append, List.dropWhile_cons_of_neg (by simp [(hword b (by simp)).1])]
  have hspace : isSpace 32 = true := rfl
  have hextract : extractWord (b :: bs ++ 32 :: r.numbers) =
      some (b :: bs, 32 :: r.numbers) := by
    have hpos : ∀ x ∈ b :: bs, (!isSpace x) = true := fun x hx ↦ by simp [(hword x hx).1]
    simp only [extractWord, hdrop, List.takeWhile_append_of_pos hpos,
      List.dropWhile_append_of_pos hpos]
    simp [hspace]
  have hint : extractInt32 (32 :: r.numbers) =
      some (r.sequenceNumber, 32 :: setw10 (decimal r.sql.length)) := by
    have hrest : ∀ x ∈ (32 :: setw10 (decimal r.sql.length)).head?, isDigit x = false := by
      simp [isDigit]
    have h := extractInt32_setw10 (z := r.sequenceNumber) (by omega) hhigh hrest
    simpa [extractInt32, extractDigits, hspace, LogRecord.numbers] using h
  have huint : extractUInt32 (32 :: setw10 (decimal r.sql.length)) = some (r.sql.length, []) := by
    have h := extractUInt32_setw10 hlen
    simpa [extractUInt32, extractDigits, hspace] using h
  simp only [parseLine, hzero, hextract, hint, huint, Option.bind_eq_bind,
    Option.bind_some]

theorem readBytes_append {bytes : Bytes} (h : bytes.length = n) (rest : Bytes) :
    readBytes n (bytes ++ rest) = .ok (bytes, rest) := by
  subst h
  simp [readBytes]

theorem readBytes_short {file : Bytes} (h : file.length < n) :
    readBytes n file = .error "Error reading record from log file" :=
  if_neg (by omega)

theorem LogRecord.Fits.readRecord_begin (hr : r.Fits) (file : Bytes) :
    readRecord (beginLine r ++ file) = readSqlAndEnd r.sequenceNumber r.sql.length file := by
  have hlen : (ascii ['b', 'e', 'g', 'i', 'n'] ++ 32 :: r.numbers).length = 27 := by
    simp [ascii, hr.length_numbers]
  have hget : (beginLine r)[27]? = some newline := by
    rw [beginLine_eq, List.getElem?_append_right (by omega), hlen]
    rfl
  have hparse : parseLine ((beginLine r).take 27) =
      some (ascii ['b', 'e', 'g', 'i', 'n'], r.sequenceNumber, r.sql.length) := by
    rw [beginLine_eq, List.take_append_of_le_length (by omega), List.take_of_length_le (by omega)]
    exact hr.parseLine_numbers (by decide) (by decide +kernel)
  simp only [readRecord, readBytes_append hr.length_beginLine, bind, Except.bind, hget, hparse,
    require, beq_self_eq_true, if_true]

theorem LogRecord.Fits.readRecord_append (hr : r.Fits) (rest : Bytes) :
    readRecord (writeRecord r ++ rest) = .ok (r, rest) := by
  have hlen : (ascii ['e', 'n', 'd'] ++ 32 :: r.numbers).length = 25 := by
    simp [ascii, hr.length_numbers]
  have hfirst : (endLine r)[0]? = some newline := by rw [endLine_eq]; rfl
  have hget : ∀ i, i = 26 ∨ i = 27 → (endLine r)[i]? = some newline := by
    rintro i (rfl | rfl) <;>
    · rw [endLine_eq, List.getElem?_cons_succ, List.getElem?_append_right (by omega), hlen]
      rfl
  have hparse : parseLine (((endLine r).take 26).drop 1) =
      some (ascii ['e', 'n', 'd'], r.sequenceNumber, r.sql.length) := by
    rw [endLine_eq, List.take_succ_cons, List.drop_one, List.tail_cons,
      List.take_append_of_le_length (by omega), List.take_of_length_le (by omega)]
    exact hr.parseLine_numbers (by decide) (by decide +kernel)
  rw [writeRecord, List.append_assoc, List.append_assoc, hr.readRecord_begin]
  simp only [readSqlAndEnd, readBytes_append rfl, readBytes_append hr.length_endLine, bind, Except.bind, hfirst,
    hget 26 (by simp), hget 27 (by simp), hparse, require, beq_self_eq_true, if_true]
  rfl

theorem LogRecord.Fits.length_writeRecord (hr : r.Fits) :
    (writeRecord r).length = 56 + r.sql.length := by
  simp only [writeRecord, List.length_append, hr.length_beginLine, hr.length_endLine]
  omega

theorem LogRecord.Fits.readRecord_torn (hr : r.Fits) {k : ℕ} (hk : k < (writeRecord r).length) :
    readRecord ((writeRecord r).take k) = .error "Error reading record from log file" := by
  rw [hr.length_writeRecord] at hk
  rcases Nat.lt_or_ge k 28 with hbegin | hbegin
  · rw [readRecord, readBytes_short (by simp only [List.length_take]; omega)]
    rfl
  · have htake : (writeRecord r).take k =
        beginLine r ++ (r.sql ++ endLine r).take (k - 28) := by
      rw [writeRecord, List.append_assoc, List.take_append, hr.length_beginLine,
        List.take_of_length_le (by rw [hr.length_beginLine]; exact hbegin)]
    rw [htake, hr.readRecord_begin, readSqlAndEnd]
    rcases Nat.lt_or_ge (k - 28) r.sql.length with hsql | hsql
    · rw [readBytes_short (by simp only [List.length_take]; omega)]
      rfl
    · rw [List.take_append, List.take_of_length_le hsql, readBytes_append rfl]
      have hshort : ((endLine r).take (k - 28 - r.sql.length)).length < 28 := by
        simp only [List.length_take]
        omega
      simp only [bind, Except.bind, readBytes_short hshort]

theorem isCodec_logRecord :
    RecordStream.IsCodec writeRecord readRecord LogRecord.Fits where
  nonempty r := by simp [writeRecord, beginLine_eq, ascii]
  append _ rest hr := hr.readRecord_append rest
  torn _ _ hr hk := ⟨_, hr.readRecord_torn hk⟩

def LogFile.Yields (content : Bytes) (records : List LogRecord) : Prop :=
  (∃ file, LogFile.openExisting content = .ok file) ∧ forEachRecord content = .ok records

theorem LogFile.yields_iff {content : Bytes} {records : List LogRecord} :
    LogFile.Yields content records ↔ forEachRecord content = .ok records := by
  refine ⟨fun h ↦ h.2, fun h ↦ ⟨?_, h⟩⟩
  simp only [LogFile.openExisting, h, bind, Except.bind]
  exact ⟨_, rfl⟩

/-- The records completely written when writing stopped after `k` bytes. -/
def writtenRecords (k : ℕ) (records : List LogRecord) : List LogRecord :=
  RecordStream.complete writeRecord k records

/-- A log whose writing was interrupted after `k` bytes yields the completely written records,
also after further records are appended, exactly when the cut is where a record ends and the
file is not empty. -/
theorem interrupted_log_yields_iff {records : List LogRecord}
    (hfits : ∀ r ∈ records, r.Fits) {k : ℕ}
    (hk : k ≤ (records.flatMap writeRecord).length) :
    (LogFile.Yields ((records.flatMap writeRecord).take k) (writtenRecords k records) ∧
        ∀ more : List LogRecord, (∀ r ∈ more, r.Fits) →
          LogFile.Yields ((records.flatMap writeRecord).take k ++ more.flatMap writeRecord)
            (writtenRecords k records ++ more)) ↔
      writtenRecords k records ≠ [] ∧
        ((writtenRecords k records).flatMap writeRecord).length = k := by
  simp only [LogFile.yields_iff]
  exact isCodec_logRecord.recovers_iff hfits ⟨⟨0, []⟩, by decide⟩ hk

theorem log_cut_between_records_yields :
    LogFile.Yields ((writeRecord ⟨0, [83]⟩ ++ writeRecord ⟨1, [84]⟩).take 57) [⟨0, [83]⟩] :=
  ((interrupted_log_yields_iff (k := 57)
    (by decide : ∀ r ∈ ([⟨0, [83]⟩, ⟨1, [84]⟩] : List LogRecord), r.Fits)
    (by decide +kernel)).2 (by decide +kernel)).1

/-- One byte of the second record is enough to make the first one unreadable, and so is having
created the file and written nothing. -/
theorem torn_log_is_unreadable :
    writtenRecords 58 [⟨0, [83]⟩, ⟨1, [84]⟩] = [⟨0, [83]⟩] ∧
      ¬ LogFile.Yields ((writeRecord ⟨0, [83]⟩ ++ writeRecord ⟨1, [84]⟩).take 58) [⟨0, [83]⟩] ∧
      ¬ LogFile.Yields [] [] := by
  simp only [LogFile.yields_iff]
  decide +kernel

end HiveForkManager
