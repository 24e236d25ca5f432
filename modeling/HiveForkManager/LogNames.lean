import HiveForkManager.LogFile
import HiveForkManager.Lib.FixedWidth

namespace HiveForkManager

/-- What `second_clock::universal_time` may return: a date and a time of day. -/
structure ClockReading where
  year : ℕ
  month : ℕ
  day : ℕ
  hours : ℕ
  minutes : ℕ
  seconds : ℕ
  year_range : 1400 ≤ year ∧ year ≤ 9999
  month_range : 1 ≤ month ∧ month ≤ 12
  day_range : 1 ≤ day ∧ day ≤ 31
  hours_lt : hours < 24
  minutes_lt : minutes < 60
  seconds_lt : seconds < 60
  deriving DecidableEq

namespace ClockReading

def fields (r : ClockReading) : List ℕ :=
  [r.year, r.month, r.day, r.hours, r.minutes, r.seconds]

def toIsoString (r : ClockReading) : Bytes :=
  decimal r.year ++ (padZeros 2 (decimal r.month) ++ (padZeros 2 (decimal r.day) ++
    84 :: (padZeros 2 (decimal r.hours) ++ (padZeros 2 (decimal r.minutes) ++
      padZeros 2 (decimal r.seconds)))))

end ClockReading

/-- `std::string` compares bytes as unsigned numbers. -/
def codes (text : Bytes) : List ℕ := text.map UInt8.toNat

/-- The parts of a `log_file` that come from its name. -/
structure LogName where
  creationTime : Bytes
  serialNumber : ℕ
  deriving DecidableEq, Repr

def strtol (text : Bytes) : ℕ :=
  (text.takeWhile isDigit).foldl (fun n d ↦ 10 * n + (d.toNat - 48)) 0

namespace LogName

def filename (f : LogName) : Bytes :=
  f.creationTime ++ 46 :: (padZeros 3 (decimal f.serialNumber) ++ ascii ".wal".toList)

def ofFilename (filename : Bytes) : Except String LogName :=
  match filename.splitOn 46 with
  | [creationTime, serial, suffix] =>
    if suffix = ascii "wal".toList then .ok ⟨creationTime, strtol serial⟩
    else .error "malformed WAL filename"
  | _ => .error "malformed WAL filename"

end LogName

/-- The loop over serial numbers in `store_transaction`. -/
def serialLoop (last : Option LogName) (time : Bytes) : ℕ → ℕ → ℕ
  | 0, serial => serial
  | fuel + 1, serial =>
    match last with
    | none => serial
    | some f =>
      if codes f.creationTime < codes time then serial
      else if f.serialNumber < serial then serial
      else serialLoop last time fuel (serial + 1)

def firstSerial (last : Option LogName) (time : Bytes) : ℕ :=
  serialLoop last time (last.elim 0 LogName.serialNumber + 1) 0

/-- The log files of the directory, in the order of their creation, and those that are open. -/
structure WalDirectory where
  names : List Bytes
  logFiles : List LogName

inductive WalEvent where
  | create (now : ClockReading)
  | deleteFront
  | reopen

namespace WalDirectory

def empty : WalDirectory := ⟨[], []⟩

local instance : LawfulBEq Bytes := List.instLawfulBEq

/-- The rollover of `store_transaction` with `log_file::create`. -/
def create (d : WalDirectory) (now : ClockReading) : Except String WalDirectory :=
  let time := now.toIsoString
  let file : LogName := ⟨time, firstSerial d.logFiles.getLast? time⟩
  if file.filename ∈ d.names then .error "File already exists"
  else .ok ⟨d.names ++ [file.filename], d.logFiles ++ [file]⟩

/-- `delete_file` and `pop_front`, as `transaction_completed` and `clear_log` use them. -/
def deleteFront (d : WalDirectory) : WalDirectory :=
  match d.logFiles with
  | [] => d
  | f :: files => ⟨d.names.erase f.filename, files⟩

def sortedNames (names : List Bytes) : List Bytes :=
  names.insertionSort fun a b ↦ codes a ≤ codes b

def openFiles (names : List Bytes) : Except String (List LogName) :=
  (sortedNames names).mapM LogName.ofFilename

def reopen (d : WalDirectory) : Except String WalDirectory := do
  let files ← openFiles d.names
  .ok ⟨d.names, files⟩

def step (d : WalDirectory) : WalEvent → Except String WalDirectory
  | .create now => d.create now
  | .deleteFront => .ok d.deleteFront
  | .reopen => d.reopen

def run : List WalEvent → WalDirectory → Except String WalDirectory
  | [], d => .ok d
  | event :: events, d => do
    let d ← d.step event
    run events d

end WalDirectory

def readings : List WalEvent → List ClockReading
  | [] => []
  | .create now :: events => now :: readings events
  | .deleteFront :: events => readings events
  | .reopen :: events => readings events

theorem codes_append (a b : Bytes) : codes (a ++ b) = codes a ++ codes b := List.map_append

theorem codes_injective : Function.Injective codes :=
  List.map_injective_iff.2 fun _ _ h ↦ UInt8.toNat_inj.1 h

variable {width n : ℕ}

theorem isDigit_of_mem_padZeros {b : UInt8}
    (hb : b ∈ padZeros width (decimal n)) : isDigit b = true := by
  rcases List.mem_append.mp hb with hzero | hdigit
  · rw [List.eq_of_mem_replicate hzero]
    rfl
  · exact isDigit_of_mem_decimal hdigit

theorem length_padZeros (hwidth : 0 < width) (hn : n < 10 ^ width) :
    (padZeros width (decimal n)).length = width := by
  have := decimal_length_le hwidth hn
  rw [padZeros, List.length_append, List.length_replicate]
  omega

theorem foldl_padZeros (width n : ℕ) :
    (padZeros width (decimal n)).foldl (fun n d ↦ 10 * n + (d.toNat - 48)) 0 = n := by
  have hzeros : ∀ k, (List.replicate k (48 : UInt8)).foldl
      (fun n d ↦ 10 * n + (d.toNat - 48)) 0 = 0 := by
    intro k
    induction k with
    | zero => rfl
    | succ k ih => exact ih
  rw [padZeros, List.foldl_append, hzeros, foldl_decimal]

theorem padZeros_append_lt {m : ℕ} (hwidth : 0 < width) (hm : m < 10 ^ width)
    (hn : n < 10 ^ width) {x y : Bytes} (h : m < n ∨ m = n ∧ codes x < codes y) :
    codes (padZeros width (decimal m) ++ x) < codes (padZeros width (decimal n) ++ y) := by
  have hdigits : ∀ k, ∀ d ∈ codes (padZeros width (decimal k)), 48 ≤ d ∧ d ≤ 57 := by
    intro k d hd
    obtain ⟨b, hb, rfl⟩ := List.mem_map.mp hd
    have hb := isDigit_of_mem_padZeros hb
    rw [isDigit, Bool.and_eq_true, decide_eq_true_eq, decide_eq_true_eq,
      UInt8.le_iff_toNat_le, UInt8.le_iff_toNat_le] at hb
    exact hb
  have hread : ∀ k, FixedWidth.readFrom 0 (codes (padZeros width (decimal k))) = k := by
    intro k
    rw [FixedWidth.readFrom, codes, List.foldl_map, foldl_padZeros]
  rw [codes_append, codes_append]
  rcases h with hless | ⟨rfl, hless⟩
  · have hlength : (codes (padZeros width (decimal m))).length =
        (codes (padZeros width (decimal n))).length := by
      rw [codes, codes, List.length_map, List.length_map, length_padZeros hwidth hm,
        length_padZeros hwidth hn]
    have hlt := FixedWidth.lt_of_readFrom_lt hlength (hdigits m) (hdigits n) (m := 0) (n := 0)
      (by rwa [hread, hread])
    refine FixedWidth.append_lt_append hlength ?_ _ _
    exact (hlt.resolve_left (Nat.lt_irrefl 0)).2
  · exact List.append_left_lt hless

namespace ClockReading

theorem padZeros_year (r : ClockReading) : padZeros 4 (decimal r.year) = decimal r.year := by
  have hyear := r.year_range
  have hlength : 4 ≤ (decimal r.year).length := by
    rw [decimal, if_neg (by omega), List.length_reverse, List.length_map]
    by_contra hshort
    have hdigits : (Nat.digits 10 r.year).length ≤ 3 := by omega
    have hsmall : r.year < 10 ^ 3 := (Nat.digits_length_le_iff (by decide) _).mp hdigits
    omega
  rw [padZeros, Nat.sub_eq_zero_of_le hlength]
  rfl

theorem toIsoString_lt {a b : ClockReading} (h : a.fields < b.fields) :
    codes a.toIsoString < codes b.toIsoString := by
  have hyear := a.year_range
  have hyear' := b.year_range
  have hmonth := a.month_range
  have hmonth' := b.month_range
  have hday := a.day_range
  have hday' := b.day_range
  have hhours := a.hours_lt
  have hhours' := b.hours_lt
  have hminutes := a.minutes_lt
  have hminutes' := b.minutes_lt
  have hseconds := a.seconds_lt
  have hseconds' := b.seconds_lt
  simp only [fields, List.cons_lt_cons_iff, List.not_lt_nil, and_false, or_false] at h
  rw [toIsoString, toIsoString, ← padZeros_year a, ← padZeros_year b]
  refine padZeros_append_lt (by decide : 0 < 4) (by omega) (by omega)
    (h.imp_right fun h ↦ ⟨h.1, ?_⟩)
  replace h := h.2
  refine padZeros_append_lt (by decide : 0 < 2) (by omega) (by omega)
    (h.imp_right fun h ↦ ⟨h.1, ?_⟩)
  replace h := h.2
  refine padZeros_append_lt (by decide : 0 < 2) (by omega) (by omega)
    (h.imp_right fun h ↦ ⟨h.1, ?_⟩)
  replace h := h.2
  refine List.cons_lt_cons_iff.mpr (Or.inr ⟨rfl, ?_⟩)
  refine padZeros_append_lt (by decide : 0 < 2) (by omega) (by omega)
    (h.imp_right fun h ↦ ⟨h.1, ?_⟩)
  replace h := h.2
  refine padZeros_append_lt (by decide : 0 < 2) (by omega) (by omega)
    (h.imp_right fun h ↦ ⟨h.1, ?_⟩)
  replace h := h.2
  have hlast := padZeros_append_lt (x := []) (y := []) (by decide : 0 < 2)
    (by omega : a.seconds < 10 ^ 2) (by omega : b.seconds < 10 ^ 2) (Or.inl h)
  rwa [List.append_nil, List.append_nil] at hlast

theorem fields_injective {a b : ClockReading} (h : a.fields = b.fields) : a = b := by
  cases a
  cases b
  simp only [fields, List.cons.injEq, and_true] at h
  obtain ⟨rfl, rfl, rfl, rfl, rfl, rfl⟩ := h
  rfl

theorem length_toIsoString (r : ClockReading) : r.toIsoString.length = 15 := by
  have hyear := r.year_range
  have hmonth := r.month_range
  have hday := r.day_range
  have hhours := r.hours_lt
  have hminutes := r.minutes_lt
  have hseconds := r.seconds_lt
  rw [toIsoString, ← padZeros_year]
  simp only [List.length_append, List.length_cons]
  rw [length_padZeros (by decide) (by omega), length_padZeros (by decide) (by omega),
    length_padZeros (by decide) (by omega), length_padZeros (by decide) (by omega),
    length_padZeros (by decide) (by omega), length_padZeros (by decide) (by omega)]

theorem dot_notMem_toIsoString (r : ClockReading) : 46 ∉ r.toIsoString := by
  have hpad : ∀ width n, (46 : UInt8) ∉ padZeros width (decimal n) := by
    intro width n hmem
    exact absurd (isDigit_of_mem_padZeros hmem) (by decide)
  rw [toIsoString, ← padZeros_year]
  simp [hpad]

end ClockReading

theorem serialLoop_later {f : LogName} {time : Bytes} (h : codes f.creationTime < codes time) :
    firstSerial (some f) time = 0 := by
  rw [firstSerial, serialLoop]
  exact if_pos h

theorem serialLoop_not_later {f : LogName} {time : Bytes}
    (h : ¬ codes f.creationTime < codes time) : firstSerial (some f) time = f.serialNumber + 1 := by
  have hloop : ∀ fuel serial, serial + fuel = f.serialNumber + 1 →
      serialLoop (some f) time fuel serial = f.serialNumber + 1 := by
    intro fuel
    induction fuel with
    | zero => exact fun _ hserial ↦ hserial
    | succ fuel ih =>
      intro serial hserial
      have hsmall : ¬ f.serialNumber < serial := by omega
      rw [serialLoop]
      simp only [if_neg h, if_neg hsmall]
      exact ih _ (by omega)
  exact hloop _ 0 (Nat.zero_add _)

theorem strtol_padZeros (width n : ℕ) : strtol (padZeros width (decimal n)) = n := by
  have hall : ∀ b ∈ padZeros width (decimal n), isDigit b = true :=
    fun b hb ↦ isDigit_of_mem_padZeros hb
  rw [strtol, List.takeWhile_eq_self_iff.mpr hall, foldl_padZeros]

namespace LogName

theorem ofFilename_filename {f : LogName} (htime : 46 ∉ f.creationTime) :
    ofFilename f.filename = .ok f := by
  have hjoin : f.filename = [46].intercalate
      [f.creationTime, padZeros 3 (decimal f.serialNumber), ascii "wal".toList] := by
    have hsuffix : ascii ".wal".toList = 46 :: ascii "wal".toList := by decide
    rw [filename, hsuffix]
    simp [List.intercalate, List.intersperse]
  have hserial : (46 : UInt8) ∉ padZeros 3 (decimal f.serialNumber) :=
    fun hmem ↦ absurd (isDigit_of_mem_padZeros hmem) (by decide)
  have hsplit : f.filename.splitOn 46 =
      [f.creationTime, padZeros 3 (decimal f.serialNumber), ascii "wal".toList] := by
    rw [hjoin]
    refine List.splitOn_intercalate 46 ?_ (List.cons_ne_nil _ _)
    simp only [List.forall_mem_cons]
    exact ⟨htime, hserial, by decide, by simp⟩
  rw [ofFilename, hsplit]
  simp only [if_true, strtol_padZeros]

theorem filename_lt_next {f : LogName} {r now : ClockReading}
    (htime : f.creationTime = r.toIsoString)
    (hclock : codes f.creationTime ≤ codes now.toIsoString)
    (hserial : f.creationTime = now.toIsoString → f.serialNumber < 999) :
    codes f.filename <
      codes (mk now.toIsoString (firstSerial (some f) now.toIsoString)).filename := by
  rw [filename, filename, codes_append, codes_append]
  rcases lt_or_eq_of_le hclock with hless | hsame
  · refine FixedWidth.append_lt_append ?_ hless _ _
    rw [codes, codes, List.length_map, List.length_map, htime, r.length_toIsoString,
      now.length_toIsoString]
  · have hroom := hserial (codes_injective hsame)
    rw [serialLoop_not_later (hsame ▸ lt_irrefl _), hsame]
    refine List.append_left_lt (List.cons_lt_cons_iff.mpr (Or.inr ⟨rfl, ?_⟩))
    exact padZeros_append_lt (by decide : 0 < 3) (by omega)
      (show f.serialNumber + 1 < 10 ^ 3 by omega) (Or.inl (Nat.lt_succ_self _))

theorem mapM_ofFilename {files : List LogName} (htime : ∀ f ∈ files, 46 ∉ f.creationTime) :
    (files.map filename).mapM ofFilename = .ok files := by
  induction files with
  | nil => rfl
  | cons f files ih =>
    rw [List.map_cons, List.mapM_cons, ofFilename_filename (htime f (List.mem_cons_self ..)),
      ih fun g hg ↦ htime g (List.mem_cons_of_mem _ hg)]
    rfl

end LogName

/-- What holds after the creations at `past`: the open files are those of the directory, their names
increase, and a file's number is below the number of files made at its reading. -/
structure WalDirectory.Ordered (past : List ClockReading) (d : WalDirectory) : Prop where
  names_eq : d.names = d.logFiles.map LogName.filename
  increasing : d.logFiles.Pairwise fun f g ↦ codes f.filename < codes g.filename
  stamped : ∀ f ∈ d.logFiles, ∃ r ∈ past, f.creationTime = r.toIsoString ∧
    f.serialNumber < past.count r

namespace WalDirectory

variable {past : List ClockReading} {d : WalDirectory}

theorem Ordered.dot_notMem (hd : d.Ordered past) : ∀ f ∈ d.logFiles, 46 ∉ f.creationTime := by
  intro f hf
  obtain ⟨r, _, htime, _⟩ := hd.stamped f hf
  rw [htime]
  exact r.dot_notMem_toIsoString

theorem Ordered.names_increasing (hd : d.Ordered past) :
    d.names.Pairwise fun a b ↦ codes a < codes b := by
  rw [hd.names_eq]
  exact List.pairwise_map.mpr hd.increasing

theorem Ordered.sortedNames_eq (hd : d.Ordered past) : sortedNames d.names = d.names := by
  refine List.Pairwise.insertionSort_eq (hd.names_increasing.imp ?_)
  exact fun h ↦ le_of_lt h

theorem Ordered.openFiles_eq (hd : d.Ordered past) : openFiles d.names = .ok d.logFiles := by
  rw [openFiles, hd.sortedNames_eq, hd.names_eq, LogName.mapM_ofFilename hd.dot_notMem]

theorem Ordered.nodup_names (hd : d.Ordered past) : d.names.Nodup := by
  refine hd.names_increasing.imp ?_
  rintro a b hlt rfl
  exact lt_irrefl _ hlt

theorem Ordered.reopen (hd : d.Ordered past) : d.reopen = .ok d := by
  rw [WalDirectory.reopen, hd.openFiles_eq]
  rfl

theorem Ordered.deleteFront (hd : d.Ordered past) : d.deleteFront.Ordered past := by
  obtain ⟨names, files⟩ := d
  cases files with
  | nil => exact hd
  | cons f files =>
    have hcons : names = (f :: files).map LogName.filename := hd.names_eq
    have hnames : names.erase f.filename = files.map LogName.filename := by
      rw [hcons, List.map_cons, List.erase_cons_head]
    exact ⟨hnames, (List.pairwise_cons.mp hd.increasing).2,
      fun g hg ↦ hd.stamped g (List.mem_cons_of_mem _ hg)⟩

theorem Ordered.filename_lt (hd : d.Ordered past) {now : ClockReading}
    (hclock : ∀ r ∈ past, r.fields ≤ now.fields) (hcount : past.count now < 1000)
    {last : LogName} (hlast : d.logFiles.getLast? = some last) :
    let file : LogName := ⟨now.toIsoString, firstSerial (some last) now.toIsoString⟩
    codes last.filename < codes file.filename ∧ file.serialNumber < past.count now + 1 := by
  intro file
  obtain ⟨r, hr, htime, hserial⟩ := hd.stamped last (List.mem_of_getLast? hlast)
  rcases lt_or_eq_of_le (hclock r hr) with hbefore | hsame
  · have hless : codes last.creationTime < codes now.toIsoString := by
      rw [htime]
      exact ClockReading.toIsoString_lt hbefore
    refine ⟨LogName.filename_lt_next htime hless.le fun h ↦ ?_, ?_⟩
    · rw [h] at hless
      exact absurd hless (lt_irrefl _)
    · rw [show file.serialNumber = 0 from serialLoop_later hless]
      exact Nat.succ_pos _
  · obtain rfl := ClockReading.fields_injective hsame
    refine ⟨LogName.filename_lt_next htime (htime ▸ le_rfl) fun _ ↦ by omega, ?_⟩
    rw [show file.serialNumber = last.serialNumber + 1 from
      serialLoop_not_later (htime ▸ lt_irrefl _)]
    omega

theorem Ordered.create (hd : d.Ordered past) {now : ClockReading}
    (hclock : ∀ r ∈ past, r.fields ≤ now.fields) (hcount : past.count now < 1000) :
    ∃ d', d.create now = .ok d' ∧ d'.Ordered (past ++ [now]) := by
  let file : LogName := ⟨now.toIsoString, firstSerial d.logFiles.getLast? now.toIsoString⟩
  have hfile : (∀ f ∈ d.logFiles, codes f.filename < codes file.filename) ∧
      file.serialNumber < past.count now + 1 := by
    cases hlast : d.logFiles.getLast? with
    | none =>
      have hnil := List.getLast?_eq_none_iff.mp hlast
      have hzero : file.serialNumber = 0 := by
        simp only [file, hlast]
        rfl
      rw [hnil, hzero]
      exact ⟨fun f hf ↦ absurd hf List.not_mem_nil, Nat.succ_pos _⟩
    | some last =>
      have hnext := hd.filename_lt hclock hcount hlast
      simp only [file, hlast]
      refine ⟨fun f hf ↦ ?_, hnext.2⟩
      obtain ⟨front, hfront⟩ := List.getLast?_eq_some_iff.mp hlast
      rw [hfront, List.mem_append, List.mem_singleton] at hf
      rcases hf with hf | rfl
      · have hincreasing := hd.increasing
        rw [hfront, List.pairwise_append] at hincreasing
        exact lt_trans (hincreasing.2.2 f hf last (List.mem_singleton_self _)) hnext.1
      · exact hnext.1
  have hnew : file.filename ∉ d.names := by
    rw [hd.names_eq]
    intro hmem
    obtain ⟨f, hf, hname⟩ := List.mem_map.mp hmem
    exact lt_irrefl _ (hname ▸ hfile.1 f hf)
  refine ⟨⟨d.names ++ [file.filename], d.logFiles ++ [file]⟩, if_neg hnew, ?_, ?_, ?_⟩
  · rw [hd.names_eq, List.map_append]
    rfl
  · refine List.pairwise_append.mpr ⟨hd.increasing, List.pairwise_singleton _ _, ?_⟩
    intro f hf g hg
    rw [List.mem_singleton.mp hg]
    exact hfile.1 f hf
  · intro f hf
    rcases List.mem_append.mp hf with hold | hnewfile
    · obtain ⟨r, hr, htime, hserial⟩ := hd.stamped f hold
      refine ⟨r, List.mem_append_left _ hr, htime, ?_⟩
      rw [List.count_append]
      omega
    · rw [List.mem_singleton.mp hnewfile]
      refine ⟨now, List.mem_append_right _ (List.mem_singleton_self _), rfl, ?_⟩
      rw [List.count_append, List.count_singleton_self]
      exact hfile.2

theorem Ordered.run {events : List WalEvent} : ∀ {past : List ClockReading} {d : WalDirectory},
    d.Ordered past →
    (past ++ readings events).Pairwise (fun a b ↦ a.fields ≤ b.fields) →
    (∀ r, (past ++ readings events).count r ≤ 1000) →
    ∃ d', WalDirectory.run events d = .ok d' ∧ d'.Ordered (past ++ readings events) := by
  induction events with
  | nil =>
    intro past d hd _ _
    rw [readings, List.append_nil]
    exact ⟨d, rfl, hd⟩
  | cons event events ih =>
    intro past d hd hclock hcount
    cases event with
    | create now =>
      rw [readings] at hclock hcount ⊢
      have hbefore : ∀ r ∈ past, r.fields ≤ now.fields := fun r hr ↦
        (List.pairwise_append.mp hclock).2.2 r hr now (List.mem_cons_self ..)
      have hroom : past.count now < 1000 := by
        have := hcount now
        rw [List.count_append, List.count_cons_self] at this
        omega
      obtain ⟨d', hstep, hd'⟩ := hd.create hbefore hroom
      have hsplit : past ++ now :: readings events = (past ++ [now]) ++ readings events := by
        rw [List.append_assoc]
        rfl
      rw [hsplit] at hclock hcount ⊢
      obtain ⟨d'', hrun, hd''⟩ := ih hd' hclock hcount
      refine ⟨d'', ?_, hd''⟩
      rw [WalDirectory.run, step, hstep]
      exact hrun
    | deleteFront => exact ih hd.deleteFront hclock hcount
    | reopen =>
      obtain ⟨d', hrun, hd'⟩ := ih hd hclock hcount
      refine ⟨d', ?_, hd'⟩
      rw [WalDirectory.run, step, hd.reopen]
      exact hrun

/-- Over any rollovers, deletions and restarts the names are distinct and the next `open` reads the
files in the order of their creation, as long as the clock does not go back and no second sees
more than 1000 files. -/
theorem log_files_read_in_creation_order (events : List WalEvent)
    (hclock : (readings events).Pairwise fun a b ↦ a.fields ≤ b.fields)
    (hcount : ∀ r, (readings events).count r ≤ 1000) :
    ∃ d, WalDirectory.run events empty = .ok d ∧ d.names.Nodup ∧
      sortedNames d.names = d.names ∧ openFiles d.names = .ok d.logFiles := by
  have hempty : empty.Ordered [] :=
    ⟨rfl, List.Pairwise.nil, fun f hf ↦ absurd hf List.not_mem_nil⟩
  obtain ⟨d, hrun, hd⟩ := Ordered.run hempty hclock hcount
  exact ⟨d, hrun, hd.nodup_names, hd.sortedNames_eq, hd.openFiles_eq⟩

def noonPlus (seconds : Fin 60) : ClockReading :=
  ⟨2024, 5, 1, 12, 0, seconds, by decide, by decide, by decide, by decide, by decide, seconds.2⟩

theorem two_files_in_one_second :
    ∃ d, WalDirectory.run [.create (noonPlus 5), .create (noonPlus 5), .reopen] empty = .ok d ∧
      d.names.Nodup ∧ sortedNames d.names = d.names ∧ openFiles d.names = .ok d.logFiles := by
  refine log_files_read_in_creation_order _ (by decide) fun r ↦ ?_
  exact (List.count_le_length).trans (by decide)

/-- A clock that goes back by one second: the second file is read before the first one. -/
theorem clock_back_reverses_files :
    ∃ d, WalDirectory.run [.create (noonPlus 5), .create (noonPlus 4)] empty = .ok d ∧
      d.names = [ascii "20240501T120005.000.wal".toList, ascii "20240501T120004.001.wal".toList] ∧
      sortedNames d.names = d.names.reverse := by
  refine ⟨_, rfl, ?_, ?_⟩
  · decide +kernel
  · decide +kernel

end WalDirectory

end HiveForkManager
