import HiveForkManager.WriteAheadLog

namespace HiveForkManager

theorem iterate_getSequenceNumberAfter (k : ℕ) {a : ℕ} (ha : a ≤ maxSequenceNumber) :
    getSequenceNumberAfter^[k] a = (a + k) % 2 ^ 31 := by
  unfold maxSequenceNumber at ha
  induction k with
  | zero =>
    rw [Function.iterate_zero_apply, Nat.mod_eq_of_lt]
    · rfl
    · omega
  | succ k ih =>
    rw [Function.iterate_succ_apply', ih, getSequenceNumberAfter_mod]
    rfl

theorem isLessThan_iterate {a k : ℕ} (ha : a ≤ maxSequenceNumber) (hk : 1 ≤ k)
    (hlimit : k ≤ logLimit) :
    isLessThan a (getSequenceNumberAfter^[k] a) = true ∧
      isLessThan (getSequenceNumberAfter^[k] a) a = false := by
  rw [iterate_getSequenceNumberAfter k ha, ← Bool.not_eq_true, isLessThan_iff, isLessThan_iff]
  unfold maxSequenceNumber at ha
  unfold logLimit at hlimit
  rcases mod_cases (a := a + k) (by omega) with ⟨h, hlt⟩ | ⟨h, hle⟩ <;> rw [h] <;> omega

/-- A log manager over its directory, and the stored records whose transactions were not completed
yet. -/
structure LogRun where
  wal : WriteAheadLogManager
  pending : List Entry
  deriving DecidableEq, Repr

/-- What happens to the log. Transactions are completed in order, also several with one call; those
a replay has executed are not reported. A shutdown runs the destructor, a crash does not; both are
followed by the next `open`. -/
inductive LogCall where
  | storeTransaction (c : Command) (now : ClockReading)
  | transactionCompleted (i : ℕ)
  | executed (count : ℕ)
  | shutdown
  | crash
  deriving DecidableEq

namespace LogRun

open WriteAheadLogManager

def initial : LogRun := ⟨openFiles [], []⟩

def step (s : LogRun) : LogCall → Option LogRun
  | .storeTransaction c now =>
    (s.wal.storeTransaction c now).toOption.map fun (n, wal) ↦ ⟨wal, s.pending ++ [(n, c)]⟩
  | .transactionCompleted i => do
    let e ← s.pending[i]?
    let wal ← (s.wal.transactionCompleted e.1 false).toOption
    some ⟨wal, s.pending.drop (i + 1)⟩
  | .executed count => some { s with pending := s.pending.drop count }
  | .shutdown => do
    let files ← s.wal.close.toOption
    some ⟨openFiles files, s.pending⟩
  | .crash => some ⟨openFiles s.wal.logFiles, s.pending⟩

def run (s : LogRun) (calls : List LogCall) : Option LogRun := calls.foldlM step s

/-- A record is stored while its number keeps the files within the window of the comparison and the
clock fits the names of the files. -/
def Fits (s : LogRun) : LogCall → Prop
  | .storeTransaction _ now => s.wal.log.length + 1 < logLimit ∧ ClockFits now s.wal.logFiles
  | _ => True

instance (s : LogRun) (t : LogCall) : Decidable (s.Fits t) := by
  unfold Fits
  cases t <;> infer_instance

inductive Reachable : LogRun → Prop
  | initial : Reachable .initial
  | step {s s' : LogRun} {t : LogCall} (hs : Reachable s) (hstep : s.step t = some s')
      (hfits : s.Fits t) : Reachable s'

/-- The log is what was completed, then what is pending; the number completed last is that of a
record of the first part, or stands right before the log. -/
structure Aligned (s : LogRun) (base : ℕ) (done : List Entry) : Prop where
  log : s.wal.log = done ++ s.pending
  numbered : Numbered base (done ++ s.pending)
  short : (done ++ s.pending).length ≤ logLimit
  filled : ∀ f ∈ s.wal.logFiles, f.Filled
  named : InNameOrder (s.wal.logFiles.map WalFile.name)
  last : s.wal.lastSequenceNumber = s.wal.log.getLast?.map Prod.fst
  completed : ∀ n, s.wal.lastCompletedTransactionSequenceNumber = some n →
    s.wal.log ≠ [] ∧ ∃ m ≤ done.length, Precedes n (base + m)

section Aligned

variable {s s' : LogRun} {base : ℕ} {done : List Entry}

theorem aligned_initial : initial.Aligned 0 [] :=
  ⟨rfl, by simp [Numbered, initial], by simp [initial], by simp [initial, openFiles, sortedFiles],
    ⟨List.Pairwise.nil, by simp [initial, openFiles, sortedFiles]⟩, rfl,
    by simp [initial, openFiles]⟩

theorem Aligned.drop (h : s.Aligned base done) (count : ℕ) :
    Aligned { s with pending := s.pending.drop count } base (done ++ s.pending.take count) := by
  have hsplit : (done ++ s.pending.take count) ++ s.pending.drop count = done ++ s.pending := by
    rw [List.append_assoc, List.take_append_drop]
  refine ⟨?_, ?_, ?_, h.filled, h.named, h.last, fun n hn ↦ ?_⟩
  · rw [hsplit]
    exact h.log
  · rw [hsplit]
    exact h.numbered
  · rw [hsplit]
    exact h.short
  · obtain ⟨hne, m, hm, hprec⟩ := h.completed n hn
    refine ⟨hne, m, ?_, hprec⟩
    rw [List.length_append]
    omega

theorem Aligned.store (h : s.Aligned base done) {c : Command} {now : ClockReading}
    (hstep : s.step (.storeTransaction c now) = some s')
    (hfits : s.Fits (.storeTransaction c now)) : ∃ base', s'.Aligned base' done := by
  obtain ⟨base', hbase, hnum, hnext⟩ :=
    exists_getNextSequenceNumber (h.log ▸ h.numbered : Numbered base s.wal.log) h.last
  unfold LogRun.step WriteAheadLogManager.storeTransaction at hstep
  dsimp only at hstep
  split at hstep <;> try cases hstep
  set e : Entry := (s.wal.getNextSequenceNumber, c)
  have hlog : (storeInLast now e s.wal.logFiles).flatMap WalFile.records =
      done ++ (s.pending ++ [e]) := by
    rw [flatMap_storeInLast, ← List.append_assoc]
    exact congrArg (· ++ [e]) h.log
  refine ⟨base', hlog, ?_, ?_, filled_storeInLast e h.filled,
    inNameOrder_storeInLast e h.named hfits.2, ?_, fun n hn ↦ ?_⟩
  · rw [← List.append_assoc, ← h.log]
    exact hnum.concat hnext
  · have hshort := hfits.1
    rw [h.log] at hshort
    simp only [List.length_append, List.length_singleton] at hshort ⊢
    omega
  · change some e.1 =
      ((storeInLast now e s.wal.logFiles).flatMap WalFile.records).getLast?.map Prod.fst
    simp [hlog]
  · obtain ⟨hne, m, hm, hprec⟩ := h.completed n hn
    refine ⟨?_, m, hm, hbase hne ▸ hprec⟩
    change (storeInLast now e s.wal.logFiles).flatMap WalFile.records ≠ []
    simp [hlog]

theorem Aligned.reopen (h : s.Aligned base done) :
    Aligned ⟨openFiles s.wal.logFiles, s.pending⟩ base done := by
  rw [openFiles_eq h.named]
  exact ⟨h.log, h.numbered, h.short, h.filled, h.named, computeLastSequenceNumber_eq h.filled,
    by simp⟩

theorem Aligned.trim (h : s.Aligned base done) {n m : ℕ} (hm : m ≤ done.length)
    (hprec : Precedes n (base + m)) (shuttingDown : Bool) :
    ∃ gone kept, done = gone ++ kept ∧ gone.length ≤ m ∧
      (removeCompleted n shuttingDown s.wal.logFiles).flatMap WalFile.records =
        kept ++ s.pending := by
  have hsplit : done.take m ++ (done.drop m ++ s.pending) = done ++ s.pending := by
    rw [← List.append_assoc, List.take_append_drop]
  have hlength : (done.take m).length = m := List.length_take_of_le hm
  obtain ⟨gone, kept, htake, hkept⟩ := removeCompleted_spec (h.log.trans hsplit.symm)
    (hsplit ▸ h.numbered) (hsplit ▸ h.short) h.filled (n := n) (hlength.symm ▸ hprec) shuttingDown
  have hle := congrArg List.length htake
  rw [hlength, List.length_append] at hle
  refine ⟨gone, kept ++ done.drop m, ?_, by omega, by rw [hkept, List.append_assoc]⟩
  rw [← List.append_assoc, ← htake, List.take_append_drop]

theorem Aligned.trimmed (h : s.Aligned base done) {n m : ℕ} (hm : m ≤ done.length)
    (hprec : Precedes n (base + m)) (shuttingDown : Bool)
    (hne : removeCompleted n shuttingDown s.wal.logFiles ≠ []) :
    ∃ base' done', Aligned ⟨⟨removeCompleted n shuttingDown s.wal.logFiles,
      s.wal.lastSequenceNumber, some n⟩, s.pending⟩ base' done' := by
  obtain ⟨gone, kept, hdone, hgone, hkept⟩ := h.trim hm hprec shuttingDown
  obtain ⟨removed, hfiles, -⟩ := exists_removeCompleted n shuttingDown s.wal.logFiles
  have hnum := h.numbered
  have hshort := h.short
  rw [hdone, List.append_assoc] at hnum hshort
  have hfilled : ∀ f ∈ removeCompleted n shuttingDown s.wal.logFiles, f.Filled := fun f hf ↦
    h.filled f (hfiles ▸ List.mem_append_right _ hf)
  have hnil : kept ++ s.pending ≠ [] := by
    obtain ⟨f, fs, heq⟩ := List.exists_cons_of_ne_nil hne
    rw [← hkept, heq, List.flatMap_cons]
    simp [(hfilled f (by simp [heq])).records]
  refine ⟨base + gone.length, kept, hkept, hnum.append_right, ?_, hfilled,
    inNameOrder_removeCompleted n shuttingDown h.named, ?_, ?_⟩
  · rw [List.length_append] at hshort
    exact le_trans (Nat.le_add_left _ _) hshort
  · have hlast := h.last
    rw [h.log, hdone, List.append_assoc, List.getLast?_append_of_ne_nil _ hnil] at hlast
    exact hlast.trans (by rw [← hkept]; rfl)
  · rintro _ ⟨⟩
    refine ⟨?_, m - gone.length, ?_, ?_⟩
    · change (WriteAheadLogManager.removeCompleted n shuttingDown s.wal.logFiles).flatMap
        WalFile.records ≠ []
      rwa [hkept]
    · rw [hdone, List.length_append] at hm
      omega
    · rw [show base + gone.length + (m - gone.length) = base + m by omega]
      exact hprec

theorem Aligned.precedes (h : s.Aligned base done) {i : ℕ} {e : Entry}
    (he : s.pending[i]? = some e) :
    i < s.pending.length ∧ Precedes e.1 (base + (done ++ s.pending.take (i + 1)).length) := by
  have hi := (List.getElem?_eq_some_iff.1 he).1
  have hnumber := h.numbered (done.length + i) e (by
    rw [List.getElem?_append_right (by omega), Nat.add_sub_cancel_left, he])
  refine ⟨hi, hnumber ▸ Nat.mod_lt _ (by decide), ?_⟩
  rw [hnumber, Nat.mod_add_mod, List.length_append, List.length_take_of_le hi, Nat.add_assoc,
    Nat.add_assoc]

theorem Aligned.complete (h : s.Aligned base done) {i : ℕ}
    (hstep : s.step (.transactionCompleted i) = some s') : ∃ base' done', s'.Aligned base' done' := by
  simp only [step, Option.bind_eq_bind, Option.bind_eq_some_iff] at hstep
  obtain ⟨e, he, wal, hwal, hs'⟩ := hstep
  obtain rfl := Option.some.inj hs'
  unfold WriteAheadLogManager.transactionCompleted at hwal
  split at hwal
  · cases hwal
  case isFalse hfiles =>
    obtain rfl := Option.some.inj hwal
    rw [List.isEmpty_iff] at hfiles
    exact (h.drop (i + 1)).trimmed le_rfl (h.precedes he).2 false
      (removeCompleted_ne_nil e.1 hfiles)

theorem Aligned.shutdown (h : s.Aligned base done) (hstep : s.step .shutdown = some s') :
    ∃ base' done', s'.Aligned base' done' := by
  simp only [step, Option.bind_eq_bind, Option.bind_eq_some_iff] at hstep
  obtain ⟨files, hfiles, hs'⟩ := hstep
  obtain rfl := Option.some.inj hs'
  unfold WriteAheadLogManager.close at hfiles
  split at hfiles
  case h_1 n hn =>
    unfold WriteAheadLogManager.transactionCompleted at hfiles
    split at hfiles
    · cases hfiles
    · obtain rfl := Option.some.inj hfiles
      obtain ⟨-, m, hm, hprec⟩ := h.completed n hn
      by_cases hnil : removeCompleted n true s.wal.logFiles = []
      · -- Nothing is pending when the directory is left empty.
        obtain ⟨gone, kept, -, -, hkept⟩ := h.trim hm hprec true
        rw [hnil] at hkept
        have hpending : s.pending = [] := (List.append_eq_nil_iff.1 hkept.symm).2
        simp only [hnil, hpending]
        exact ⟨0, [], aligned_initial⟩
      · obtain ⟨base', done', h'⟩ := h.trimmed hm hprec true hnil
        exact ⟨base', done', h'.reopen⟩
  case h_2 =>
    obtain rfl := Option.some.inj hfiles
    exact ⟨base, done, h.reopen⟩

theorem Aligned.step {t : LogCall} (h : s.Aligned base done) (hstep : s.step t = some s')
    (hfits : s.Fits t) : ∃ base' done', s'.Aligned base' done' := by
  cases t with
  | storeTransaction c now =>
    obtain ⟨base', h'⟩ := h.store hstep hfits
    exact ⟨base', done, h'⟩
  | transactionCompleted i => exact h.complete hstep
  | executed count =>
    obtain rfl := Option.some.inj hstep
    exact ⟨base, _, h.drop count⟩
  | shutdown => exact h.shutdown hstep
  | crash =>
    obtain rfl := Option.some.inj hstep
    exact ⟨base, done, h.reopen⟩

end Aligned

theorem Reachable.aligned {s : LogRun} (hs : s.Reachable) : ∃ base done, s.Aligned base done := by
  induction hs with
  | initial => exact ⟨0, [], aligned_initial⟩
  | step hs hstep hfits ih =>
    obtain ⟨base, done, h⟩ := ih
    exact h.step hstep hfits

section Aligned

variable {s s' : LogRun} {base : ℕ} {done : List Entry}

theorem Aligned.nodup (h : s.Aligned base done) : (done ++ s.pending).Nodup := by
  rw [List.nodup_iff_getElem?_ne_getElem?]
  intro i j hij hj heq
  have hshort := h.short
  unfold logLimit at hshort
  have hei := List.getElem?_eq_getElem (hij.trans hj)
  have hi := h.numbered i _ hei
  have hj' := h.numbered j _ (heq ▸ hei)
  rw [hj'] at hi
  omega

theorem Aligned.removed_completed (h : s.Aligned base done) {n m : ℕ} (hm : m ≤ done.length)
    (hprec : Precedes n (base + m)) (shuttingDown : Bool) :
    ∃ removed, s.wal.logFiles = removed ++ removeCompleted n shuttingDown s.wal.logFiles ∧
      ∀ f ∈ removed, ∀ e ∈ f.records, e ∉ s.pending := by
  obtain ⟨gone, kept, hdone, -, hkept⟩ := h.trim hm hprec shuttingDown
  obtain ⟨removed, hfiles, -⟩ := exists_removeCompleted n shuttingDown s.wal.logFiles
  refine ⟨removed, hfiles, fun f hf e he hpending ↦ ?_⟩
  have hlog : removed.flatMap WalFile.records = gone := by
    have hall := h.log
    rw [WriteAheadLogManager.log, hfiles, List.flatMap_append, hkept, hdone, List.append_assoc]
      at hall
    exact List.append_cancel_right hall
  have hmem : e ∈ done := by
    rw [hdone]
    exact List.mem_append_left _ (hlog ▸ List.mem_flatMap.2 ⟨f, hf, he⟩)
  exact List.disjoint_of_nodup_append h.nodup hmem hpending

theorem Aligned.replay (h : s.Aligned base done) {front back : List Entry} {n : ℕ}
    (hlog : s.wal.log = front ++ back) (hprec : Precedes n (base + front.length)) :
    s.wal.replayTransactionsAfter n = back := by
  have heq : done ++ s.pending = front ++ back := h.log.symm.trans hlog
  exact replayTransactionsAfter_eq hlog (heq ▸ h.numbered) (heq ▸ h.short) h.filled hprec

end Aligned

/-- A call removes files only from the front of the log, and none with a pending record. -/
def RemovesCompleted (s s' : LogRun) : Prop :=
  ∃ removed, s.wal.logFiles = removed ++ s'.wal.logFiles ∧
    ∀ f ∈ removed, ∀ e ∈ f.records, e ∉ s'.pending

theorem Aligned.removesCompleted {s s' : LogRun} {base : ℕ} {done : List Entry}
    (h : s.Aligned base done) :
    (∀ i, s.step (.transactionCompleted i) = some s' → s.RemovesCompleted s') ∧
      (s.step .shutdown = some s' → s.RemovesCompleted s') := by
  refine ⟨fun i hstep ↦ ?_, fun hstep ↦ ?_⟩
  · simp only [LogRun.step, Option.bind_eq_bind, Option.bind_eq_some_iff] at hstep
    obtain ⟨e, he, wal, hwal, hs'⟩ := hstep
    obtain rfl := Option.some.inj hs'
    unfold WriteAheadLogManager.transactionCompleted at hwal
    split at hwal
    · cases hwal
    · obtain rfl := Option.some.inj hwal
      exact (h.drop (i + 1)).removed_completed le_rfl (h.precedes he).2 false
  · simp only [LogRun.step, Option.bind_eq_bind, Option.bind_eq_some_iff] at hstep
    obtain ⟨files, hfiles, hs'⟩ := hstep
    obtain rfl := Option.some.inj hs'
    unfold WriteAheadLogManager.close at hfiles
    split at hfiles
    case h_1 n hn =>
      unfold WriteAheadLogManager.transactionCompleted at hfiles
      split at hfiles
      · cases hfiles
      · obtain rfl := Option.some.inj hfiles
        obtain ⟨-, m, hm, hprec⟩ := h.completed n hn
        rw [openFiles_eq (inNameOrder_removeCompleted n true h.named)]
        exact h.removed_completed hm hprec true
    case h_2 =>
      obtain rfl := Option.some.inj hfiles
      rw [openFiles_eq h.named]
      exact ⟨[], rfl, by simp⟩

/-- The order of sequence numbers agrees with up to 1073741822 steps of the numbering. On every run
whose files hold fewer numbers and whose clock is not set back, the pending records stay in the
files, `transaction_completed` removes completed records only, and a replay after a number of the
files, or after the one right before them, visits the records stored after it. -/
theorem sequence_order_sound {s : LogRun} (hs : s.Reachable) :
    (∀ a k, a ≤ maxSequenceNumber → 1 ≤ k → k ≤ 1073741822 →
      isLessThan a (getSequenceNumberAfter^[k] a) = true ∧
        isLessThan (getSequenceNumberAfter^[k] a) a = false) ∧
    s.pending <:+ s.wal.log ∧
      (∀ i s', s.step (.transactionCompleted i) = some s' → s.RemovesCompleted s') ∧
      (∀ s', s.step .shutdown = some s' → s.RemovesCompleted s') ∧
      (∀ front e back, s.wal.log = front ++ e :: back → s.wal.replayTransactionsAfter e.1 = back) ∧
      ∀ n, n ≤ maxSequenceNumber → s.wal.log.head?.map Prod.fst = some (getSequenceNumberAfter n) →
        s.wal.replayTransactionsAfter n = s.wal.log := by
  refine ⟨fun a k ha hk hlimit ↦ isLessThan_iterate ha hk hlimit, ?_⟩
  obtain ⟨base, done, h⟩ := hs.aligned
  refine ⟨⟨done, h.log.symm⟩, fun i s' ↦ h.removesCompleted.1 i, fun s' ↦ h.removesCompleted.2,
    fun front e back hlog ↦ ?_, fun n hn hhead ↦ ?_⟩
  · have hnumber := (h.log ▸ h.numbered : Numbered base s.wal.log) front.length e (by simp [hlog])
    have hsplit : s.wal.log = (front ++ [e]) ++ back := by rw [hlog]; simp
    refine h.replay hsplit ⟨?_, ?_⟩
    · rw [hnumber]
      exact Nat.mod_lt _ (by decide)
    · rw [hnumber, Nat.mod_add_mod, List.length_append, List.length_singleton, Nat.add_assoc]
  · cases hlog : s.wal.log with
    | nil => simp [hlog] at hhead
    | cons e back =>
      have hnumber := (h.log ▸ h.numbered : Numbered base s.wal.log) 0 e (by simp [hlog])
      rw [hlog, List.head?_cons, Option.map_some, Option.some.injEq, hnumber] at hhead
      have hsplit : s.wal.log = [] ++ e :: back := hlog
      refine h.replay hsplit ⟨?_, ?_⟩
      · unfold maxSequenceNumber at hn
        omega
      · rw [List.length_nil, hhead, ← getSequenceNumberAfter_mod, Nat.mod_eq_of_lt]
        unfold maxSequenceNumber at hn
        omega

/-- The step from the largest number to 0, and a run of two commands of which the first one is
completed. -/
theorem wrapped_and_first_completed :
    isLessThan 2147483647 (getSequenceNumberAfter^[1] 2147483647) = true ∧
    ∃ s : LogRun, s.Reachable ∧ s.pending = [(1, ⟨[66], by decide⟩)] ∧
      s.wal.replayTransactionsAfter 0 = s.pending := by
  have hrun : Reachable _ := .step (t := .transactionCompleted 0)
    (.step (t := .storeTransaction ⟨[66], by decide⟩ (WalDirectory.noonPlus 4))
      (.step (t := .storeTransaction ⟨[65], by decide⟩ (WalDirectory.noonPlus 5)) .initial rfl
        (by decide)) rfl (by decide))
    rfl (by decide)
  obtain ⟨horder, -, -, -, hreplay, -⟩ := sequence_order_sound hrun
  exact ⟨(horder 2147483647 1 (by decide) (by decide) (by decide)).1, _, hrun, rfl,
    hreplay [] (0, ⟨[65], by decide⟩) [(1, ⟨[66], by decide⟩)] rfl⟩

theorem sortedFiles_clock_back {a b : WalFile}
    (ha : a.name = ⟨(WalDirectory.noonPlus 5).toIsoString, 0⟩)
    (hb : b.name = ⟨(WalDirectory.noonPlus 4).toIsoString, 1⟩) : sortedFiles [a, b] = [b, a] := by
  have hnames : ¬ codes a.name.filename ≤ codes b.name.filename := by
    rw [ha, hb]
    decide +kernel
  simp [sortedFiles, hnames]

theorem exists_command {length : ℕ} (h : length < 2 ^ 30) :
    ∃ c : Command, c.sql.length = length :=
  ⟨⟨List.replicate length 65, by rwa [List.length_replicate]⟩, List.length_replicate⟩

/-- A command that fills the first file, a clock set back before the second one is begun, and a
crash: the next `open` puts the second file first, and a replay visits the records out of order. -/
theorem clock_back_reverses_replay :
    ∃ big small : Command, ∃ s : LogRun,
      initial.run [.storeTransaction big (WalDirectory.noonPlus 5),
        .storeTransaction small (WalDirectory.noonPlus 4), .crash] = some s ∧
      s.pending = [(0, big), (1, small)] ∧ s.wal.log = [(1, small), (0, big)] ∧
      s.wal.replayTransactionsAfter 2147483647 = [(1, small), (0, big)] := by
  obtain ⟨big, hbig⟩ := exists_command (by decide : 104857600 < 2 ^ 30)
  let first := (WalFile.create none (WalDirectory.noonPlus 5)).writeRecord (0, big)
  let second (small : Command) :=
    (WalFile.create (some first) (WalDirectory.noonPlus 4)).writeRecord (1, small)
  have hsize : first.fileSize = 104857656 := by
    simp [first, WalFile.writeRecord, WalFile.create, hbig]
  have hserial : firstSerial (some first.name) (WalDirectory.noonPlus 4).toIsoString = 1 := by
    change firstSerial (some ⟨(WalDirectory.noonPlus 5).toIsoString, 0⟩) _ = 1
    decide +kernel
  have hfile : WalFile.create (some first) (WalDirectory.noonPlus 4) =
      ⟨⟨(WalDirectory.noonPlus 4).toIsoString, 1⟩, [], 0⟩ := by
    rw [WalFile.create, Option.map_some, hserial]
  have hname : ¬ (LogName.mk (WalDirectory.noonPlus 5).toIsoString 0).filename =
      (LogName.mk (WalDirectory.noonPlus 4).toIsoString 1).filename := by
    decide +kernel
  let small : Command := ⟨[66], by decide⟩
  have hsorted : sortedFiles [first, second small] = [second small, first] :=
    sortedFiles_clock_back rfl (by simp only [second, hfile]; rfl)
  have hstored : storeTransaction small (WalDirectory.noonPlus 4) ⟨[first], some 0, none⟩ =
      .ok (1, ⟨[first, second small], some 1, none⟩) := by
    have hfirst : first.name = ⟨(WalDirectory.noonPlus 5).toIsoString, 0⟩ := rfl
    simp [storeTransaction, newFile, storeInLast, hsize, maxLogSize, hfile, hfirst, hname, second,
      getNextSequenceNumber, getSequenceNumberAfter, maxSequenceNumber]
  refine ⟨big, small, ⟨openFiles [first, second small], [(0, big), (1, small)]⟩, ?_, rfl, ?_, ?_⟩
  · have hrun : initial.step (.storeTransaction big (WalDirectory.noonPlus 5)) =
        some ⟨⟨[first], some 0, none⟩, [(0, big)]⟩ := rfl
    have hrun' : step ⟨⟨[first], some 0, none⟩, [(0, big)]⟩
        (.storeTransaction small (WalDirectory.noonPlus 4)) =
        some ⟨⟨[first, second small], some 1, none⟩, [(0, big), (1, small)]⟩ := by
      rw [step, hstored]
      rfl
    simp [run, hrun, hrun']
    rfl
  · simp only [log, openFiles, hsorted]
    rfl
  · have hempty : first.isEmpty = false := by simp [WalFile.isEmpty, hsize]
    simp only [replayTransactionsAfter, openFiles, hsorted, List.flatMap_cons, hempty]
    rfl

end LogRun

end HiveForkManager
