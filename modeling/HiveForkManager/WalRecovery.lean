import HiveForkManager.WriteAheadLog

namespace HiveForkManager

inductive WalPhase where
  | down
  /-- The transactions a restart still has to execute. -/
  | replaying (todo : List Entry)
  /-- The command queue, a stored command that waits for room in it, and the number of a
  committed transaction not yet reported to the log. -/
  | running (queue : List Entry) (waiting : Option Entry) (completing : Option ℕ)
  deriving DecidableEq, Repr

structure WalState where
  wal : WriteAheadLogManager
  /-- Commands committed in the database, in order. -/
  committed : List Command
  /-- `hafd.write_ahead_log_state`, committed together with each command. -/
  walSequenceNumber : Option ℕ
  phase : WalPhase
  /-- All commands ever stored. -/
  stored : List Command
  deriving DecidableEq, Repr

namespace WalState

def initial : WalState := ⟨⟨[], none, none⟩, [], none, .down, []⟩

def execute (e : Entry) (s : WalState) : WalState :=
  { s with committed := s.committed ++ [e.2], walSequenceNumber := some e.1 }

inductive Step where
  | start
  | replayTransaction
  | finishReplay
  | store (c : Command) (now : ClockReading)
  | enqueue
  | commit
  | complete
  | shutdown
  | crash
  deriving DecidableEq

/-- A step, when it is enabled; `depth` is the depth of the command queue. -/
def step (depth : ℕ) (s : WalState) : Step → Option WalState
  | .start =>
    match s.phase with
    | .down =>
      let wal := WriteAheadLogManager.openFiles s.wal.logFiles
      some { s with wal := wal, phase := .replaying (wal.replayWalIfNecessary s.walSequenceNumber) }
    | _ => none
  | .replayTransaction =>
    match s.phase with
    | .replaying (e :: todo) => some { s.execute e with phase := .replaying todo }
    | _ => none
  | .finishReplay =>
    match s.phase with
    | .replaying [] => some { s with phase := .running [] none none }
    | _ => none
  | .store c now =>
    match s.phase with
    | .running queue none completing =>
      (s.wal.storeTransaction c now).toOption.map fun (n, wal) ↦
        { s with
          wal := wal
          stored := s.stored ++ [c]
          phase := .running queue (some (n, c)) completing }
    | _ => none
  | .enqueue =>
    match s.phase with
    | .running queue (some e) completing =>
      if queue.length < depth then some { s with phase := .running (queue ++ [e]) none completing }
      else none
    | _ => none
  | .commit =>
    match s.phase with
    | .running (e :: queue) waiting none =>
      some { s.execute e with phase := .running queue waiting (some e.1) }
    | _ => none
  | .complete =>
    match s.phase with
    | .running queue waiting (some n) =>
      (s.wal.transactionCompleted n false).toOption.map fun wal ↦
        { s with wal := wal, phase := .running queue waiting none }
    | _ => none
  | .shutdown =>
    match s.phase with
    | .running [] none none =>
      s.wal.close.toOption.map fun files ↦ { s with wal := ⟨files, none, none⟩, phase := .down }
    | _ => none
  | .crash =>
    match s.phase with
    | .down => none
    | _ => some { s with wal := ⟨s.wal.logFiles, none, none⟩, phase := .down }

def run (depth : ℕ) (s : WalState) (steps : List Step) : Option WalState :=
  steps.foldlM (step depth) s

def pending (s : WalState) : List Entry :=
  match s.phase with
  | .down => []
  | .replaying todo => todo
  | .running queue waiting _ => queue ++ waiting.toList

/-- The database remembers the number just before that of the first pending command, so that
command has a predecessor of the same numbering in the database. -/
def Anchored (s : WalState) : Prop :=
  s.pending = [] ∨
    s.pending.head?.map Prod.fst = s.walSequenceNumber.map getSequenceNumberAfter

instance (s : WalState) : Decidable s.Anchored := by
  unfold Anchored
  infer_instance

/-- Crashes come only in anchored states; a command is stored while the log is within the window of
the comparison of sequence numbers and the clock fits the names of the files. -/
def Careful (s : WalState) : Step → Prop
  | .crash => s.Anchored
  | .store _ now => s.wal.log.length < logLimit ∧ ClockFits now s.wal.logFiles
  | _ => True

instance (s : WalState) (st : Step) : Decidable (Careful s st) := by
  unfold Careful
  cases st <;> infer_instance

inductive Reachable (depth : ℕ) : WalState → Prop
  | initial : Reachable depth .initial
  | step {s s' : WalState} {t : Step} (hs : Reachable depth s) (hstep : s.step depth t = some s')
      (hcareful : Careful s t) : Reachable depth s'

/-- The state against its history: the log is what of the present numbering is committed
(`done`) followed by what is not (`pending`). -/
structure Aligned (s : WalState) (base : ℕ) (done pending : List Entry) : Prop where
  log : s.wal.log = done ++ pending
  numbered : Numbered base (done ++ pending)
  short : (done ++ pending).length ≤ logLimit
  filled : ∀ f ∈ s.wal.logFiles, f.Filled
  named : InNameOrder (s.wal.logFiles.map WalFile.name)
  stored : s.stored = s.committed ++ pending.map Prod.snd
  anchored : done ≠ [] → ∃ n, s.walSequenceNumber = some n ∧ Precedes n (base + done.length)
  bounded : ∀ n ∈ s.walSequenceNumber, n < 2 ^ 31

def Replayable (s : WalState) (base : ℕ) (done pending : List Entry) : Prop :=
  pending = [] ∨ ∃ n, s.walSequenceNumber = some n ∧ Precedes n (base + done.length)

def InPhase (s : WalState) (base : ℕ) (done pending : List Entry) : Prop :=
  match s.phase with
  | .down => s.Replayable base done pending
  | .replaying todo => todo = pending ∧ s.Replayable base done pending ∧
      s.wal.lastSequenceNumber = s.wal.log.getLast?.map Prod.fst ∧
      s.wal.lastCompletedTransactionSequenceNumber = none
  | .running queue waiting completing => queue ++ waiting.toList = pending ∧
      s.wal.lastSequenceNumber = s.wal.log.getLast?.map Prod.fst ∧
      match completing with
      | some n => done ≠ [] ∧ Precedes n (base + done.length)
      | none => ∀ n, s.wal.lastCompletedTransactionSequenceNumber = some n →
          done ++ pending ≠ [] ∧ Precedes n (base + done.length)

def Inv (s : WalState) : Prop :=
  ∃ base done pending, s.Aligned base done pending ∧ s.InPhase base done pending

open WriteAheadLogManager

theorem inv_initial : initial.Inv :=
  ⟨0, [], [], ⟨rfl, by simp [Numbered], by simp, by simp [initial],
    ⟨List.Pairwise.nil, by simp [initial]⟩, rfl, by simp, by simp [initial]⟩, Or.inl rfl⟩

variable {s s' : WalState} {base depth : ℕ} {done pending : List Entry}

theorem Aligned.execute {e : Entry} (h : s.Aligned base done (e :: pending)) :
    (s.execute e).Aligned base (done ++ [e]) pending ∧
      Precedes e.1 (base + (done ++ [e]).length) := by
  have hprec : Precedes e.1 (base + (done ++ [e]).length) := by
    have hnum := h.numbered done.length e (by simp)
    simp only [List.length_append, List.length_singleton]
    exact ⟨hnum ▸ Nat.mod_lt _ (by decide), by rw [hnum, Nat.mod_add_mod, Nat.add_assoc]⟩
  refine ⟨⟨?_, ?_, ?_, h.filled, h.named, ?_, fun _ ↦ ⟨e.1, rfl, hprec⟩, ?_⟩, hprec⟩
  · rw [List.append_assoc]
    exact h.log
  · simpa using h.numbered
  · simpa using h.short
  · simpa [WalState.execute] using h.stored
  · rintro n ⟨⟩
    exact hprec.1

theorem Aligned.replayWalIfNecessary
    (h : s.Aligned base done pending) (hrep : s.Replayable base done pending) :
    (openFiles s.wal.logFiles).replayWalIfNecessary s.walSequenceNumber =
      pending := by
  have hlast := computeLastSequenceNumber_eq h.filled
  rw [show s.wal.logFiles.flatMap WalFile.records = done ++ pending from h.log] at hlast
  rw [openFiles_eq h.named]
  unfold WriteAheadLogManager.replayWalIfNecessary
  rw [hlast]
  by_cases hnil : done ++ pending = []
  · obtain ⟨rfl, rfl⟩ := List.append_eq_nil_iff.1 hnil
    cases s.walSequenceNumber <;> rfl
  · obtain ⟨n, hn, hprec⟩ : ∃ n, s.walSequenceNumber = some n ∧
        Precedes n (base + done.length) := by
      rcases hrep with rfl | hrep
      · exact h.anchored (by simpa using hnil)
      · exact hrep
    obtain ⟨e, he⟩ : ∃ e, (done ++ pending).getLast? = some e :=
      ⟨_, List.getLast?_eq_some_getLast hnil⟩
    simp only [hn, he, Option.map_some]
    split
    case isTrue hless =>
      exact replayTransactionsAfter_eq h.log h.numbered h.short h.filled hprec
    case isFalse hless =>
      by_contra hne
      obtain ⟨-, hnumber⟩ := h.numbered.getLast? he
      have hshort := h.short
      have hpos := List.length_pos_iff.2 (Ne.symm hne)
      simp only [List.length_append] at hnumber hshort
      refine hless ?_
      rw [hnumber]
      exact isLessThan_of_le hprec (by omega) (by omega) (by omega)

theorem inv_start (hinv : s.Inv) (hstep : s.step depth .start = some s') : s'.Inv := by
  obtain ⟨base, done, pending, hal, hphase⟩ := hinv
  simp only [step] at hstep
  split at hstep <;> try contradiction
  case _ hdown =>
    simp only [InPhase, hdown] at hphase
    obtain rfl := Option.some.inj hstep
    have htodo := hal.replayWalIfNecessary hphase
    rw [openFiles_eq hal.named] at htodo ⊢
    refine ⟨base, done, pending, { hal with }, htodo, hphase, ?_, rfl⟩
    exact computeLastSequenceNumber_eq hal.filled

theorem inv_replayTransaction (hinv : s.Inv)
    (hstep : s.step depth .replayTransaction = some s') : s'.Inv := by
  obtain ⟨base, done, pending, hal, hphase⟩ := hinv
  simp only [step] at hstep
  split at hstep <;> try contradiction
  case _ e todo hreplaying =>
    simp only [InPhase, hreplaying] at hphase
    obtain ⟨rfl, -, hlast, hnone⟩ := hphase
    obtain rfl := Option.some.inj hstep
    obtain ⟨hal', hprec⟩ := hal.execute
    exact ⟨base, done ++ [e], todo, { hal' with }, rfl, Or.inr ⟨e.1, rfl, hprec⟩, hlast, hnone⟩

theorem inv_finishReplay (hinv : s.Inv)
    (hstep : s.step depth .finishReplay = some s') : s'.Inv := by
  obtain ⟨base, done, pending, hal, hphase⟩ := hinv
  simp only [step] at hstep
  split at hstep <;> try contradiction
  case _ hreplaying =>
    simp only [InPhase, hreplaying] at hphase
    obtain ⟨rfl, -, hlast, hnone⟩ := hphase
    obtain rfl := Option.some.inj hstep
    refine ⟨base, done, [], { hal with }, rfl, hlast, fun n hn ↦ ?_⟩
    rw [hnone] at hn
    cases hn

theorem inv_enqueue (hinv : s.Inv) (hstep : s.step depth .enqueue = some s') : s'.Inv := by
  obtain ⟨base, done, pending, hal, hphase⟩ := hinv
  simp only [step] at hstep
  split at hstep <;> try contradiction
  case _ queue e completing hrunning =>
    simp only [InPhase, hrunning] at hphase
    split at hstep <;> try contradiction
    obtain rfl := Option.some.inj hstep
    exact ⟨base, done, pending, { hal with }, by simpa using hphase.1, hphase.2⟩

theorem inv_commit (hinv : s.Inv) (hstep : s.step depth .commit = some s') : s'.Inv := by
  obtain ⟨base, done, pending, hal, hphase⟩ := hinv
  simp only [step] at hstep
  split at hstep <;> try contradiction
  case _ e queue waiting hrunning =>
    simp only [InPhase, hrunning, List.cons_append] at hphase
    obtain ⟨rfl, hlast, -⟩ := hphase
    obtain rfl := Option.some.inj hstep
    obtain ⟨hal', hprec⟩ := hal.execute
    exact ⟨base, done ++ [e], queue ++ waiting.toList, { hal' with }, rfl, hlast, by simp, hprec⟩

theorem Aligned.getNextSequenceNumber (h : s.Aligned base done pending)
    (hlast : s.wal.lastSequenceNumber = s.wal.log.getLast?.map Prod.fst) :
    ∃ base', (done ++ pending ≠ [] → base' = base) ∧ Numbered base' (done ++ pending) ∧
      s.wal.getNextSequenceNumber = (base' + (done ++ pending).length) % 2 ^ 31 := by
  rw [← h.log]
  exact exists_getNextSequenceNumber (h.log ▸ h.numbered) hlast

theorem inv_store {c : Command} {now : ClockReading} (hinv : s.Inv)
    (hstep : s.step depth (.store c now) = some s') (hshort : s.wal.log.length < logLimit)
    (hclock : ClockFits now s.wal.logFiles) : s'.Inv := by
  obtain ⟨base, done, pending, hal, hphase⟩ := hinv
  simp only [step] at hstep
  split at hstep <;> try contradiction
  case _ queue completing hrunning =>
    simp only [InPhase, hrunning, Option.toList_none, List.append_nil] at hphase
    obtain ⟨rfl, hlast, hcompleting⟩ := hphase
    obtain ⟨base', hbase, hnum, hnext⟩ := hal.getNextSequenceNumber hlast
    unfold storeTransaction at hstep
    split at hstep <;> try cases hstep
    set e : Entry := (s.wal.getNextSequenceNumber, c)
    have hlog : (storeInLast now e s.wal.logFiles).flatMap WalFile.records =
        done ++ (queue ++ [e]) := by
      rw [flatMap_storeInLast, ← List.append_assoc]
      exact congrArg (· ++ [e]) hal.log
    have hnum' : Numbered base' (done ++ (queue ++ [e])) := by
      rw [← List.append_assoc]
      exact hnum.concat hnext
    have hdone : done ≠ [] → base' = base := fun h ↦ hbase (by simp [h])
    refine ⟨base', done, queue ++ [e], ⟨hlog, hnum', ?_,
      filled_storeInLast e hal.filled, inNameOrder_storeInLast e hal.named hclock, ?_,
      fun h ↦ ?_, hal.bounded⟩, rfl,
      ?_, ?_⟩
    · rw [hal.log] at hshort
      simp only [List.length_append, List.length_singleton] at hshort ⊢
      omega
    · simp [hal.stored, e]
    · rw [hdone h]
      exact hal.anchored h
    · change some e.1 = ((storeInLast now e s.wal.logFiles).flatMap
        WalFile.records).getLast?.map Prod.fst
      simp [hlog]
    · cases completing with
      | some n =>
        obtain ⟨hne, hprec⟩ := hcompleting
        rw [← hdone hne] at hprec
        exact ⟨hne, hprec⟩
      | none =>
        intro n hn
        obtain ⟨hne, hprec⟩ := hcompleting n hn
        rw [← hbase hne] at hprec
        exact ⟨by simp, hprec⟩

theorem Aligned.removeCompleted {n : ℕ}
    (h : s.Aligned base done pending) (hprec : Precedes n (base + done.length))
    (shuttingDown : Bool) (last completed : Option ℕ) (phase : WalPhase) :
    let files := removeCompleted n shuttingDown s.wal.logFiles
    ∃ base' done', base' + done'.length = base + done.length ∧ done' <:+ done ∧
      { s with wal := ⟨files, last, completed⟩, phase := phase }.Aligned base' done' pending := by
  intro files
  obtain ⟨gone, kept, rfl, hkept⟩ := removeCompleted_spec h.log h.numbered
    h.short h.filled hprec shuttingDown
  obtain ⟨removed, hfiles, -⟩ :=
    exists_removeCompleted n shuttingDown s.wal.logFiles
  have hnum := h.numbered
  have hshort := h.short
  rw [List.append_assoc] at hnum hshort
  have hlen : base + gone.length + kept.length = base + (gone ++ kept).length := by
    simp only [List.length_append]
    omega
  refine ⟨base + gone.length, kept, hlen, List.suffix_append _ _, hkept, hnum.append_right, ?_,
    fun f hf ↦ ?_, inNameOrder_removeCompleted n shuttingDown h.named, h.stored,
    fun hne ↦ ?_, h.bounded⟩
  · simp only [List.length_append] at hshort ⊢
    omega
  · exact h.filled f (by rw [hfiles]; exact List.mem_append_right _ hf)
  · rw [hlen]
    exact h.anchored (by simp [hne])

theorem Aligned.log_ne_nil
    (h : s.Aligned base done pending) (hfiles : s.wal.logFiles ≠ []) : done ++ pending ≠ [] := by
  obtain ⟨f, fs, heq⟩ := List.exists_cons_of_ne_nil hfiles
  rw [← h.log, WriteAheadLogManager.log, heq, List.flatMap_cons]
  simp [(h.filled f (by simp [heq])).records]

theorem inv_complete (hinv : s.Inv) (hstep : s.step depth .complete = some s') : s'.Inv := by
  obtain ⟨base, done, pending, hal, hphase⟩ := hinv
  simp only [step] at hstep
  split at hstep <;> try contradiction
  case _ queue waiting n hrunning =>
    simp only [InPhase, hrunning] at hphase
    obtain ⟨rfl, hlast, hne, hprec⟩ := hphase
    unfold transactionCompleted at hstep
    split at hstep
    · cases hstep
    case isFalse hfiles =>
      obtain rfl := Option.some.inj hstep
      rw [List.isEmpty_iff] at hfiles
      obtain ⟨base', done', hlen, ⟨gone, rfl⟩, hal'⟩ := hal.removeCompleted hprec false
        s.wal.lastSequenceNumber (some n) (.running queue waiting none)
      have hne' := hal'.log_ne_nil (removeCompleted_ne_nil n hfiles)
      refine ⟨base', done', _, hal', rfl, ?_, ?_⟩
      · rw [hal'.log]
        rw [hal.log, List.append_assoc, List.getLast?_append_of_ne_nil _ hne'] at hlast
        exact hlast
      · rintro _ ⟨⟩
        exact ⟨hne', hlen ▸ hprec⟩

theorem inv_shutdown (hinv : s.Inv) (hstep : s.step depth .shutdown = some s') : s'.Inv := by
  obtain ⟨base, done, pending, hal, hphase⟩ := hinv
  simp only [step] at hstep
  split at hstep <;> try contradiction
  case _ hrunning =>
    simp only [InPhase, hrunning, Option.toList_none, List.append_nil] at hphase
    obtain ⟨rfl, hlast, hcompleted⟩ := hphase
    unfold close at hstep
    split at hstep
    case h_1 n hn =>
      unfold transactionCompleted at hstep
      split at hstep
      · cases hstep
      · obtain rfl := Option.some.inj hstep
        obtain ⟨base', done', -, -, hal'⟩ := hal.removeCompleted (hcompleted n hn).2 true
          none none .down
        exact ⟨base', done', [], hal', Or.inl rfl⟩
    case h_2 hn =>
      obtain rfl := Option.some.inj hstep
      exact ⟨base, done, [], { hal with }, Or.inl rfl⟩

theorem Aligned.replayable
    (h : s.Aligned base done pending) (hpending : s.pending = pending) (hanchored : s.Anchored) :
    s.Replayable base done pending := by
  rw [Anchored, hpending] at hanchored
  rcases hanchored with hnil | hhead
  · exact Or.inl hnil
  · cases pending with
    | nil => exact Or.inl rfl
    | cons e pending =>
      right
      simp only [List.head?_cons, Option.map_some] at hhead
      obtain ⟨n, hn, hafter⟩ := Option.map_eq_some_iff.1 hhead.symm
      have hlt := h.bounded n hn
      refine ⟨n, hn, hlt, ?_⟩
      rw [← getSequenceNumberAfter_mod, Nat.mod_eq_of_lt hlt, hafter]
      exact h.numbered done.length e (by simp)

theorem inv_crash (hinv : s.Inv)
    (hstep : s.step depth .crash = some s') (hanchored : s.Anchored) : s'.Inv := by
  obtain ⟨base, done, pending, hal, hphase⟩ := hinv
  simp only [step] at hstep
  split at hstep <;> try contradiction
  case _ hup =>
    obtain rfl := Option.some.inj hstep
    have hpending : s.pending = pending := by
      unfold WalState.pending
      unfold InPhase at hphase
      split at hphase
      · exact absurd ‹_› hup
      · exact hphase.1
      · exact hphase.1
    exact ⟨base, done, pending, { hal with }, hal.replayable hpending hanchored⟩

theorem inv_step {st : Step} (hinv : s.Inv)
    (hstep : s.step depth st = some s') (hcareful : Careful s st) : s'.Inv := by
  cases st with
  | start => exact inv_start hinv hstep
  | replayTransaction => exact inv_replayTransaction hinv hstep
  | finishReplay => exact inv_finishReplay hinv hstep
  | store c now => exact inv_store hinv hstep hcareful.1 hcareful.2
  | enqueue => exact inv_enqueue hinv hstep
  | commit => exact inv_commit hinv hstep
  | complete => exact inv_complete hinv hstep
  | shutdown => exact inv_shutdown hinv hstep
  | crash => exact inv_crash hinv hstep hcareful

theorem Reachable.inv (h : Reachable depth s) : s.Inv := by
  induction h with
  | initial => exact inv_initial
  | step hs hstep hcareful ih => exact inv_step ih hstep hcareful

/-- Nothing is lost or repeated: the committed commands are the first ones stored, and all of
them once a replay has finished. -/
theorem reachable_committed {s : WalState} {depth : ℕ} (h : Reachable depth s) :
    s.committed <+: s.stored ∧ (s.phase = .replaying [] → s.committed = s.stored) := by
  obtain ⟨base, done, pending, hal, hphase⟩ := h.inv
  refine ⟨⟨_, hal.stored.symm⟩, fun hdone ↦ ?_⟩
  simp only [InPhase, hdone] at hphase
  rw [hal.stored, ← hphase.1]
  simp

def insertA : Command := ⟨[65], by decide⟩

def insertB : Command := ⟨[66], by decide⟩

def noon : ClockReading := WalDirectory.noonPlus 0

theorem crash_after_first_commit_recovers : ∃ s : WalState, Reachable 2 s ∧
    s.stored = [insertA, insertB] ∧ s.phase = .replaying [] ∧ s.committed = s.stored := by
  have hrun : Reachable 2 _ :=
    .step (t := .replayTransaction) (.step (t := .start) (.step (t := .crash)
      (.step (t := .store insertB noon) (.step (t := .commit) (.step (t := .enqueue)
        (.step (t := .store insertA noon) (.step (t := .finishReplay) (.step (t := .start)
          .initial rfl (by decide)) rfl (by decide)) rfl (by decide)) rfl (by decide))
        rfl (by decide)) rfl (by decide)) rfl (by decide)) rfl (by decide)) rfl (by decide)
  exact ⟨_, hrun, rfl, rfl, (reachable_committed hrun).2 rfl⟩

/-- A command stored before the database remembers any number, and one stored in the run after
a clean shutdown, are not replayed; the next command is then committed without them. -/
theorem crash_before_first_commit_loses_command :
    (∃ s, initial.run 2 [.start, .finishReplay, .store insertA noon, .crash, .start] = some s ∧
      s.phase = .replaying [] ∧ s.committed = [] ∧ s.stored = [insertA]) ∧
    (∃ s, initial.run 2 [.start, .finishReplay, .store insertA noon, .enqueue, .commit, .complete,
        .shutdown, .start, .finishReplay, .store insertB noon, .crash, .start] = some s ∧
      s.phase = .replaying [] ∧ s.committed = [insertA] ∧ s.stored = [insertA, insertB]) ∧
    (∃ s, initial.run 2 [.start, .finishReplay, .store insertA noon, .crash, .start, .finishReplay,
        .store insertB noon, .enqueue, .commit] = some s ∧
      s.committed = [insertB] ∧ s.stored = [insertA, insertB]) :=
  ⟨⟨_, rfl, rfl, rfl, rfl⟩, ⟨_, rfl, rfl, rfl, rfl⟩, ⟨_, rfl, rfl, rfl⟩⟩

end WalState

end HiveForkManager
