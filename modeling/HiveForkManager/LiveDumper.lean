import Mathlib

namespace HiveForkManager

variable {ι : Type}

inductive LiveCommand (ι : Type) where
  | pushBlock (num : ℕ) (id : ι)
  | backFromFork (num : ℕ)
  | setIrreversible (num : ℕ)
  deriving DecidableEq, Repr

/-- The chain that commands describe and the last block they made irreversible. -/
structure DescribedChain (ι : Type) where
  chain : List ι
  irreversible : ℕ
  deriving DecidableEq, Repr

namespace DescribedChain

/-- A command in its place: a push goes right above the head, a fork neither above the head nor
below the last irreversible block, and no block above the head is made irreversible. -/
def execute (d : DescribedChain ι) : LiveCommand ι → Option (DescribedChain ι)
  | .pushBlock num id =>
    if num = d.chain.length + 1 then some { d with chain := d.chain ++ [id] } else none
  | .backFromFork num =>
    if num ≤ d.chain.length ∧ d.irreversible ≤ num then
      some { d with chain := d.chain.take num } else none
  | .setIrreversible num =>
    if num ≤ d.chain.length then some { d with irreversible := num } else none

def executeAll (d : DescribedChain ι) (commands : List (LiveCommand ι)) :
    Option (DescribedChain ι) :=
  commands.foldlM execute d

theorem executeAll_append {d d' : DescribedChain ι} {xs : List (LiveCommand ι)}
    (h : d.executeAll xs = some d') (ys : List (LiveCommand ι)) :
    d.executeAll (xs ++ ys) = d'.executeAll ys := by
  unfold executeAll at *
  rw [List.foldlM_append, h]
  rfl

end DescribedChain

structure LiveDumper (ι : Type) where
  psqlFirstBlock : ℕ
  /-- The block whose rows are being written, 0 between flushes. -/
  currentlyProcessingBlock : ℕ
  lastDumpedBlock : ℕ
  commands : List (LiveCommand ι)
  deriving DecidableEq, Repr

namespace LiveDumper

def enqueue (command : LiveCommand ι) (d : LiveDumper ι) : LiveDumper ι :=
  { d with commands := d.commands ++ [command] }

/-- `execute_push_block`, when all writers have reported the block. -/
def executePushBlock (num : ℕ) (id : ι) (d : LiveDumper ι) : LiveDumper ι :=
  { d.enqueue (.pushBlock num id) with lastDumpedBlock := num }

def triggerDataFlush (num : ℕ) (id : ι) (d : LiveDumper ι) : LiveDumper ι :=
  { executePushBlock num id { d with currentlyProcessingBlock := num } with
    currentlyProcessingBlock := 0 }

/-- `trigger_data_flush` left by an exception, before or after the push was stored. -/
def interruptedDataFlush (pushed : Bool) (num : ℕ) (id : ι) (d : LiveDumper ι) : LiveDumper ι :=
  let d := { d with currentlyProcessingBlock := num }
  if pushed then executePushBlock num id d else d

def onIrreversibleBlock (num : ℕ) (d : LiveDumper ι) : LiveDumper ι :=
  if d.psqlFirstBlock ≤ num then d.enqueue (.setIrreversible num) else d

def onSwitchFork (num : ℕ) (d : LiveDumper ι) : LiveDumper ι := d.enqueue (.backFromFork num)

def onBlockFail (num : ℕ) (d : LiveDumper ι) : LiveDumper ι :=
  if d.currentlyProcessingBlock ≠ num ∧ d.lastDumpedBlock ≠ num then d
  else d.enqueue (.backFromFork (num - 1))

/-- `flush_all_data_to_reversible`: the blocks cached when the live state is entered are flushed
one by one, until `is_interrupt_request` is seen before a block; `num` is the block below the first
of them. -/
def flushAllDataToReversible (isInterruptRequest : ℕ → Bool) :
    ℕ → List ι → LiveDumper ι → LiveDumper ι
  | _, [], d => d
  | num, id :: ids, d =>
    if isInterruptRequest (num + 1) then d
    else flushAllDataToReversible isInterruptRequest (num + 1) ids
      (d.triggerDataFlush (num + 1) id)

end LiveDumper

structure LiveSync (ι : Type) where
  dumper : LiveDumper ι
  chain : List ι
  lib : ℕ
  deriving DecidableEq, Repr

/-- A failure comes before the block is flushed, during the flush or after it. -/
inductive LiveNotification (ι : Type) where
  | blockApplied (id : ι)
  | failBeforeDump
  | failWhileDumping (id : ι) (pushed : Bool)
  | failAfterDump (id : ι)
  | switchFork (k : ℕ)
  | irreversible (n : ℕ)

namespace LiveSync

/-- The live state is entered with the blocks `dumped` in the database and `cached` in memory. -/
def enter (isInterruptRequest : ℕ → Bool) (psqlFirstBlock : ℕ) (dumped cached : List ι)
    (lib : ℕ) : LiveSync ι :=
  ⟨LiveDumper.flushAllDataToReversible isInterruptRequest dumped.length cached
    ⟨psqlFirstBlock, 0, 0, []⟩, dumped ++ cached, lib⟩

def next (s : LiveSync ι) : ℕ := s.chain.length + 1

def step (s : LiveSync ι) : LiveNotification ι → LiveSync ι
  | .blockApplied id =>
    { s with dumper := s.dumper.triggerDataFlush s.next id, chain := s.chain ++ [id] }
  | .failBeforeDump => { s with dumper := s.dumper.onBlockFail s.next }
  | .failWhileDumping id pushed =>
    { s with dumper := (s.dumper.interruptedDataFlush pushed s.next id).onBlockFail s.next }
  | .failAfterDump id =>
    { s with dumper := (s.dumper.triggerDataFlush s.next id).onBlockFail s.next }
  | .switchFork k => { s with dumper := s.dumper.onSwitchFork k, chain := s.chain.take k }
  | .irreversible n => { s with dumper := s.dumper.onIrreversibleBlock n, lib := n }

def Legal (s : LiveSync ι) : LiveNotification ι → Prop
  | .switchFork n | .irreversible n => s.lib ≤ n ∧ n ≤ s.chain.length
  | _ => True

/-- The runs in which no interrupt request is seen while the cached blocks are flushed. -/
inductive Reachable (dumped : List ι) : LiveSync ι → Prop
  | enter {isInterruptRequest : ℕ → Bool} (psqlFirstBlock : ℕ) (cached : List ι) {lib : ℕ}
      (h : lib ≤ (dumped ++ cached).length)
      (hrun : ∀ i < cached.length, isInterruptRequest (dumped.length + i + 1) = false) :
      Reachable dumped (enter isInterruptRequest psqlFirstBlock dumped cached lib)
  | step {s : LiveSync ι} {t : LiveNotification ι} (hs : Reachable dumped s) (ht : s.Legal t) :
      Reachable dumped (s.step t)

/-- The commands stored so far are in their places and give a chain; `irr` is the last block they
made irreversible. -/
def Describes (dumped : List ι) (d : LiveDumper ι) (chain : List ι) (irr : ℕ) : Prop :=
  DescribedChain.executeAll ⟨dumped, 0⟩ d.commands = some ⟨chain, irr⟩

section Describes

variable {dumped chain : List ι} {d : LiveDumper ι} {irr : ℕ}

theorem Describes.enqueue (h : Describes dumped d chain irr) {command : LiveCommand ι}
    {e : DescribedChain ι} (he : DescribedChain.execute ⟨chain, irr⟩ command = some e) :
    Describes dumped (d.enqueue command) e.chain e.irreversible := by
  unfold Describes LiveDumper.enqueue at *
  rw [DescribedChain.executeAll_append h]
  simp [DescribedChain.executeAll, he]

theorem Describes.push (h : Describes dumped d chain irr) (id : ι) :
    Describes dumped (d.enqueue (.pushBlock (chain.length + 1) id)) (chain ++ [id]) irr := by
  have he : DescribedChain.execute ⟨chain, irr⟩ (.pushBlock (chain.length + 1) id) =
      some ⟨chain ++ [id], irr⟩ := if_pos rfl
  exact h.enqueue he

theorem Describes.fork (h : Describes dumped d chain irr) {k : ℕ} (hk : k ≤ chain.length)
    (hirr : irr ≤ k) : Describes dumped (d.enqueue (.backFromFork k)) (chain.take k) irr := by
  have he : DescribedChain.execute ⟨chain, irr⟩ (.backFromFork k) = some ⟨chain.take k, irr⟩ :=
    if_pos ⟨hk, hirr⟩
  exact h.enqueue he

theorem Describes.fork_head (h : Describes dumped d chain irr) (hirr : irr ≤ chain.length) :
    Describes dumped (d.enqueue (.backFromFork chain.length)) chain irr := by
  simpa using h.fork le_rfl hirr

theorem Describes.fork_pushed (h : Describes dumped d chain irr) (hirr : irr ≤ chain.length)
    (id : ι) : Describes dumped
      ((d.enqueue (.pushBlock (chain.length + 1) id)).enqueue (.backFromFork chain.length))
      chain irr := by
  simpa using (h.push id).fork (by simp) hirr

theorem Describes.flushAll (h : Describes dumped d chain irr) {isInterruptRequest : ℕ → Bool}
    (ids : List ι)
    (hrun : ∀ i < ids.length, isInterruptRequest (chain.length + i + 1) = false) :
    Describes dumped (d.flushAllDataToReversible isInterruptRequest chain.length ids)
      (chain ++ ids) irr := by
  induction ids generalizing d chain with
  | nil => simpa [LiveDumper.flushAllDataToReversible] using h
  | cons id ids ih =>
    have hpush : Describes dumped (d.triggerDataFlush (chain.length + 1) id) (chain ++ [id]) irr :=
      h.push id
    have hfirst := hrun 0 (Nat.succ_pos _)
    have hrest := ih hpush fun i hi ↦ by
      have hnext := hrun (i + 1) (Nat.succ_lt_succ hi)
      rwa [List.length_append, List.length_singleton, Nat.add_right_comm chain.length 1]
    simpa [LiveDumper.flushAllDataToReversible, hfirst] using hrest

theorem Describes.fail_unpushed (h : Describes dumped d chain irr) (hirr : irr ≤ chain.length) :
    Describes dumped (d.onBlockFail (chain.length + 1)) chain irr := by
  unfold LiveDumper.onBlockFail
  split
  · exact h
  · exact h.fork_head hirr

theorem Describes.fail_pushed (h : Describes dumped d chain irr) (hirr : irr ≤ chain.length)
    (id : ι) {d' : LiveDumper ι}
    (hcommands : d'.commands = (d.enqueue (.pushBlock (chain.length + 1) id)).commands)
    (hlast : d'.lastDumpedBlock = chain.length + 1) :
    Describes dumped (d'.onBlockFail (chain.length + 1)) chain irr := by
  have hfork := h.fork_pushed hirr id
  unfold LiveDumper.onBlockFail
  rw [if_neg fun hne ↦ hne.2 hlast]
  unfold Describes LiveDumper.enqueue at *
  rw [hcommands]
  exact hfork

end Describes

def Inv (dumped : List ι) (s : LiveSync ι) : Prop :=
  ∃ irr, Describes dumped s.dumper s.chain irr ∧ irr ≤ s.lib ∧ s.lib ≤ s.chain.length

theorem inv_enter {isInterruptRequest : ℕ → Bool} (psqlFirstBlock : ℕ) (dumped cached : List ι)
    {lib : ℕ} (h : lib ≤ (dumped ++ cached).length)
    (hrun : ∀ i < cached.length, isInterruptRequest (dumped.length + i + 1) = false) :
    (enter isInterruptRequest psqlFirstBlock dumped cached lib).Inv dumped := by
  have hnone : Describes dumped ⟨psqlFirstBlock, 0, 0, []⟩ dumped 0 := rfl
  exact ⟨0, hnone.flushAll cached hrun, Nat.zero_le _, h⟩

theorem inv_step {dumped : List ι} {s : LiveSync ι} (hinv : s.Inv dumped)
    {t : LiveNotification ι} (ht : s.Legal t) : (s.step t).Inv dumped := by
  obtain ⟨irr, h, hirr, hlib⟩ := hinv
  have hhead := hirr.trans hlib
  cases t with
  | blockApplied id =>
    refine ⟨irr, h.push id, hirr, ?_⟩
    simp only [step, List.length_append]
    omega
  | failBeforeDump => exact ⟨irr, h.fail_unpushed hhead, hirr, hlib⟩
  | failWhileDumping id pushed =>
    cases pushed with
    | false =>
      have h' : Describes dumped (s.dumper.interruptedDataFlush false s.next id) s.chain irr := h
      exact ⟨irr, h'.fail_unpushed hhead, hirr, hlib⟩
    | true => exact ⟨irr, h.fail_pushed hhead id rfl rfl, hirr, hlib⟩
  | failAfterDump id => exact ⟨irr, h.fail_pushed hhead id rfl rfl, hirr, hlib⟩
  | switchFork k =>
    obtain ⟨hk, hkhead⟩ := ht
    refine ⟨irr, h.fork hkhead (hirr.trans hk), hirr, ?_⟩
    simp only [step, List.length_take]
    omega
  | irreversible n =>
    obtain ⟨hn, hnhead⟩ := ht
    simp only [step, LiveDumper.onIrreversibleBlock, Inv]
    split
    · have he : DescribedChain.execute ⟨s.chain, irr⟩ (.setIrreversible n) = some ⟨s.chain, n⟩ :=
        if_pos hnhead
      exact ⟨n, h.enqueue he, le_rfl, hnhead⟩
    · exact ⟨irr, h, hirr.trans hn, hnhead⟩

theorem Reachable.inv {dumped : List ι} {s : LiveSync ι} (hs : s.Reachable dumped) :
    s.Inv dumped := by
  induction hs with
  | enter psqlFirstBlock cached h hrun => exact inv_enter psqlFirstBlock dumped cached h hrun
  | step hs ht ih => exact inv_step ih ht

/-- On every run whose entry is not interrupted the stored commands are all in their places, and
what they make of the dumped blocks is the chain hived is on. -/
theorem live_commands_describe_chain {dumped : List ι} {s : LiveSync ι}
    (hs : s.Reachable dumped) :
    ∃ irr, DescribedChain.executeAll ⟨dumped, 0⟩ s.dumper.commands = some ⟨s.chain, irr⟩ := by
  obtain ⟨irr, h, -⟩ := hs.inv
  exact ⟨irr, h⟩

/-- Two cached blocks at the entry, a block that fails after its push, a fork below it and a block
at the same height that fails unpushed. -/
theorem failures_and_fork_describe_chain : ∃ (s : LiveSync ℕ) (irr : ℕ),
    s.chain = [1, 2, 5] ∧ s.dumper.commands =
      [.pushBlock 2 2, .pushBlock 3 3, .pushBlock 4 4, .backFromFork 3, .setIrreversible 2,
        .backFromFork 2, .pushBlock 3 5, .backFromFork 3] ∧
      DescribedChain.executeAll ⟨[1], 0⟩ s.dumper.commands = some ⟨s.chain, irr⟩ := by
  have henter : Reachable [1] (enter (fun _ ↦ false) 1 [1] [2, 3] 1) :=
    .enter 1 [2, 3] (by decide) fun _ _ ↦ rfl
  have hs : Reachable [1] _ := .step (t := .failWhileDumping 6 false)
    (.step (t := .blockApplied 5) (.step (t := .switchFork 2) (.step (t := .irreversible 2)
      (.step (t := .failAfterDump 4) henter trivial)
      ⟨by decide, by decide⟩) ⟨by decide, by decide⟩) trivial) trivial
  obtain ⟨irr, h⟩ := live_commands_describe_chain hs
  exact ⟨_, irr, rfl, rfl, h⟩

/-- An interrupt request before the second of two cached blocks: the block is missing in the
described chain, and the next irreversible block or fork is above its head. -/
theorem interrupted_entry_misses_block :
    let s : LiveSync ℕ := enter (fun num ↦ num == 3) 1 [1] [2, 3] 1
    s.chain = [1, 2, 3] ∧ s.Legal (.irreversible 3) ∧ s.Legal (.switchFork 3) ∧
      DescribedChain.executeAll ⟨[1], 0⟩ s.dumper.commands = some ⟨[1, 2], 0⟩ ∧
      DescribedChain.executeAll ⟨[1], 0⟩ (s.step (.irreversible 3)).dumper.commands = none ∧
      DescribedChain.executeAll ⟨[1], 0⟩ (s.step (.switchFork 3)).dumper.commands = none :=
  ⟨rfl, ⟨by decide, by decide⟩, ⟨by decide, by decide⟩, rfl, rfl, rfl⟩

end LiveSync

end HiveForkManager
