import HiveForkManager.IndexationFlush

namespace HiveForkManager

variable {β : Type}

inductive IndexationStep (β : Type) where
  | preReindex (canMoveToLivesync : Bool)
  | postReindex (stopReplayAt : ℕ)
  | applyBlock (b : AppliedBlock β) (canMoveToLivesync : Bool)
  | irreversible (n : ℕ)
  | switchFork (k : ℕ)
  | endOfSyncing
  | shutdown

namespace Indexation

/-- The blocks a replay applies come from the block log, which has irreversible ones only. -/
def advanceHead (n : ℕ) (s : Indexation β) : Indexation β :=
  { s with head := n, lib := if s.state = .reindex then n else s.lib }

def step (cfg : IndexationConfig) (s : Indexation β) :
    IndexationStep β → Except String (Indexation β)
  | .preReindex canMoveToLivesync => onPreReindex cfg canMoveToLivesync s
  | .postReindex stopReplayAt => onPostReindex cfg stopReplayAt s
  | .applyBlock b canMoveToLivesync => do
    let s ← onBlock cfg canMoveToLivesync b.num s
    onPostApplyBlock cfg b (advanceHead b.num s)
  | .irreversible n => .ok { s with irreversibleBlockNum := some n, lib := n }
  | .switchFork k =>
    let s := onSwitchFork cfg k s
    .ok { s with head := k, chain := s.chain.filter fun b ↦ decide (b.num ≤ k) }
  | .endOfSyncing => onEndOfSyncing cfg s
  | .shutdown => do
    let s ← flushAllCachedData s
    pure { s with stopped := true }

/-- What hived may notify: it replays right after its start, applies the block after its head,
and neither announces nor leaves a block against what is irreversible. -/
def Legal (s : Indexation β) : IndexationStep β → Prop
  | .preReindex _ => s.stopped = false ∧ s.state = .start
  | .applyBlock b _ => s.stopped = false ∧ b.num = s.head + 1
  | .irreversible n | .switchFork n => s.stopped = false ∧ s.lib ≤ n ∧ n ≤ s.head
  | .postReindex _ | .endOfSyncing | .shutdown => s.stopped = false

inductive Reachable (cfg : IndexationConfig) : Indexation β → Prop
  | initial {head lib : ℕ} (psqlHead : ℕ) (interrupted : Bool) (h : lib ≤ head) :
      Reachable cfg (initial head lib psqlHead interrupted)
  | step {s s' : Indexation β} {t : IndexationStep β} (hs : Reachable cfg s) (ht : s.Legal t)
      (hstep : s.step cfg t = .ok s') : Reachable cfg s'

def settledBlock (s : Indexation β) : ℕ := if s.stopped then s.head else s.lib

structure Covers (bound : ℕ) (d : DumpedBatch β) (seg : List (AppliedBlock β)) : Prop where
  data : d.data = rowsOf seg
  single : d.live = true → ∃ b, seg = [b] ∧ b.num = d.lastBlockNum
  settled : d.live = false → ∀ b ∈ seg, b.num ≤ bound

structure Aligned (cfg : IndexationConfig) (s : Indexation β)
    (segs : List (List (AppliedBlock β))) (tail : List (AppliedBlock β)) : Prop where
  chain : s.chain = segs.flatten ++ tail
  cache : s.cache = rowsOf tail
  covers : List.Forall₂ (Covers s.settledBlock) s.dumped segs
  ascending : Ascending s.chain
  below : ∀ b ∈ s.chain, b.num ≤ s.head
  lib_le : s.lib ≤ s.head
  irr_le : ∀ n ∈ s.irreversibleBlockNum, n ≤ s.lib
  reindex : s.state = .reindex → s.head ≤ s.lib
  waiting : s.state.collectBlocks = false → tail = []
  settled : s.state ≠ .live ∨ cfg.liteMode = true → ∀ b ∈ segs.flatten, b.num ≤ s.settledBlock
  live : s.state = .live → cfg.liteMode = false → tail = []

def Inv (cfg : IndexationConfig) (s : Indexation β) : Prop := ∃ segs tail, s.Aligned cfg segs tail

variable {bound : ℕ} {ds : List (DumpedBatch β)} {segs : List (List (AppliedBlock β))}

theorem Covers.mono {bound' : ℕ} (hle : bound ≤ bound') {d : DumpedBatch β}
    {seg : List (AppliedBlock β)} (h : Covers bound d seg) : Covers bound' d seg :=
  ⟨h.data, h.single, fun hd b hb ↦ (h.settled hd b hb).trans hle⟩

theorem inv_initial (cfg : IndexationConfig) {head lib : ℕ} (h : lib ≤ head) (psqlHead : ℕ)
    (interrupted : Bool) : Inv cfg (initial head lib psqlHead interrupted : Indexation β) :=
  ⟨[], [], rfl, rfl, .nil, .nil, by simp [initial], h, by simp [initial], by simp [initial],
    fun _ ↦ rfl, by simp, fun _ _ ↦ rfl⟩

theorem covers_massiveBatch (h : List.Forall₂ (Covers bound) ds segs)
    {front : List (AppliedBlock β)} (hfront : ∀ b ∈ front, b.num ≤ bound) (n : ℕ) :
    ∃ segs', List.Forall₂ (Covers bound) (ds ++ massiveBatch front n) segs' ∧
      segs'.flatten = segs.flatten ++ front := by
  cases front with
  | nil => exact ⟨segs, by simpa [massiveBatch] using h, by simp⟩
  | cons b front =>
    exact ⟨segs ++ [b :: front], List.rel_append h (.cons ⟨rfl, by simp, fun _ ↦ hfront⟩ .nil),
      by simp⟩

theorem covers_liveBatch (h : List.Forall₂ (Covers bound) ds segs) (front : List (AppliedBlock β)) :
    ∃ segs', List.Forall₂ (Covers bound) (ds ++ front.map liveBatch) segs' ∧
      segs'.flatten = segs.flatten ++ front := by
  induction front generalizing ds segs with
  | nil => exact ⟨segs, by simpa using h, by simp⟩
  | cons b front ih =>
    have hb : Covers bound (liveBatch b) [b] := ⟨rfl, fun _ ↦ ⟨b, rfl, rfl⟩, by simp [liveBatch]⟩
    obtain ⟨segs', hcov, heq⟩ := ih (List.rel_append h (.cons hb .nil))
    exact ⟨segs', by simpa using hcov, by simpa using heq⟩

theorem covers_filter {k : ℕ} (hk : bound ≤ k) (h : List.Forall₂ (Covers bound) ds segs) :
    ∃ segs', List.Forall₂ (Covers bound)
        (ds.filter fun d ↦ !d.live || decide (d.lastBlockNum ≤ k)) segs' ∧
      segs'.flatten = segs.flatten.filter fun b ↦ decide (b.num ≤ k) := by
  induction h with
  | nil => exact ⟨[], .nil, rfl⟩
  | @cons d seg ds segs hd hrest ih =>
    obtain ⟨segs', hcov, heq⟩ := ih
    cases hlive : d.live with
    | false =>
      have hseg : seg.filter (fun b ↦ decide (b.num ≤ k)) = seg :=
        List.filter_eq_self.2 fun b hb ↦ decide_eq_true ((hd.settled hlive b hb).trans hk)
      refine ⟨seg :: segs', ?_, ?_⟩
      · rw [List.filter_cons_of_pos (by simp [hlive])]
        exact .cons hd hcov
      · rw [List.flatten_cons, List.flatten_cons, List.filter_append, hseg, heq]
    | true =>
      obtain ⟨b, rfl, hb⟩ := hd.single hlive
      by_cases hle : d.lastBlockNum ≤ k
      · refine ⟨[b] :: segs', ?_, ?_⟩
        · rw [List.filter_cons_of_pos (by simp [hle])]
          exact .cons hd hcov
        · simp [heq, hb, hle]
      · refine ⟨segs', ?_, ?_⟩
        · rwa [List.filter_cons_of_neg (by simp [hlive, hle])]
        · simp [heq, hb, hle]

end Indexation

end HiveForkManager
