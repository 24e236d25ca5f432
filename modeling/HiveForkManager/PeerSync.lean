import HiveForkManager.FlushSafety

namespace HiveForkManager

open ExceptList

namespace Indexation

variable {β : Type} {cfg : IndexationConfig} {s s' : Indexation β}

variable {n : ℕ}

theorem forceTriggerFlush_ok {data rest : CachedData β}
    (h : forceTriggerFlush data n s = .ok (rest, s')) :
    ∃ new, s' = { s with dumped := s.dumped ++ new } ∧
      ∀ d ∈ new, d.data = data ∧ (s.state = .live → d.live = true) := by
  unfold forceTriggerFlush at h
  split at h
  · cases h
    exact ⟨[], by simp, by simp⟩
  · split at h
    · cases h
      exact ⟨[], by simp, by simp⟩
    · cases h
      exact ⟨[], by simp, by simp⟩
    · cases h
      exact ⟨[], by simp, by simp⟩
    case h_4 hst | h_5 hst =>
      cases h
      exact ⟨[⟨data, n, false⟩], rfl, by simp [hst]⟩
    case h_6 hst =>
      split at h
      · cases h
        exact ⟨[⟨data, n, true⟩], rfl, by simp⟩
      · cases h

theorem flushCache_ok (h : s.flushCache n = .ok s') :
    ∃ c new, s' = { s with cache := c, dumped := s.dumped ++ new } ∧
      ∀ d ∈ new, d.data = s.cache ∧ (s.state = .live → d.live = true) := by
  obtain ⟨⟨rest, s₁⟩, hflush, hs'⟩ := bind_eq_ok.mp h
  obtain ⟨new, rfl, hnew⟩ := forceTriggerFlush_ok hflush
  cases hs'
  exact ⟨rest, new, rfl, hnew⟩

theorem flushMoved_ok {moved : CachedData β × CachedData β} (h : flushMoved moved n s = .ok s') :
    ∃ new, s' = { s with cache := moved.2, dumped := s.dumped ++ new } ∧
      ∀ d ∈ new, d.data = moved.1 ∧ (s.state = .live → d.live = true) := by
  obtain ⟨⟨rest, s₁⟩, hflush, hs'⟩ := bind_eq_ok.mp h
  obtain ⟨new, rfl, hnew⟩ := forceTriggerFlush_ok hflush
  cases hs'
  exact ⟨new, rfl, hnew⟩

theorem flushOneByOne_ok {accept : ℕ → Bool} {turns : ℕ} (hs : s.state = .live)
    (h : flushOneByOne accept turns s = .ok s') :
    ∃ c new, s' = { s with cache := c, dumped := s.dumped ++ new } ∧
      ∀ d ∈ new, d.live = true := by
  induction turns generalizing s with
  | zero =>
    obtain rfl := Except.ok.inj h
    exact ⟨s.cache, [], by simp, by simp⟩
  | succ turns ih =>
    unfold flushOneByOne at h
    split at h
    · obtain rfl := Except.ok.inj h
      exact ⟨s.cache, [], by simp, by simp⟩
    · split at h
      · obtain ⟨s₁, hmoved, hrest⟩ := bind_eq_ok.mp h
        obtain ⟨new, rfl, hnew⟩ := flushMoved_ok hmoved
        obtain ⟨c, new', rfl, hnew'⟩ := ih (by exact hs) hrest
        refine ⟨c, new ++ new', by simp, fun d hd ↦ ?_⟩
        rcases List.mem_append.1 hd with hd | hd
        · exact (hnew d hd).2 hs
        · exact hnew' d hd
      · obtain rfl := Except.ok.inj h
        exact ⟨s.cache, [], by simp, by simp⟩

def Announced (irr : Option ℕ) (data : CachedData β) : Prop :=
  ∀ kind, ∀ r ∈ data kind, ∃ n, irr = some n ∧ r.blockNumber ≤ n

theorem announced_moveIrreversibleBlocks (irr : Option ℕ) (data : CachedData β) :
    Announced irr (moveIrreversibleBlocks irr data).1 := by
  intro kind r hr
  cases irr with
  | none => cases hr
  | some n => exact ⟨n, rfl, by simpa using List.mem_takeWhile_imp hr⟩

/-- A state reached from another by flushes, where the massive dumper got announced rows only. -/
def FlushedAnnounced (irr : Option ℕ) (s s' : Indexation β) : Prop :=
  ∃ new, s'.dumped = s.dumped ++ new ∧ ∀ d ∈ new, d.live = false → Announced irr d.data

theorem FlushedAnnounced.refl (irr : Option ℕ) (h : s'.dumped = s.dumped) :
    FlushedAnnounced irr s s' :=
  ⟨[], by simp [h], by simp⟩

theorem flushIrreversibleBlocks_ok (h : s.flushIrreversibleBlocks = .ok s') :
    ∃ c new, s' = { s with cache := c, dumped := s.dumped ++ new } ∧
      ∀ d ∈ new, Announced s.irreversibleBlockNum d.data := by
  obtain ⟨new, rfl, hnew⟩ := flushMoved_ok h
  exact ⟨_, new, rfl, fun d hd ↦
    (hnew d hd).1 ▸ announced_moveIrreversibleBlocks s.irreversibleBlockNum s.cache⟩

theorem flushBeforeLive_ok (h : s.flushBeforeLive = .ok s') :
    ∃ c new, s' = { s with cache := c, dumped := s.dumped ++ new } ∧
      ∀ d ∈ new, Announced s.irreversibleBlockNum d.data := by
  unfold flushBeforeLive at h
  split at h
  · obtain rfl := Except.ok.inj h
    exact ⟨s.cache, [], by simp, by simp⟩
  · exact flushIrreversibleBlocks_ok h

theorem enterLive_ok {enter : Indexation β → Except String (Indexation β)}
    (henter : ∀ s₁ s₂ : Indexation β, enter s₁ = .ok s₂ → ∃ c new,
      s₂ = { s₁ with state := .live, cache := c, dumped := s₁.dumped ++ new } ∧
        ∀ d ∈ new, d.live = true)
    (h : s.flushBeforeLive >>= enter = .ok s') :
    FlushedAnnounced s.irreversibleBlockNum s s' ∧ s'.lib = s.lib ∧ s'.head = s.head ∧
      s'.irreversibleBlockNum = s.irreversibleBlockNum ∧ s'.state = .live := by
  obtain ⟨s₁, hbefore, hrest⟩ := bind_eq_ok.mp h
  obtain ⟨c, new, rfl, hnew⟩ := flushBeforeLive_ok hbefore
  obtain ⟨c', new', rfl, hnew'⟩ := henter _ _ hrest
  refine ⟨⟨new ++ new', by simp, fun d hd hlive ↦ ?_⟩, rfl, rfl, rfl, rfl⟩
  rcases List.mem_append.1 hd with hd | hd
  · exact hnew d hd
  · rw [hnew' d hd] at hlive
    cases hlive

theorem startLive_ok (s₁ s₂ : Indexation β) (h : startLive cfg s₁ = .ok s₂) : ∃ c new,
    s₂ = { s₁ with state := .live, cache := c, dumped := s₁.dumped ++ new } ∧
      ∀ d ∈ new, d.live = true := by
  unfold startLive at h
  split at h
  · cases h
    exact ⟨fun _ ↦ [], [], by simp, by simp⟩
  · exact flushOneByOne_ok (s := { s₁ with state := .live }) rfl h

theorem enterInterrupted_ok {turns : ℕ} (s₁ s₂ : Indexation β)
    (h : (if cfg.liteMode then pure { s₁ with state := .live, cache := fun _ ↦ [] }
      else flushOneByOne (fun _ ↦ true) turns { s₁ with state := .live }) = Except.ok s₂) :
    ∃ c new, s₂ = { s₁ with state := .live, cache := c, dumped := s₁.dumped ++ new } ∧
      ∀ d ∈ new, d.live = true := by
  split at h
  · cases h
    exact ⟨fun _ ↦ [], [], by simp, by simp⟩
  · exact flushOneByOne_ok (s := { s₁ with state := .live }) rfl h

structure Ordered (s : Indexation β) : Prop where
  lib_le : s.lib ≤ s.head
  irr_le : ∀ n ∈ s.irreversibleBlockNum, n ≤ s.lib

structure Advances (s s' : Indexation β) : Prop where
  ordered : s'.Ordered
  lib_le : s.lib ≤ s'.lib

theorem Ordered.of_eq (h : s.Ordered) (hlib : s'.lib = s.lib) (hhead : s'.head = s.head)
    (hirr : s'.irreversibleBlockNum = s.irreversibleBlockNum ∨ s'.irreversibleBlockNum = none) :
    s.Advances s' := by
  refine ⟨⟨by rw [hlib, hhead]; exact h.lib_le, fun n hn ↦ ?_⟩, hlib.ge⟩
  rcases hirr with hirr | hirr
  · rw [hlib]
    exact h.irr_le n (hirr ▸ hn)
  · rw [hirr] at hn
    cases hn

theorem updateState_ok {target : IndexationState}
    (h : s.updateState cfg target n = .ok s') : s'.lib = s.lib ∧ s'.head = s.head ∧
      (s'.irreversibleBlockNum = s.irreversibleBlockNum ∨ s'.irreversibleBlockNum = none) := by
  unfold updateState at h
  split at h
  · cases h
  · split at h
    · cases h
    · cases target with
      | start | wait | reindexWait =>
        cases h
        exact ⟨rfl, rfl, Or.inl rfl⟩
      | p2p =>
        obtain ⟨s₁, hflush, hs'⟩ := bind_eq_ok.mp h
        obtain ⟨c, new, rfl, -⟩ := flushCache_ok hflush
        cases hs'
        exact ⟨rfl, rfl, Or.inr rfl⟩
      | reindex =>
        dsimp only at h
        split at h
        · obtain ⟨s₁, hflush, hs'⟩ := bind_eq_ok.mp h
          obtain ⟨c, new, rfl, -⟩ := flushCache_ok hflush
          cases hs'
          exact ⟨rfl, rfl, Or.inl rfl⟩
        · cases h
      | live =>
        obtain ⟨-, hlib, hhead, hirr, -⟩ := enterLive_ok startLive_ok h
        exact ⟨hlib, hhead, Or.inl hirr⟩

theorem triggerDataFlush_ok (h : s.triggerDataFlush cfg n = .ok s') :
    s'.lib = s.lib ∧ s'.head = s.head ∧ s'.irreversibleBlockNum = s.irreversibleBlockNum ∧
      (s.state = .p2p → FlushedAnnounced s.irreversibleBlockNum s s') := by
  unfold triggerDataFlush at h
  split at h
  case h_1 | h_2 | h_3 =>
    obtain rfl := Except.ok.inj h
    exact ⟨rfl, rfl, rfl, fun _ ↦ .refl _ rfl⟩
  case h_4 hst =>
    split at h
    · obtain ⟨c, new, rfl, -⟩ := flushCache_ok h
      exact ⟨rfl, rfl, rfl, fun hp ↦ by simp [hst] at hp⟩
    · obtain rfl := Except.ok.inj h
      exact ⟨rfl, rfl, rfl, fun _ ↦ .refl _ rfl⟩
  case h_5 =>
    split at h
    · obtain rfl := Except.ok.inj h
      exact ⟨rfl, rfl, rfl, fun _ ↦ .refl _ rfl⟩
    case h_2 m hirr =>
      split at h
      · obtain rfl := Except.ok.inj h
        exact ⟨rfl, rfl, rfl, fun _ ↦ .refl _ rfl⟩
      · obtain ⟨s₁, hmoved, hs'⟩ := bind_eq_ok.mp h
        obtain ⟨new, rfl, hnew⟩ := flushMoved_ok hmoved
        cases hs'
        refine ⟨rfl, rfl, rfl, fun _ ↦ ⟨new, rfl, fun d hd _ ↦ ?_⟩⟩
        rw [hirr, (hnew d hd).1]
        exact announced_moveIrreversibleBlocks (some m) s.cache
  case h_6 hst =>
    split at h
    · split at h
      · obtain rfl := Except.ok.inj h
        exact ⟨rfl, rfl, rfl, fun _ ↦ .refl _ rfl⟩
      · obtain ⟨c, new, rfl, -⟩ := flushOneByOne_ok hst h
        exact ⟨rfl, rfl, rfl, fun hp ↦ by simp [hst] at hp⟩
    · obtain ⟨c, new, rfl, -⟩ := flushCache_ok h
      exact ⟨rfl, rfl, rfl, fun hp ↦ by simp [hst] at hp⟩

def CacheAnnounced (s : Indexation β) : SyncStep β → Prop
  | .notified .shutdown => s.state = .p2p → Announced s.irreversibleBlockNum s.cache
  | _ => True

def InP2P (s s' : Indexation β) : Prop :=
  s.state = .p2p ∨ s.state.collectBlocks = false ∧ s'.state = .p2p

/-- What a step of a run does to the announced numbers, and what the massive dumper gets in the P2P
state. -/
def P2PStep (s s' : Indexation β) : Prop :=
  s.Advances s' ∧ (s.InP2P s' → FlushedAnnounced s.irreversibleBlockNum s s')

theorem triggerDataFlush_state (h : s.triggerDataFlush cfg n = .ok s') :
    s'.state = s.state := by
  unfold triggerDataFlush at h
  split at h
  case h_1 | h_2 | h_3 => exact Except.ok.inj h ▸ rfl
  case h_4 =>
    split at h
    · obtain ⟨c, new, rfl, -⟩ := flushCache_ok h
      rfl
    · exact Except.ok.inj h ▸ rfl
  case h_5 =>
    split at h
    · exact Except.ok.inj h ▸ rfl
    · split at h
      · exact Except.ok.inj h ▸ rfl
      · obtain ⟨s₁, hmoved, hs'⟩ := bind_eq_ok.mp h
        obtain ⟨new, rfl, -⟩ := flushMoved_ok hmoved
        cases hs'
        rfl
  case h_6 hst =>
    split at h
    · split at h
      · exact Except.ok.inj h ▸ rfl
      · obtain ⟨c, new, rfl, -⟩ := flushOneByOne_ok hst h
        rfl
    · obtain ⟨c, new, rfl, -⟩ := flushCache_ok h
      rfl

theorem updateWithEmptyCache_ok {target : IndexationState}
    (h : s.updateWithEmptyCache cfg target n = .ok s') : s'.lib = s.lib ∧ s'.head = s.head ∧
      (s'.irreversibleBlockNum = s.irreversibleBlockNum ∨ s'.irreversibleBlockNum = none) := by
  obtain ⟨s₁, hupdate, hs'⟩ := bind_eq_ok.mp h
  obtain rfl := Except.ok.inj hs'
  have hsame := updateState_ok hupdate
  exact hsame

theorem onBlock_ok {canLive : Bool} (h : s.onBlock cfg canLive n = .ok s') :
    s'.lib = s.lib ∧ s'.head = s.head ∧
      (s'.irreversibleBlockNum = s.irreversibleBlockNum ∨ s'.irreversibleBlockNum = none) := by
  obtain ⟨s₁, hleave, hrest⟩ := bind_eq_ok.mp h
  have hfirst : ∃ st, s₁ = { s with state := st } := by
    unfold leaveStart at hleave
    split at hleave
    case isTrue hst =>
      rw [updateState, if_neg (by simp [hst]), if_neg (by simp)] at hleave
      exact ⟨.wait, (Except.ok.inj hleave).symm⟩
    case isFalse => exact ⟨s.state, (Except.ok.inj hleave).symm⟩
  obtain ⟨st, rfl⟩ := hfirst
  split at hrest
  · unfold onFirstBlock at hrest
    split at hrest
    case h_1 | h_2 | h_3 => exact updateWithEmptyCache_ok (s := { s with state := st }) hrest
    case h_4 | h_5 | h_6 =>
      obtain rfl := Except.ok.inj hrest
      exact ⟨rfl, rfl, Or.inl rfl⟩
  · obtain rfl := Except.ok.inj hrest
    exact ⟨rfl, rfl, Or.inl rfl⟩

theorem FlushedAnnounced.of_none {irr : Option ℕ} (h : FlushedAnnounced none s s') :
    FlushedAnnounced irr s s' := by
  obtain ⟨new, hdumped, hnew⟩ := h
  refine ⟨new, hdumped, fun d hd hlive kind r hr ↦ ?_⟩
  obtain ⟨n, hn, -⟩ := hnew d hd hlive kind r hr
  cases hn

theorem onPostApplyBlock_ok {b : AppliedBlock β} (h : s.onPostApplyBlock cfg b = .ok s') :
    s'.lib = s.lib ∧ s'.head = s.head ∧ s'.irreversibleBlockNum = s.irreversibleBlockNum ∧
      s'.state = s.state ∧ (s.state = .p2p → FlushedAnnounced s.irreversibleBlockNum s s') := by
  unfold onPostApplyBlock at h
  split at h
  · obtain ⟨hlib, hhead, hirr, hflushed⟩ := triggerDataFlush_ok h
    have hstate := triggerDataFlush_state h
    exact ⟨hlib, hhead, hirr, hstate, hflushed⟩
  · obtain rfl := Except.ok.inj h
    exact ⟨rfl, rfl, rfl, rfl, fun _ ↦ .refl _ rfl⟩

theorem Ordered.advanceHead (h : s.Ordered) (hn : s.head ≤ n) :
    s.Advances (s.advanceHead n) := by
  have hlib := h.lib_le
  have hle : s.lib ≤ (s.advanceHead n).lib := by
    simp only [Indexation.advanceHead]
    split <;> omega
  refine ⟨⟨?_, fun m hm ↦ (h.irr_le m hm).trans hle⟩, hle⟩
  simp only [Indexation.advanceHead]
  split <;> omega

theorem Advances.trans {s'' : Indexation β} (h : s.Advances s') (h' : s'.Advances s'') :
    s.Advances s'' :=
  ⟨h'.ordered, h.lib_le.trans h'.lib_le⟩

theorem Ordered.applyBlock {tail : List (AppliedBlock β)} (ho : s.Ordered) (hc : s.Cached cfg tail)
    {b : AppliedBlock β} {canLive : Bool} (hb : b.num = s.head + 1)
    (h : s.step cfg (.applyBlock b canLive) = .ok s') : s.P2PStep s' := by
  obtain ⟨st, irr, flushed, hst, hnone, hok⟩ := hc.onBlock (not_refused_of_ok h)
  obtain ⟨-, -, hirr⟩ := onBlock_ok hok
  simp only [step, hok, bind, Except.bind] at h
  obtain ⟨hlib', hhead', hirr', hstate, hflushed⟩ := onPostApplyBlock_ok h
  have hfirst : s.Advances { s with
      state := st, irreversibleBlockNum := irr, lastFlushedBlockNum := flushed } :=
    ho.of_eq rfl rfl hirr
  have hhead := hfirst.ordered.advanceHead (n := b.num) (by simp only; omega)
  refine ⟨hfirst.trans (hhead.trans (hhead.ordered.of_eq hlib' hhead' (Or.inl hirr'))), ?_⟩
  intro hp
  cases hcollect : s.state.collectBlocks with
  | true =>
    have hsame := Except.ok.inj (hok.symm.trans (onBlock_collecting canLive b.num hcollect))
    have hirr : irr = s.irreversibleBlockNum := congrArg Indexation.irreversibleBlockNum hsame
    have hp2p : s.state = .p2p := hp.resolve_right fun hw ↦ by simp [hcollect] at hw
    exact hirr ▸ hflushed ((hst hcollect).trans hp2p)
  | false =>
    have hp2p : st = .p2p := hstate.symm.trans (hp.elim (fun hp ↦ by
      simp [hp, IndexationState.collectBlocks] at hcollect) fun hw ↦ hw.2)
    have hflushed' := hflushed hp2p
    rw [show Indexation.irreversibleBlockNum _ = none from hnone hcollect hp2p] at hflushed'
    exact hflushed'.of_none

theorem Ordered.postReindex (ho : s.Ordered) {stopAt : ℕ}
    (h : s.step cfg (.postReindex stopAt) = .ok s') : s.P2PStep s' := by
  have hstop : (do
      let s ← flushCache s.head s
      pure { s with stopped := true }) = Except.ok s' → s.Advances s' ∧ s'.state = s.state := by
    intro hdo
    obtain ⟨s₁, hflush, hs'⟩ := bind_eq_ok.mp hdo
    obtain rfl := Except.ok.inj hs'
    obtain ⟨c, new, rfl, -⟩ := flushCache_ok hflush
    exact ⟨ho.of_eq rfl rfl (Or.inl rfl), rfl⟩
  simp only [step, onPostReindex] at h
  cases hst : s.state with
  | start | p2p | live | wait =>
    simp only [hst] at h
    obtain rfl := Except.ok.inj h
    exact ⟨ho.of_eq rfl rfl (Or.inl rfl), fun _ ↦ .refl _ rfl⟩
  | reindex =>
    simp only [hst] at h
    refine ⟨?_, fun hp ↦ by simp [InP2P, hst, IndexationState.collectBlocks] at hp⟩
    split at h
    · exact (hstop h).1
    · obtain ⟨hlib, hhead, hirr⟩ := updateState_ok h
      exact ho.of_eq hlib hhead hirr
  | reindexWait =>
    simp only [hst] at h
    split at h
    · obtain ⟨hadvances, hstate⟩ := hstop h
      exact ⟨hadvances, fun hp ↦ by simp [InP2P, hstate, hst] at hp⟩
    · rw [updateState, if_neg (by simp [hst]), if_neg (by simp)] at h
      obtain rfl := Except.ok.inj h
      exact ⟨ho.of_eq rfl rfl (Or.inl rfl), fun _ ↦ .refl _ rfl⟩

theorem Ordered.syncStep {tail : List (AppliedBlock β)} (ho : s.Ordered) (hc : s.Cached cfg tail)
    {t : SyncStep β} (ht : s.SyncLegal t) (h : s.syncStep cfg t = .ok s') : s.Advances s' ∧
      (s.CacheAnnounced t → s.InP2P s' → FlushedAnnounced s.irreversibleBlockNum s s') := by
  cases t with
  | interrupted turns =>
    simp only [Indexation.syncStep] at h
    split at h
    · obtain rfl := Except.ok.inj h
      exact ⟨ho.of_eq rfl rfl (Or.inl rfl), fun _ _ ↦ .refl _ rfl⟩
    · obtain ⟨hflushed, hlib, hhead, hirr, -⟩ := enterLive_ok enterInterrupted_ok h
      exact ⟨ho.of_eq hlib hhead (Or.inl hirr), fun _ _ ↦ hflushed⟩
  | notified t =>
    simp only [Indexation.syncStep] at h
    cases t with
    | preReindex canLive =>
      obtain ⟨hlib, hhead, hirr⟩ := updateState_ok h
      refine ⟨ho.of_eq hlib hhead hirr, fun _ hp ↦ .refl _ ?_⟩
      cases canLive <;> simp [step, onPreReindex, updateState, ht.2] at h <;> rw [← h]
    | postReindex stopAt => exact (ho.postReindex h).imp_right fun hflushed _ ↦ hflushed
    | applyBlock b canLive =>
      exact (ho.applyBlock hc ht.2 h).imp_right fun hflushed _ ↦ hflushed
    | irreversible n =>
      obtain rfl := Except.ok.inj h
      exact ⟨⟨⟨ht.2.2, fun m hm ↦ by cases hm; exact le_rfl⟩, ht.2.1⟩, fun _ _ ↦ .refl _ rfl⟩
    | switchFork k =>
      obtain rfl := Except.ok.inj h
      refine ⟨⟨⟨ht.2.1, ho.irr_le⟩, le_rfl⟩, fun _ hp ↦ .refl _ ?_⟩
      have hlive : s.state ≠ .live := fun hl ↦ by
        rcases hp with hp | ⟨hp, -⟩ <;> simp [hl, IndexationState.collectBlocks] at hp
      simp [onSwitchFork, hlive]
    | endOfSyncing =>
      simp only [step, onEndOfSyncing] at h
      split at h
      · obtain rfl := Except.ok.inj h
        exact ⟨ho.of_eq rfl rfl (Or.inl rfl), fun _ _ ↦ .refl _ rfl⟩
      case isFalse hst =>
        rw [updateState, if_neg hst, if_neg (by simp)] at h
        obtain ⟨hflushed, hlib, hhead, hirr, -⟩ := enterLive_ok startLive_ok h
        exact ⟨ho.of_eq hlib hhead (Or.inl hirr), fun _ _ ↦ hflushed⟩
    | shutdown =>
      obtain ⟨s₁, hflush, hs'⟩ := bind_eq_ok.mp h
      obtain rfl := Except.ok.inj hs'
      unfold flushAllCachedData at hflush
      split at hflush
      · obtain ⟨c, new, rfl, hnew⟩ := flushIrreversibleBlocks_ok hflush
        exact ⟨ho.of_eq rfl rfl (Or.inl rfl), fun _ _ ↦ ⟨new, rfl, fun d hd _ ↦ hnew d hd⟩⟩
      · obtain ⟨c, new, rfl, hnew⟩ := flushCache_ok hflush
        refine ⟨ho.of_eq rfl rfl (Or.inl rfl), fun hannounced hp ↦ ⟨new, rfl, fun d hd _ ↦ ?_⟩⟩
        rw [(hnew d hd).1]
        exact hannounced (hp.elim id fun hw ↦ hw.2)

theorem SyncReachable.ordered (hs : s.SyncReachable cfg) : s.Ordered := by
  induction hs with
  | initial psqlHead interrupted h => exact ⟨h, by simp [Indexation.initial]⟩
  | step hs ht hstep ih =>
    obtain ⟨tail, hc⟩ := hs.cached
    exact (ih.syncStep hc ht hstep).1.ordered

def Follows (cfg : IndexationConfig) (s s' : Indexation β) : Prop :=
  ∃ t, s.SyncLegal t ∧ s.syncStep cfg t = .ok s'

theorem SyncReachable.lib_le (hs : s.SyncReachable cfg)
    (hrun : Relation.ReflTransGen (Follows cfg) s s') :
    s'.SyncReachable cfg ∧ s.lib ≤ s'.lib := by
  induction hrun with
  | refl => exact ⟨hs, le_rfl⟩
  | tail _ hstep ih =>
    obtain ⟨hs', hle⟩ := ih
    obtain ⟨t, ht, hok⟩ := hstep
    obtain ⟨tail, hc⟩ := hs'.cached
    exact ⟨hs'.step ht hok, hle.trans (hs'.ordered.syncStep hc ht hok).1.lib_le⟩

/-- Whatever the run was before, the massive dumper gets rows of announced blocks only while the
state is P2P, and hived leaves none of these blocks however the run goes on. -/
theorem p2p_writes_irreversible_blocks (hs : s.SyncReachable cfg) {t : SyncStep β}
    (ht : s.SyncLegal t) (hannounced : s.CacheAnnounced t) (hstep : s.syncStep cfg t = .ok s')
    (hp : s.InP2P s') :
    ∃ new, s'.dumped = s.dumped ++ new ∧ ∀ d ∈ new, d.live = false →
      ∀ kind, ∀ r ∈ d.data kind,
        (∃ n, s.irreversibleBlockNum = some n ∧ r.blockNumber ≤ n) ∧
        ∀ s'' k, Relation.ReflTransGen (Follows cfg) s' s'' → s''.Legal (.switchFork k) →
          r.blockNumber ≤ k := by
  obtain ⟨tail, hc⟩ := hs.cached
  obtain ⟨hadvances, hflushed⟩ := hs.ordered.syncStep hc ht hstep
  obtain ⟨new, hdumped, hnew⟩ := hflushed hannounced hp
  refine ⟨new, hdumped, fun d hd hlive kind r hr ↦ ?_⟩
  obtain ⟨n, hirr, hle⟩ := hnew d hd hlive kind r hr
  refine ⟨⟨n, hirr, hle⟩, fun s'' k hrun hfork ↦ ?_⟩
  have hlib := (hs.step ht hstep).lib_le hrun
  calc r.blockNumber ≤ n := hle
    _ ≤ s.lib := hs.ordered.irr_le n hirr
    _ ≤ s'.lib := hadvances.lib_le
    _ ≤ s''.lib := hlib.2
    _ ≤ k := hfork.2.1

/-- Two blocks of a P2P sync, both announced, are dumped by a shutdown. -/
theorem p2p_shutdown_announced : ∃ s s' : Indexation ℕ, s.SyncReachable ⟨false, 1⟩ ∧
    s.syncStep ⟨false, 1⟩ (.notified .shutdown) = .ok s' ∧
    (s'.dumped.flatMap fun d ↦ d.data .blocks).map CachedRow.blockNumber = [1, 2] ∧
    ∃ new, s'.dumped = s.dumped ++ new ∧ ∀ d ∈ new, d.live = false →
      ∀ r ∈ d.data .blocks, ∃ n, s.irreversibleBlockNum = some n ∧ r.blockNumber ≤ n := by
  have hs := SyncReachable.step (t := .notified (.irreversible 2))
    (.step (t := .notified (.applyBlock (sampleBlock 2 2) false))
      (.step (t := .notified (.applyBlock (sampleBlock 1 1) false))
        (.initial 0 false (le_refl 0) : SyncReachable ⟨false, 1⟩ _) ⟨rfl, rfl⟩ rfl)
      ⟨rfl, rfl⟩ rfl) ⟨rfl, by decide, by decide⟩ rfl
  obtain ⟨new, hdumped, hnew⟩ := p2p_writes_irreversible_blocks hs (t := .notified .shutdown) rfl
    (fun _ kind r hr ↦ ⟨2, rfl, by revert hr r; cases kind <;> decide⟩) rfl (Or.inl rfl)
  exact ⟨_, _, hs, rfl, rfl, new, hdumped, fun d hd hlive r hr ↦ (hnew d hd hlive .blocks r hr).1⟩

/-- A shutdown of a P2P sync dumps the blocks 2 and 3, which hived may still leave, although only
block 1 was announced. -/
theorem p2p_shutdown_writes_reversible_blocks : ∃ s s' : Indexation ℕ,
    s.SyncReachable ⟨false, 1⟩ ∧ s.state = .p2p ∧ s.irreversibleBlockNum = some 1 ∧
    s.syncStep ⟨false, 1⟩ (.notified .shutdown) = .ok s' ∧ s.dumped = [] ∧
    s'.dumped.map DumpedBatch.live = [false] ∧
    (s'.dumped.flatMap fun d ↦ d.data .blocks).map CachedRow.blockNumber = [1, 2, 3] ∧
    s.Legal (.switchFork 1) := by
  have hs := SyncReachable.step (t := .notified (.irreversible 1))
    (.step (t := .notified (.applyBlock (sampleBlock 3 3) false))
      (.step (t := .notified (.applyBlock (sampleBlock 2 2) false))
        (.step (t := .notified (.applyBlock (sampleBlock 1 1) false))
          (.initial 0 false (le_refl 0) : SyncReachable ⟨false, 1⟩ _) ⟨rfl, rfl⟩ rfl)
        ⟨rfl, rfl⟩ rfl) ⟨rfl, rfl⟩ rfl) ⟨rfl, by decide, by decide⟩ rfl
  exact ⟨_, _, hs, rfl, rfl, rfl, rfl, rfl, rfl, rfl, by decide, by decide⟩

end Indexation

end HiveForkManager
