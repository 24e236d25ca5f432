import HiveForkManager.AppFrame

namespace HiveForkManager

open ExceptList

variable {ρ : Type}

structure Position where
  currentBlockNum : ℕ
  irreversibleBlock : ℕ
  eventsId : ℕ
  forkId : ℕ
  isForking : Bool
  isAttached : Bool
  deriving DecidableEq, Repr

namespace Context

def position (c : Context ρ) : Position where
  currentBlockNum := c.currentBlockNum
  irreversibleBlock := c.irreversibleBlock
  eventsId := c.eventsId
  forkId := c.forkId
  isForking := c.isForking
  isAttached := c.isAttached

section Single

variable (h : Hafd) (c : Context ρ)

def newIrreversible : Option ℕ :=
  if onIrreversible h c then some h.irreversibleHead
  else (h.nextIrreversibleEvent c.eventsId c.irreversibleBlock).map Event.blockNum

def updateIrreversible : Context ρ := (c.newIrreversible h).elim c (fun n ↦ c.setIrreversible n)

def squashMassiveSync (heq : Event) : Context ρ :=
  { (if h.forkBetween c.eventsId heq.id then contextBackFromFork h c.irreversibleBlock c else c) with
    eventsId := h.lastIdBefore heq.id }

def forkToSquash : Option Event :=
  (h.nextForkEvent c.eventsId c.currentBlockNum).filter
    (fun heq ↦ !h.irreversibleBetween c.eventsId heq.id)

def squashFork : Context ρ :=
  (c.forkToSquash h).elim c (fun heq ↦ { c with eventsId := heq.id - 1 })

def squash : Context ρ :=
  if c.eventsId = 0 then c
  else (h.nextMassiveSyncEvent c.eventsId).elim ((c.updateIrreversible h).squashFork h)
    ((c.updateIrreversible h).squashMassiveSync h)

def nextEvent : Option Event :=
  (lastEvent h.eventsQueue).bind (fun maxEvent ↦ pickNextEvent h c maxEvent.id)

def nextForkId : ℕ :=
  if onIrreversible h c then (h.maxForkIdInRange h.irreversibleHead c.forkId).getD c.forkId
  else c.forkId

def findNext : Context ρ :=
  { c with
    forkId := c.nextForkId h
    eventsId := ((c.nextEvent h).map Event.id).getD c.eventsId }

def state : ContextState :=
  ⟨c.currentBlockNum, c.isAttached, c.irreversibleBlock, c.nextEvent h⟩

/-- A call of `hive.app_next_block` for a forking context. -/
def nextBlock (blockLimit : Option ℕ) : Except Error (Context ρ × Option BlocksRange) :=
  appProcessEvent h ((c.squash h).state h) blockLimit ((c.squash h).findNext h)

def advance (blockLimit : Option ℕ) : Context ρ :=
  (c.nextBlock h blockLimit).toOption.elim c Prod.fst

end Single

end Context

section Groups

namespace Db

variable {db : Db ρ} {g : List ContextName} {f f' : Context ρ → Context ρ}

theorem updateContexts_updateContexts (hf : ∀ c, (f c).name = c.name) :
    (db.updateContexts g f).updateContexts g f' = db.updateContexts g (fun c ↦ f' (f c)) := by
  simp only [updateContexts, List.map_map]
  congr 1
  apply List.map_congr_left
  intro c _
  by_cases hc : c.name ∈ g <;> simp [hc, hf]

theorem updateContexts_congr (hf : ∀ c ∈ db.contexts, c.name ∈ g → f c = f' c) :
    db.updateContexts g f = db.updateContexts g f' := by
  simp only [updateContexts]
  congr 1
  apply List.map_congr_left
  intro c hc
  by_cases hn : c.name ∈ g
  · rw [if_pos hn, if_pos hn, hf c hc hn]
  · rw [if_neg hn, if_neg hn]

theorem updateContexts_eq_self (hf : ∀ c ∈ db.contexts, c.name ∈ g → f c = c) :
    db.updateContexts g f = db := by
  rw [updateContexts_congr hf, updateContexts]
  simp

theorem mem_updateContexts {c' : Context ρ} :
    c' ∈ (db.updateContexts g f).contexts ↔
      ∃ c ∈ db.contexts, (if c.name ∈ g then f c else c) = c' := List.mem_map

theorem leadContext_updateContexts (hf : ∀ c, (f c).name = c.name) :
    (db.updateContexts g f).leadContext g = (db.leadContext g).map f := by
  cases g with
  | nil => rfl
  | cons name g =>
    simp only [leadContext, List.head?_cons, Option.bind_some, context?, updateContexts,
      List.find?_map]
    have hpred : ((fun c : Context ρ ↦ decide (c.name = name)) ∘
        fun c ↦ if c.name ∈ name :: g then f c else c) = fun c ↦ decide (c.name = name) := by
      funext c
      rw [Function.comp_apply]
      split <;> simp only [hf]
    rw [hpred]
    cases hfind : db.contexts.find? (fun c ↦ decide (c.name = name)) with
    | none => rfl
    | some c =>
      have hname : c.name = name := by simpa using List.find?_some hfind
      simp [hname]

theorem leadContext_mem {lead : Context ρ} (hlead : db.leadContext g = some lead) :
    lead ∈ db.contexts ∧ lead.name ∈ g := by
  cases g with
  | nil => cases hlead
  | cons name g =>
    have hfind : db.contexts.find? (fun c ↦ decide (c.name = name)) = some lead := hlead
    have hname : lead.name = name := by simpa using List.find?_some hfind
    exact ⟨List.mem_of_find?_eq_some hfind, hname ▸ List.mem_cons_self⟩

end Db

structure MovesByPosition (f : Context ρ → Context ρ) : Prop where
  name : ∀ c, (f c).name = c.name
  position : ∀ c c', c.position = c'.position → (f c).position = (f c').position

structure Lockstep (g : List ContextName) (db : Db ρ) (lead : Context ρ) : Prop where
  nodup : g.Nodup
  isLead : db.leadContext g = some lead
  together : ∀ c ∈ db.contexts, c.name ∈ g → c.position = lead.position

namespace Lockstep

variable {g : List ContextName} {db : Db ρ} {lead : Context ρ} {f : Context ρ → Context ρ}

theorem update (hl : Lockstep g db lead) (hf : MovesByPosition f) :
    Lockstep g (db.updateContexts g f) (f lead) where
  nodup := hl.nodup
  isLead := by rw [Db.leadContext_updateContexts hf.name, hl.isLead, Option.map_some]
  together c' hc' hn := by
    obtain ⟨c, hc, rfl⟩ := Db.mem_updateContexts.mp hc'
    by_cases hg : c.name ∈ g
    · rw [if_pos hg]
      exact hf.position c lead (hl.together c hc hg)
    · rw [if_neg hg] at hn
      exact absurd hn hg

end Lockstep

end Groups

section MovesByPosition

variable {h : Hafd}

variable {c c' d : Context ρ} {limit : Option ℕ} {range : Option BlocksRange}

theorem position_eq : c.position = c'.position ↔
    c.currentBlockNum = c'.currentBlockNum ∧ c.irreversibleBlock = c'.irreversibleBlock ∧
      c.eventsId = c'.eventsId ∧ c.forkId = c'.forkId ∧ c.isForking = c'.isForking ∧
      c.isAttached = c'.isAttached := by
  simp only [Context.position, Position.mk.injEq]

theorem movesByPosition_comp {f f' : Context ρ → Context ρ} (hf : MovesByPosition f)
    (hf' : MovesByPosition f') : MovesByPosition (fun c ↦ f' (f c)) :=
  ⟨fun c ↦ (hf'.name _).trans (hf.name c), fun c c' hc ↦ hf'.position _ _ (hf.position c c' hc)⟩

theorem movesByPosition_setIrreversible (n : ℕ) :
    MovesByPosition (ρ := ρ) (Context.setIrreversible n) where
  name _ := rfl
  position c c' hc := by
    obtain ⟨h₁, -, h₃, h₄, h₅, h₆⟩ := position_eq.mp hc
    exact position_eq.mpr ⟨h₁, rfl, h₃, h₄, h₅, h₆⟩

theorem newIrreversible_congr (hc : c.position = c'.position) :
    c.newIrreversible h = c'.newIrreversible h := by
  obtain ⟨h₁, h₂, h₃, -⟩ := position_eq.mp hc
  simp only [Context.newIrreversible, onIrreversible, h₁, h₂, h₃]

theorem movesByPosition_updateIrreversible :
    MovesByPosition (ρ := ρ) (Context.updateIrreversible h) where
  name c := by
    rw [Context.updateIrreversible]
    cases c.newIrreversible h <;> rfl
  position c c' hc := by
    rw [Context.updateIrreversible, Context.updateIrreversible, newIrreversible_congr hc]
    cases c'.newIrreversible h with
    | none => exact hc
    | some n => exact (movesByPosition_setIrreversible n).position c c' hc

theorem contextBackFromFork_position (b : ℕ) (c : Context ρ) :
    (contextBackFromFork h b c).position =
      { c.position with currentBlockNum := min c.currentBlockNum b } := by
  rw [contextBackFromFork, Context.backFromForkLite, Context.backFromFork]
  rcases Nat.lt_or_ge b c.currentBlockNum with hb | hb
  · rw [if_pos hb, if_pos hb, Nat.min_eq_right hb.le]
    split <;> rfl
  · rw [if_neg (Nat.not_lt.mpr hb), if_neg (Nat.not_lt.mpr hb), Nat.min_eq_left hb]
    split <;> rfl

theorem movesByPosition_squashMassiveSync (heq : Event) :
    MovesByPosition (ρ := ρ) (fun c ↦ c.squashMassiveSync h heq) where
  name c := by
    dsimp only [Context.squashMassiveSync]
    split
    · exact congrArg Settings.name (contextBackFromFork_settings _ c)
    · rfl
  position c c' hc := by
    obtain ⟨h₁, h₂, h₃, h₄, h₅, h₆⟩ := position_eq.mp hc
    have hrewound : (contextBackFromFork h c.irreversibleBlock c).position =
        (contextBackFromFork h c'.irreversibleBlock c').position := by
      rw [contextBackFromFork_position, contextBackFromFork_position, hc, h₁, h₂]
    obtain ⟨r₁, r₂, -, r₄, r₅, r₆⟩ := position_eq.mp hrewound
    simp only [Context.squashMassiveSync, h₃]
    split
    · exact position_eq.mpr ⟨r₁, r₂, rfl, r₄, r₅, r₆⟩
    · exact position_eq.mpr ⟨h₁, h₂, rfl, h₄, h₅, h₆⟩

theorem forkToSquash_congr (hc : c.position = c'.position) :
    c.forkToSquash h = c'.forkToSquash h := by
  obtain ⟨h₁, -, h₃, -⟩ := position_eq.mp hc
  rw [Context.forkToSquash, Context.forkToSquash, h₁, h₃]

theorem movesByPosition_squashFork : MovesByPosition (ρ := ρ) (Context.squashFork h) where
  name c := by
    rw [Context.squashFork]
    cases c.forkToSquash h <;> rfl
  position c c' hc := by
    obtain ⟨h₁, h₂, h₃, h₄, h₅, h₆⟩ := position_eq.mp hc
    rw [Context.squashFork, Context.squashFork, forkToSquash_congr hc]
    cases c'.forkToSquash h with
    | none => exact hc
    | some heq => exact position_eq.mpr ⟨h₁, h₂, rfl, h₄, h₅, h₆⟩

theorem squash_settings (c : Context ρ) : (c.squash h).settings = c.settings := by
  have hupdate : (c.updateIrreversible h).settings = c.settings := by
    rw [Context.updateIrreversible]
    cases c.newIrreversible h <;> rfl
  rw [Context.squash]
  split
  · rfl
  · cases h.nextMassiveSyncEvent c.eventsId with
    | none =>
      refine Eq.trans ?_ hupdate
      rw [Option.elim_none, Context.squashFork]
      cases (c.updateIrreversible h).forkToSquash h <;> rfl
    | some heq =>
      refine Eq.trans ?_ hupdate
      dsimp only [Option.elim_some, Context.squashMassiveSync]
      split
      · exact contextBackFromFork_settings _ _
      · rfl

theorem movesByPosition_squash : MovesByPosition (ρ := ρ) (Context.squash h) where
  name c := congrArg Settings.name (squash_settings c)
  position c c' hc := by
    obtain ⟨-, -, h₃, -⟩ := position_eq.mp hc
    rw [Context.squash, Context.squash, h₃]
    split
    · exact hc
    · cases h.nextMassiveSyncEvent c'.eventsId with
      | none => exact (movesByPosition_comp movesByPosition_updateIrreversible
          movesByPosition_squashFork).position c c' hc
      | some heq => exact (movesByPosition_comp movesByPosition_updateIrreversible
          (movesByPosition_squashMassiveSync heq)).position c c' hc

theorem nextEvent_congr (hc : c.position = c'.position) :
    c.nextEvent h = c'.nextEvent h := by
  obtain ⟨h₁, h₂, h₃, -⟩ := position_eq.mp hc
  simp only [Context.nextEvent, pickNextEvent, onIrreversible, h₁, h₂, h₃]

theorem state_congr (hc : c.position = c'.position) :
    c.state h = c'.state h := by
  obtain ⟨h₁, h₂, -, -, -, h₆⟩ := position_eq.mp hc
  rw [Context.state, Context.state, h₁, h₂, h₆, nextEvent_congr hc]

theorem movesByPosition_findNext : MovesByPosition (ρ := ρ) (Context.findNext h) where
  name _ := rfl
  position c c' hc := by
    obtain ⟨h₁, h₂, h₃, h₄, h₅, h₆⟩ := position_eq.mp hc
    have hfork : c.nextForkId h = c'.nextForkId h := by
      simp only [Context.nextForkId, onIrreversible, h₁, h₂, h₄]
    exact position_eq.mpr ⟨h₁, h₂, by simp only [Context.findNext, nextEvent_congr hc, h₃],
      hfork, h₅, h₆⟩

theorem processIrreversibleRange_congr (current n : ℕ) (hc : c.position = c'.position) :
    (processIrreversibleRange h current n c).1.position =
        (processIrreversibleRange h current n c').1.position ∧
      (processIrreversibleRange h current n c).2 = (processIrreversibleRange h current n c').2 := by
  obtain ⟨-, h₂, h₃, h₄, h₅, h₆⟩ := position_eq.mp hc
  dsimp only [processIrreversibleRange]
  split
  · exact ⟨position_eq.mpr ⟨rfl, h₂, h₃, h₄, h₅, h₆⟩, rfl⟩
  · exact ⟨hc, rfl⟩

theorem appProcessEvent_congr {state : ContextState} (hc : c.position = c'.position)
    (hok : appProcessEvent h state limit c = .ok (d, range)) :
    ∃ d', appProcessEvent h state limit c' = .ok (d', range) ∧ d.position = d'.position := by
  obtain ⟨h₁, h₂, h₃, h₄, h₅, h₆⟩ := position_eq.mp hc
  have hirr : ∀ {n : ℕ} {c c' : Context ρ}, c.position = c'.position →
      processIrreversibleRange h state.currentBlockNum n c = (d, range) →
      ∃ d', (Except.ok (processIrreversibleRange h state.currentBlockNum n c') :
        Except Error _) = .ok (d', range) ∧ d.position = d'.position := by
    intro n c c' hc hrange
    obtain ⟨hpos, hsame⟩ := processIrreversibleRange_congr (h := h)
      state.currentBlockNum n hc
    rw [hrange] at hpos hsame
    exact ⟨_, by rw [show range = _ from hsame], hpos⟩
  rw [appProcessEvent] at hok ⊢
  dsimp only at hok ⊢
  split at hok
  · split at hok
    · cases hok
    · rename_i hf _
      cases hok
      have hpos : (contextBackFromFork h hf.blockNum c).position =
          (contextBackFromFork h hf.blockNum c').position := by
        rw [contextBackFromFork_position, contextBackFromFork_position, hc, h₁]
      obtain ⟨-, r₂, r₃, -, r₅, r₆⟩ := position_eq.mp hpos
      exact ⟨_, rfl, position_eq.mpr ⟨rfl, r₂, r₃, rfl, r₅, r₆⟩⟩
  · split at hok
    · cases hok
    · rename_i hlt
      rw [if_neg hlt]
      split at hok
      · rename_i hlimit
        cases hok
        exact ⟨c', by rw [if_pos hlimit], hc⟩
      · rename_i hlimit
        rw [if_neg hlimit]
        split at hok
        · rename_i num _ hnum
          cases hok
          exact ⟨{ c' with currentBlockNum := num }, by rw [if_pos hnum],
            position_eq.mpr ⟨rfl, h₂, h₃, h₄, h₅, h₆⟩⟩
        · rename_i hnum
          rw [if_neg hnum]
          split at hok
          · rename_i habove
            rw [if_pos habove]
            split at hok
            · cases hok
            · rename_i head _
              split at hok
              · rename_i hle
                rw [if_pos hle]
                rw [contextSetIrreversibleBlock] at hok ⊢
                rw [← h₂]
                split at hok
                · cases hok
                · rename_i hirr'
                  rw [if_neg hirr']
                  exact hirr ((movesByPosition_setIrreversible head).position c c' hc)
                    (Except.ok.inj hok)
              · cases hok
          · rename_i habove
            rw [if_neg habove, ← h₂]
            exact hirr hc (Except.ok.inj hok)
  · rw [← h₂]
    exact hirr hc (Except.ok.inj hok)

theorem nextBlock_congr
    (hc : c.position = c'.position) (hok : c.nextBlock h limit = .ok (d, range)) :
    ∃ d', c'.nextBlock h limit = .ok (d', range) ∧ d.position = d'.position := by
  have hsquash := (movesByPosition_squash (h := h)).position c c' hc
  rw [Context.nextBlock, state_congr hsquash] at hok
  exact appProcessEvent_congr (movesByPosition_findNext.position _ _ hsquash) hok

theorem nextBlock_settings (hok : c.nextBlock h limit = .ok (d, range)) : d.settings = c.settings :=
  (processed_of_eq_ok hok).settings.trans (squash_settings c)

theorem advance_of_ok (hok : c.nextBlock h limit = .ok (d, range)) : c.advance h limit = d := by
  rw [Context.advance, hok]
  rfl

end MovesByPosition

section Refinement

variable {history : List HistoryEntry} {lo : ℕ} {chain : List BlockData} {g : List ContextName}
  {db : Db ρ} {lead : Context ρ}

variable {e : Event} {h : Hafd}

theorem setEventsId_eq_ok {i : ℕ} (hid : e.id = i) (he : e ∈ db.eventsQueue) :
    db.setEventsId g i = .ok (db.updateContexts g (fun c ↦ { c with eventsId := i })) := by
  rw [Db.setEventsId, if_pos]
  exact List.any_eq_true.mpr ⟨e, he, decide_eq_true hid⟩

theorem updateIrreversible_eq (hl : Lockstep g db lead)
    (hirr : ∀ c ∈ db.contexts, c.irreversibleBlock ≤ db.irreversibleHead) :
    updateIrreversible g db = .ok (db.updateContexts g (Context.updateIrreversible db.toHafd)) := by
  have hset : ∀ n, lead.newIrreversible db.toHafd = some n →
      (∀ c ∈ db.contexts, c.name ∈ g → c.irreversibleBlock ≤ n) →
      db.forEachContext g (contextSetIrreversibleBlock n) =
        .ok (db.updateContexts g (Context.updateIrreversible db.toHafd)) := by
    intro n hn hle
    refine Db.forEachContext_eq hl.nodup movesByPosition_updateIrreversible.name ?_
    intro c hc hcn
    rw [contextSetIrreversibleBlock, if_neg (Nat.not_lt.mpr (hle c hc hcn)),
      Context.updateIrreversible, newIrreversible_congr (hl.together c hc hcn), hn]
    rfl
  rw [updateIrreversible, hl.isLead]
  dsimp only
  split
  · rename_i hon
    exact hset _ (if_pos hon) fun c hc _ ↦ hirr c hc
  · rename_i hon
    split
    · rename_i hnone
      have hnew : lead.newIrreversible db.toHafd = none := by
        rw [Context.newIrreversible, if_neg hon, hnone, Option.map_none]
      rw [Db.updateContexts_eq_self]
      intro c hc hcn
      rw [Context.updateIrreversible, newIrreversible_congr (hl.together c hc hcn), hnew]
      rfl
    · rename_i heq hsome
      refine hset _ (by rw [Context.newIrreversible, if_neg hon, hsome, Option.map_some]) ?_
      intro c hc hcn
      obtain ⟨-, h₂, -⟩ := position_eq.mp (hl.together c hc hcn)
      have hmem := (List.mem_filter.mp (List.argmax_mem hsome)).2
      have hlt := (of_decide_eq_true hmem).2.2.2
      rw [h₂]
      exact hlt.le

theorem squashEndMassiveSyncEvents_eq (hl : Lockstep g db lead) :
    squashEndMassiveSyncEvents g db =
      .ok ((db.nextMassiveSyncEvent lead.eventsId).elim (db, false)
        (fun heq ↦ (db.updateContexts g (fun c ↦ c.squashMassiveSync db.toHafd heq), true))) := by
  rw [squashEndMassiveSyncEvents, hl.isLead]
  dsimp only
  cases db.nextMassiveSyncEvent lead.eventsId with
  | none => rfl
  | some heq =>
    simp only [Option.elim_some, Except.ok.injEq, Prod.mk.injEq, and_true]
    split <;> rename_i hfork
    · rw [Db.updateContexts_updateContexts fun c ↦
        congrArg Settings.name (contextBackFromFork_settings _ c)]
      apply Db.updateContexts_congr
      intro c hc hcn
      obtain ⟨-, h₂, h₃, -⟩ := position_eq.mp (hl.together c hc hcn)
      rw [Context.squashMassiveSync, h₃, if_pos hfork, h₂]
    · apply Db.updateContexts_congr
      intro c hc hcn
      obtain ⟨-, -, h₃, -⟩ := position_eq.mp (hl.together c hc hcn)
      rw [Context.squashMassiveSync, h₃, if_neg hfork]

theorem mem_nextForkEvent {p b : ℕ} (he : h.nextForkEvent p b = some e) :
    e ∈ h.eventsQueue ∧ e.event = .backFromFork ∧ p < e.id ∧
      ∃ hf ∈ h.forks, hf.id = e.blockNum ∧ hf.blockNum ≤ b := by
  rw [Hafd.nextForkEvent, Option.map_eq_some_iff] at he
  obtain ⟨⟨e', hf⟩, hargmin, rfl⟩ := he
  obtain ⟨e', hmem, hpair⟩ := List.mem_flatMap.mp (List.argmin_mem hargmin)
  obtain ⟨hf', hfilter, heq⟩ := List.mem_map.mp hpair
  obtain ⟨hforks, hcond⟩ := List.mem_filter.mp hfilter
  obtain ⟨hid, htype, hlt, hle⟩ := of_decide_eq_true hcond
  cases heq
  exact ⟨hmem, htype, hlt, hf, hforks, hid, hle⟩

theorem squashForkEvents_eq (hl : Lockstep g db lead) (inv : EventsInv db.toHafd history lo chain)
    (hkept : lo ≤ lead.eventsId) :
    squashForkEvents g db = .ok (db.updateContexts g (Context.squashFork db.toHafd)) := by
  have hsame : ∀ c ∈ db.contexts, c.name ∈ g →
      c.forkToSquash db.toHafd = lead.forkToSquash db.toHafd := by
    intro c hc hcn
    exact forkToSquash_congr (hl.together c hc hcn)
  have hself : lead.forkToSquash db.toHafd = none →
      db.updateContexts g (Context.squashFork db.toHafd) = db := by
    intro hnone
    apply Db.updateContexts_eq_self
    intro c hc hcn
    rw [Context.squashFork, hsame c hc hcn, hnone]
    rfl
  rw [squashForkEvents, hl.isLead]
  dsimp only
  split
  · rename_i hnone
    rw [hself (by rw [Context.forkToSquash, hnone, Option.filter_none])]
  · rename_i heq hnext
    split
    · rename_i hbetween
      rw [hself (by simp [Context.forkToSquash, hnext, hbetween])]
    · rename_i hbetween
      obtain ⟨hmem, -, hlt, -⟩ := mem_nextForkEvent hnext
      have hlen := inv.id_lt_length hmem
      have hget : history[heq.id - 1]? = some history[heq.id - 1] :=
        List.getElem?_eq_getElem (by omega)
      have hqueue := inv.mem_queue hget (.inr (by omega))
      rw [setEventsId_eq_ok (inv.isHistory.ids _ _ hget) hqueue]
      congr 1
      apply Db.updateContexts_congr
      intro c hc hcn
      rw [Context.squashFork, hsame c hc hcn, Context.forkToSquash, hnext, Option.filter_some,
        if_pos (by simpa using hbetween)]
      rfl

theorem updateIrreversible_eventsId (h : Hafd) (c : Context ρ) :
    (c.updateIrreversible h).eventsId = c.eventsId := by
  rw [Context.updateIrreversible]
  cases c.newIrreversible h <;> rfl

theorem squashEvents_eq (hl : Lockstep g db lead) (inv : EventsInv db.toHafd history lo chain)
    (hg : ∀ c ∈ db.contexts, Grounded db.toHafd history lo c) :
    squashEvents g db = .ok (db.updateContexts g (Context.squash db.toHafd)) := by
  have hid : ∀ c ∈ db.contexts, c.name ∈ g → c.eventsId = lead.eventsId :=
    fun c hc hcn ↦ (position_eq.mp (hl.together c hc hcn)).2.2.1
  rw [squashEvents, hl.isLead]
  dsimp only
  split
  · rename_i hzero
    rw [Db.updateContexts_eq_self]
    intro c hc hcn
    rw [Context.squash, if_pos ((hid c hc hcn).trans hzero)]
  · rename_i hzero
    have hl' := hl.update (movesByPosition_updateIrreversible (h := db.toHafd))
    have hkept : lo ≤ (lead.updateIrreversible db.toHafd).eventsId := by
      rw [updateIrreversible_eventsId]
      exact ((hg lead (Db.leadContext_mem hl.isLead).1).refersTo.kept).resolve_left hzero
    rw [updateIrreversible_eq hl fun c hc ↦ (hg c hc).irr_le]
    dsimp only [bind, Except.bind]
    rw [squashEndMassiveSyncEvents_eq hl', updateIrreversible_eventsId, Db.updateContexts_toHafd]
    have hsquash : ∀ c ∈ db.contexts, c.name ∈ g → c.squash db.toHafd =
        (db.nextMassiveSyncEvent lead.eventsId).elim
          ((c.updateIrreversible db.toHafd).squashFork db.toHafd)
          ((c.updateIrreversible db.toHafd).squashMassiveSync db.toHafd) := by
      intro c hc hcn
      rw [Context.squash, hid c hc hcn, if_neg hzero]
    rw [Db.updateContexts_congr hsquash]
    cases db.nextMassiveSyncEvent lead.eventsId with
    | none =>
      dsimp only [Option.elim_none]
      rw [if_neg Bool.false_ne_true, squashForkEvents_eq hl' inv hkept,
        Db.updateContexts_updateContexts movesByPosition_updateIrreversible.name]
      rfl
    | some heq =>
      dsimp only [Option.elim_some]
      rw [if_pos rfl, Db.updateContexts_updateContexts movesByPosition_updateIrreversible.name]
      rfl

theorem mem_pickNextEvent {c : Context ρ} {m : ℕ}
    (he : pickNextEvent h c m = some e) : e ∈ h.eventsQueue := by
  rw [pickNextEvent] at he
  split at he
  · split at he
    · rename_i hfirst
      cases he
      exact List.mem_of_mem_filter (List.argmin_mem hfirst)
    · split at he
      · rename_i hfirst
        split at he
        · cases he
        · cases he
          exact List.mem_of_mem_filter (List.argmin_mem hfirst)
      · cases he
  · exact List.mem_of_mem_filter (List.argmin_mem he)

theorem exists_lastEvent (inv : EventsInv h history lo chain) :
    ∃ e, lastEvent h.eventsQueue = some e := by
  cases hlast : lastEvent h.eventsQueue with
  | none =>
    have hmem := inv.mem_queue inv.isHistory.getElem?_zero (.inl rfl)
    rw [List.argmax_eq_none.mp hlast] at hmem
    exact absurd hmem (by simp)
  | some e => exact ⟨e, rfl⟩

theorem findNextEvent_eq (hl : Lockstep g db lead) (inv : EventsInv db.toHafd history lo chain) :
    findNextEvent g db = .ok (db.updateContexts g (Context.findNext db.toHafd),
      lead.nextEvent db.toHafd) := by
  obtain ⟨last, hlast⟩ := exists_lastEvent inv
  have hpick : lead.nextEvent db.toHafd = pickNextEvent db.toHafd lead last.id := by
    rw [Context.nextEvent, hlast, Option.bind_some]
  have hforked : HiveForkManager.takeOverFork g lead db =
      db.updateContexts g (fun c ↦ { c with forkId := c.nextForkId db.toHafd }) := by
    rw [HiveForkManager.takeOverFork]
    split <;> rename_i hon
    · apply Db.updateContexts_congr
      intro c hc hcn
      obtain ⟨h₁, h₂, -, h₄, -⟩ := position_eq.mp (hl.together c hc hcn)
      have hon' : onIrreversible db.toHafd c := by rwa [onIrreversible, h₁, h₂]
      rw [Context.nextForkId, if_pos hon', h₄]
    · symm
      apply Db.updateContexts_eq_self
      intro c hc hcn
      obtain ⟨h₁, h₂, -⟩ := position_eq.mp (hl.together c hc hcn)
      have hon' : ¬ onIrreversible db.toHafd c := by rwa [onIrreversible, h₁, h₂]
      rw [Context.nextForkId, if_neg hon']
  have hfind : ∀ c ∈ db.contexts, c.name ∈ g → c.findNext db.toHafd =
      { c with
        forkId := c.nextForkId db.toHafd
        eventsId := ((lead.nextEvent db.toHafd).map Event.id).getD c.eventsId } := by
    intro c hc hcn
    rw [Context.findNext, nextEvent_congr (hl.together c hc hcn)]
  rw [findNextEvent, hl.isLead]
  dsimp only
  rw [hlast, Db.updateContexts_congr hfind, hforked, hpick]
  dsimp only
  cases hnext : pickNextEvent db.toHafd lead last.id with
  | none => rfl
  | some heq =>
    dsimp only
    rw [setEventsId_eq_ok (e := heq) rfl, Db.updateContexts_updateContexts]
    · rfl
    · exact fun _ ↦ rfl
    · exact mem_pickNextEvent hnext

theorem squashAndGetState_eq (hl : Lockstep g db lead) (inv : EventsInv db.toHafd history lo chain)
    (hg : ∀ c ∈ db.contexts, Grounded db.toHafd history lo c) :
    squashAndGetState g db =
      .ok (db.updateContexts g (fun c ↦ (c.squash db.toHafd).findNext db.toHafd),
        (lead.squash db.toHafd).state db.toHafd) := by
  have hl' := hl.update (movesByPosition_squash (h := db.toHafd))
  rw [squashAndGetState, squashEvents_eq hl inv hg]
  dsimp only [bind, Except.bind]
  rw [hl'.isLead]
  dsimp only
  rw [findNextEvent_eq hl' inv, Db.updateContexts_updateContexts movesByPosition_squash.name]
  rfl

theorem processForContexts_eq {process : Context ρ → Except Error (Context ρ × Option BlocksRange)}
    {next : Context ρ → Context ρ} {range : Option BlocksRange} (hnodup : g.Nodup)
    (hlead : db.leadContext g = some lead) (hname : ∀ c, (next c).name = c.name)
    (hprocess : ∀ c ∈ db.contexts, c.name ∈ g → process c = .ok (next c, range)) :
    processForContexts g process db = .ok (db.updateContexts g next, range) := by
  have heach : db.forEachContext g (fun c ↦ Prod.fst <$> process c) =
      .ok (db.updateContexts g next) := by
    refine Db.forEachContext_eq hnodup hname fun c hc hcn ↦ ?_
    rw [hprocess c hc hcn]
    rfl
  obtain ⟨hmem, hcn⟩ := Db.leadContext_mem hlead
  rw [processForContexts, heach, hlead]
  dsimp only [bind, Except.bind]
  rw [hprocess lead hmem hcn]
  rfl

theorem appNextBlockForkingApp_eq (hl : Lockstep g db lead)
    (inv : EventsInv db.toHafd history lo chain)
    (hg : ∀ c ∈ db.contexts, Grounded db.toHafd history lo c) {limit : Option ℕ} {d : Context ρ}
    {range : Option BlocksRange} (hok : lead.nextBlock db.toHafd limit = .ok (d, range)) :
    appNextBlockForkingApp g limit db =
      .ok (db.updateContexts g (fun c ↦ c.advance db.toHafd limit), BlocksRange.toResult range) := by
  let h := db.toHafd
  let process := appProcessEvent (ρ := ρ) h ((lead.squash h).state h) limit
  let found (c : Context ρ) : Context ρ := (c.squash h).findNext h
  have hfound : MovesByPosition found :=
    movesByPosition_comp movesByPosition_squash movesByPosition_findNext
  have hname : ∀ c, ((process c).toOption.elim c Prod.fst).name = c.name := by
    intro c
    cases hp : process c with
    | error e => rfl
    | ok x => exact congrArg Settings.name (processed_of_eq_ok hp).settings
  have hprocess : ∀ c' ∈ (db.updateContexts g found).contexts, c'.name ∈ g →
      process c' = .ok ((process c').toOption.elim c' Prod.fst, range) := by
    intro c' hc' hcn
    have hpos := (hl.update hfound).together c' hc' hcn
    obtain ⟨d', hd', -⟩ := appProcessEvent_congr hpos.symm hok
    have hd' : process c' = .ok (d', range) := hd'
    rw [hd']
    rfl
  have hadvance : ∀ c ∈ db.contexts, c.name ∈ g →
      (process (found c)).toOption.elim (found c) Prod.fst = c.advance h limit := by
    intro c hc hcn
    obtain ⟨d', hd', -⟩ := nextBlock_congr (hl.together c hc hcn).symm hok
    have hstate : (lead.squash h).state h = (c.squash h).state h :=
      state_congr (movesByPosition_squash.position _ _ (hl.together c hc hcn).symm)
    have hp : process (found c) = c.nextBlock h limit := by
      simp only [process, found, hstate, Context.nextBlock]
    rw [advance_of_ok hd', hp, hd']
    rfl
  rw [appNextBlockForkingApp, squashAndGetState_eq hl inv hg]
  dsimp only [bind, Except.bind]
  have hgroup := processForContexts_eq hl.nodup (hl.update hfound).isLead hname hprocess
  rw [Db.updateContexts_updateContexts hfound.name, Db.updateContexts_congr hadvance] at hgroup
  rw [Db.updateContexts_toHafd, hgroup]
  rfl

end Refinement

end HiveForkManager
