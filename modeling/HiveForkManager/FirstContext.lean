import HiveForkManager.CallFrame
import HiveForkManager.GroupLockstep
import HiveForkManager.Outcome

namespace HiveForkManager

open ExceptList

variable {ρ : Type} {h : Hafd} {db db' : Db ρ} {contexts : List ContextName} {limit : Option ℕ}

section Lead

variable {R : Context ρ → Context ρ → Prop}

theorem Db.Related.leadContext (hrel : db.Related R db')
    (hname : ∀ c c', R c c' → c'.name = c.name) :
    Option.Rel R (db.leadContext contexts) (db'.leadContext contexts) := by
  cases contexts with
  | nil => exact .none
  | cons name contexts =>
    unfold Db.Related at hrel
    simp only [Db.leadContext, List.head?_cons, Option.bind_some, Db.context?]
    generalize db.contexts = cs, db'.contexts = cs' at hrel
    induction hrel with
    | nil => exact .none
    | @cons c c' _ _ hc _ ih =>
      rw [List.find?_cons, List.find?_cons, hname c c' hc]
      split
      · exact .some hc
      · exact ih

theorem Db.Related.exists_leadContext (hrel : db.Related R db')
    (hname : ∀ c c', R c c' → c'.name = c.name) {c : Context ρ}
    (hlead : db.leadContext contexts = some c) :
    ∃ c', db'.leadContext contexts = some c' ∧ R c c' := by
  have hleads : Option.Rel R (db.leadContext contexts) (db'.leadContext contexts) :=
    hrel.leadContext hname
  rw [hlead] at hleads
  cases hl : db'.leadContext contexts with
  | none => rw [hl] at hleads; cases hleads
  | some c' =>
    rw [hl] at hleads
    cases hleads with
    | some hR => exact ⟨c', rfl, hR⟩

theorem Db.leadContext_update {f : Context ρ → Context ρ} {c : Context ρ}
    (hf : ∀ c, (f c).name = c.name) (hlead : db.leadContext contexts = some c) :
    (db.updateContexts contexts f).leadContext contexts = some (f c) := by
  rw [Db.leadContext_updateContexts hf, hlead]
  rfl

end Lead

structure Calm (c c' : Context ρ) : Prop extends Kept c c' where
  currentBlockNum : c.currentBlockNum ≤ c.irreversibleBlock → c'.currentBlockNum = c.currentBlockNum

theorem Calm.refl (c : Context ρ) : Calm c c := ⟨.refl c, fun _ ↦ rfl⟩

theorem Calm.trans (c c' c'' : Context ρ) (h₁ : Calm c c') (h₂ : Calm c' c'') : Calm c c'' where
  toKept := h₁.toKept.trans _ _ _ h₂.toKept
  currentBlockNum hle := by
    have hcur := h₁.currentBlockNum hle
    have hle' := h₁.irreversibleBlock
    rw [h₂.currentBlockNum (by omega), hcur]

section Squash

variable {c : Context ρ}

theorem updateIrreversible_lead (hlead : db.leadContext contexts = some c)
    (hok : updateIrreversible contexts db = .ok db') :
    ∃ c', db'.leadContext contexts = some c' ∧ Kept c c' ∧
      c'.currentBlockNum = c.currentBlockNum := by
  rcases updateIrreversible_eq_ok hok with rfl | ⟨n, hok, -⟩
  · exact ⟨c, hlead, .refl c, rfl⟩
  · have hrel := Db.MovesWithin.related_forEach Kept.refl Kept.trans
      (fun _ _ ↦ contextSetIrreversibleBlock_standing) (fun _ ↦ rfl)
      (fun _ _ ↦ contextSetIrreversibleBlock_keeps) hok
    obtain ⟨c', hlead', hmoved, hkept⟩ := hrel.exists_leadContext (fun _ _ hc ↦ hc.1.name) hlead
    have hstanding := hmoved.standing (Db.leadContext_name_mem hlead).2
    exact ⟨c', hlead', hkept, congrArg (fun s ↦ s.key.currentBlockNum) hstanding⟩

theorem squashEndMassiveSyncEvents_lead {squashed : Bool} (hlead : db.leadContext contexts = some c)
    (hok : squashEndMassiveSyncEvents contexts db = .ok (db', squashed)) :
    ∃ c', db'.leadContext contexts = some c' ∧ Calm c c' ∧
      c'.currentBlockNum ≤ c.currentBlockNum := by
  rw [squashEndMassiveSyncEvents, hlead] at hok
  dsimp only at hok
  split at hok
  · cases hok
    exact ⟨c, hlead, .refl c, le_rfl⟩
  · cases hok
    have hback := contextBackFromFork_standing (h := db.toHafd) c.irreversibleBlock c
    have hcur : (contextBackFromFork db.toHafd c.irreversibleBlock c).currentBlockNum =
        min c.currentBlockNum c.irreversibleBlock :=
      congrArg (fun s ↦ s.key.currentBlockNum) hback.2
    have hkept := contextBackFromFork_keeps (h := db.toHafd) c.irreversibleBlock c
    split
    · have hback' := Db.leadContext_update (f := contextBackFromFork db.toHafd c.irreversibleBlock)
        (fun c' ↦ (contextBackFromFork_standing _ c').1) hlead
      refine ⟨_, Db.leadContext_update (fun _ ↦ rfl) hback',
        ⟨⟨hkept.loop, hkept.irreversibleBlock⟩, fun hle ↦ ?_⟩, ?_⟩
      · exact hcur.trans (min_eq_left hle)
      · exact hcur.trans_le (min_le_left _ _)
    · exact ⟨_, Db.leadContext_update (fun _ ↦ rfl) hlead, ⟨⟨rfl, le_rfl⟩, fun _ ↦ rfl⟩, le_rfl⟩

theorem setEventsId_lead {i : ℕ} (hlead : db.leadContext contexts = some c)
    (hok : db.setEventsId contexts i = .ok db') :
    db'.leadContext contexts = some { c with eventsId := i } := by
  rw [Db.setEventsId] at hok
  split at hok
  · cases hok
    exact Db.leadContext_update (fun _ ↦ rfl) hlead
  · cases hok

theorem squashForkEvents_lead (hlead : db.leadContext contexts = some c)
    (hok : squashForkEvents contexts db = .ok db') :
    ∃ c', db'.leadContext contexts = some c' ∧ Calm c c' ∧
      c'.currentBlockNum ≤ c.currentBlockNum := by
  rw [squashForkEvents, hlead] at hok
  dsimp only at hok
  split at hok
  · cases hok
    exact ⟨c, hlead, .refl c, le_rfl⟩
  · split at hok
    · cases hok
      exact ⟨c, hlead, .refl c, le_rfl⟩
    · exact ⟨_, setEventsId_lead hlead hok, ⟨⟨rfl, le_rfl⟩, fun _ ↦ rfl⟩, le_rfl⟩

theorem squashEvents_lead (hlead : db.leadContext contexts = some c)
    (hok : squashEvents contexts db = .ok db') :
    ∃ c', db'.leadContext contexts = some c' ∧ Calm c c' ∧
      c'.currentBlockNum ≤ c.currentBlockNum := by
  rw [squashEvents, hlead] at hok
  dsimp only at hok
  split at hok
  · cases hok
    exact ⟨c, hlead, .refl c, le_rfl⟩
  · obtain ⟨db₁, h₁, hok⟩ := bind_eq_ok.mp hok
    obtain ⟨⟨db₂, squashed⟩, h₂, hok⟩ := bind_eq_ok.mp hok
    obtain ⟨c₁, hlead₁, hkept₁, hcur₁⟩ := updateIrreversible_lead hlead h₁
    obtain ⟨c₂, hlead₂, hcalm₂, hle₂⟩ := squashEndMassiveSyncEvents_lead hlead₁ h₂
    have hcalm : Calm c c₂ := Calm.trans _ _ _ ⟨hkept₁, fun _ ↦ hcur₁⟩ hcalm₂
    dsimp only at hok
    split at hok
    · cases hok
      exact ⟨c₂, hlead₂, hcalm, hle₂.trans hcur₁.le⟩
    · obtain ⟨c₃, hlead₃, hcalm₃, hle₃⟩ := squashForkEvents_lead hlead₂ hok
      exact ⟨c₃, hlead₃, hcalm.trans _ _ _ hcalm₃, hle₃.trans (hle₂.trans hcur₁.le)⟩

theorem pickNextEvent_ne_backFromFork (hon : onIrreversible h c) {maxEventId : ℕ} {e : Event}
    (he : pickNextEvent h c maxEventId = some e) : e.event ≠ .backFromFork := by
  rw [pickNextEvent, if_pos hon] at he
  split at he
  case h_1 e' hfirst =>
    cases he
    have hmem := List.argmin_mem hfirst
    exact (of_decide_eq_true (List.mem_filter.mp hmem).2).2.1
  case h_2 =>
    split at he
    case h_1 e' hfirst =>
      split at he
      · cases he
      · cases he
        have hmem := List.argmin_mem hfirst
        rcases (of_decide_eq_true (List.mem_filter.mp hmem).2).2.1 with htype | htype
        · rw [htype]
          decide
        · rw [htype]
          decide
    case h_2 => cases he

theorem findNextEvent_lead {event : Option Event} (hlead : db.leadContext contexts = some c)
    (hok : findNextEvent contexts db = .ok (db', event)) :
    (∃ c', db'.leadContext contexts = some c' ∧ c'.loop = c.loop ∧
      c'.currentBlockNum = c.currentBlockNum ∧ c'.irreversibleBlock = c.irreversibleBlock) ∧
      (onIrreversible db.toHafd c → ∀ e ∈ event, e.event ≠ .backFromFork) := by
  have hforked : ∃ f, (takeOverFork contexts c db).leadContext contexts =
      some { c with forkId := f } := by
    rw [takeOverFork]
    split
    · exact ⟨_, Db.leadContext_update (fun _ ↦ rfl) hlead⟩
    · exact ⟨c.forkId, hlead⟩
  obtain ⟨f, hforked⟩ := hforked
  rw [findNextEvent, hlead] at hok
  dsimp only at hok
  split at hok
  · cases hok
  · split at hok
    · cases hok
      exact ⟨⟨_, hforked, rfl, rfl, rfl⟩, fun _ e he ↦ by cases he⟩
    case h_2 e he =>
      obtain ⟨moved, hmoved, hok⟩ := bind_eq_ok.mp hok
      cases hok
      refine ⟨⟨_, setEventsId_lead hforked hmoved, rfl, rfl, rfl⟩, ?_⟩
      rintro hon e' ⟨⟩
      exact pickNextEvent_ne_backFromFork hon he

end Squash

section Ask

variable {chain : List BlockData} {stored : List (Reversible BlockData)} {R : ℕ → Prop}
  {names : List ContextName} {c : Context ρ}

/-- What a call of `hive.app_next_block` does to the first context, which stands at block `start`
after the events were squashed. -/
structure Asked (limit : Option ℕ) (start : ℕ) (c c' : Context ρ) (range : Option BlocksRange) :
    Prop extends Kept c c' where
  start_le : start ≤ c.currentBlockNum
  start_eq : c.currentBlockNum ≤ c.irreversibleBlock → start = c.currentBlockNum
  nothing : range = none → 0 < c.irreversibleBlock → c.currentBlockNum ≤ c.irreversibleBlock →
    c'.currentBlockNum = c.currentBlockNum
  first : ∀ r ∈ range, r.firstBlock = (start + 1 : ℕ) ∧ c'.currentBlockNum = start + 1 ∧
    (r.lastBlock = r.firstBlock ∨ ∃ n : ℕ, r.lastBlock = n ∧ start < n ∧ n ≤ c'.irreversibleBlock) ∧
    ∀ l ∈ limit, start + 1 ≤ l

/-- The first context after an event is processed, as far as its standing goes. -/
structure Processes (limit : Option ℕ) (state : ContextState) (s s' : Standing)
    (range : Option BlocksRange) : Prop where
  nothing : BlocksRange.toResult range = none →
    (∀ e ∈ state.nextEvent, e.event ≠ .backFromFork) →
      s'.key.currentBlockNum = s.key.currentBlockNum
  first : ∀ r ∈ BlocksRange.toResult range, r.firstBlock = (state.currentBlockNum + 1 : ℕ) ∧
    s'.key.currentBlockNum = state.currentBlockNum + 1 ∧
    (r.lastBlock = r.firstBlock ∨ ∃ n : ℕ, r.lastBlock = n ∧ state.currentBlockNum < n ∧
      n ≤ s'.irreversibleBlock) ∧ ∀ l ∈ limit, state.currentBlockNum + 1 ≤ l

theorem leastLimit_le_limit (n : ℕ) : ∀ l ∈ limit, leastLimit n limit ≤ l := by
  rintro l ⟨⟩
  exact Nat.min_le_right _ _

variable {state : ContextState} {c' : Context ρ} {range : Option BlocksRange}

theorem processIrreversibleRange_processes (storage : StorageInv h chain stored) {n : ℕ}
    (hn : n ≤ h.irreversibleHead) (hirr : n ≤ c.irreversibleBlock)
    (hr : processIrreversibleRange h state.currentBlockNum (leastLimit n limit) c = (c', range)) :
    Processes limit state c.standing c'.standing range := by
  have hle : leastLimit n limit ≤ h.headOfBlocks :=
    (leastLimit_le n limit).trans (hn.trans storage.head_le)
  rw [processIrreversibleRange_eq storage hle] at hr
  split at hr
  case isTrue hlt =>
    cases hr
    refine ⟨fun hnone ↦ ?_, fun r hr ↦ ?_⟩
    · simp [BlocksRange.toResult, Option.filter] at hnone
      omega
    · obtain rfl := Option.some.inj (Option.filter_eq_some_iff.mp hr).1
      refine ⟨rfl, rfl, Or.inr ⟨_, rfl, hlt, ?_⟩, fun l hl ↦ ?_⟩
      · exact (leastLimit_le n limit).trans hirr
      · exact hlt.trans_le (leastLimit_le_limit n l hl)
  case isFalse =>
    cases hr
    exact ⟨fun _ _ ↦ rfl, fun r hr ↦ by cases hr⟩

theorem appProcessEvent_processes (storage : StorageInv h chain stored)
    (hirr : c.irreversibleBlock ≤ h.irreversibleHead)
    (hok : appProcessEvent h state limit c = .ok (c', range)) :
    Processes limit state c.standing c'.standing range := by
  cases processed_of_eq_ok hok with
  | forked hev hfork => exact ⟨fun _ hne ↦ absurd rfl (hne _ hev), fun r hr ↦ by cases hr⟩
  | refused hev hnum hlimit => exact ⟨fun _ _ ↦ rfl, fun r hr ↦ by cases hr⟩
  | @newBlock id num hev hnum hlimit =>
    subst hnum
    refine ⟨fun hnone ↦ ?_, fun r hr ↦ ?_⟩
    · simp [BlocksRange.toResult, Option.filter] at hnone
    · obtain rfl := Option.some.inj (Option.filter_eq_some_iff.mp hr).1
      refine ⟨rfl, rfl, Or.inl rfl, ?_⟩
      rintro l ⟨⟩
      exact not_lt.mp (of_decide_eq_false hlimit)
  | @overtaken id num head hcons hev c₁ _ _ hset hrange =>
    obtain ⟨-, hset⟩ := contextSetIrreversibleBlock_standing hset
    have hhead : c₁.irreversibleBlock = head := congrArg Standing.irreversibleBlock hset
    have hle : c₁.irreversibleBlock ≤ h.irreversibleHead := by
      rw [hhead, Hafd.irreversibleHead, show h.hiveState.consistentBlock = some head from hcons]
      rfl
    obtain ⟨hnothing, hfirst⟩ := processIrreversibleRange_processes storage hle le_rfl hrange
    refine ⟨fun hnone hne ↦ (hnothing hnone hne).trans ?_, hfirst⟩
    rw [hset]
    rfl
  | irreversible hev hrange => exact processIrreversibleRange_processes storage hirr le_rfl hrange

theorem processForContexts_lead {move : Standing → Standing}
    {process : Context ρ → Except Error (Context ρ × Option BlocksRange)}
    (hprocess : ∀ c c' range, process c = .ok (c', range) → c'.name = c.name ∧
      c'.standing = move c.standing ∧ Kept c c' ∧
        ∀ r ∈ BlocksRange.toResult range, r.firstBlock = c'.currentBlockNum)
    (hmove : ∀ s, move (move s) = move s) (hlead : db.leadContext contexts = some c)
    (hok : processForContexts contexts process db = .ok (db', range)) :
    ∃ c' d, db'.leadContext contexts = some d ∧ process c = .ok (c', range) ∧
      d.standing = c'.standing ∧ Kept c d := by
  obtain ⟨db₁, h₁, hok⟩ := bind_eq_ok.mp hok
  rw [hlead] at hok
  obtain ⟨⟨c', range'⟩, hp, hok⟩ := bind_eq_ok.mp hok
  cases hok
  have hrel := Db.MovesWithin.related_forEach Kept.refl Kept.trans
    (fun c c' hc ↦ by
      obtain ⟨range, hc⟩ := ok_of_map_fst_eq_ok hc
      exact ⟨(hprocess c c' range hc).1, (hprocess c c' range hc).2.1⟩) hmove
    (fun c c' hc ↦ by
      obtain ⟨range, hc⟩ := ok_of_map_fst_eq_ok hc
      exact (hprocess c c' range hc).2.2.1) h₁
  obtain ⟨d, hlead', hmoved, hkept⟩ := hrel.exists_leadContext (fun _ _ hc ↦ hc.1.name) hlead
  refine ⟨c', d, hlead', hp, ?_, hkept⟩
  rw [hmoved.standing (Db.leadContext_name_mem hlead).2, (hprocess _ _ _ hp).2.1]

theorem onIrreversible_of_pos (hpos : 0 < c.irreversibleBlock)
    (hirr : c.irreversibleBlock ≤ h.irreversibleHead)
    (hcur : c.currentBlockNum ≤ c.irreversibleBlock) : onIrreversible h c := by
  refine ⟨hcur, fun hnone ↦ ?_⟩
  rw [Hafd.irreversibleHead, show h.hiveState.consistentBlock = none from hnone] at hirr
  exact absurd (hpos.trans_le hirr) (lt_irrefl 0)

variable (frame : EventFrame h R)

include frame in
theorem squashAndGetState_lead (hkept : AppKept h (Placed h R) names db)
    (hlead : db.leadContext contexts = some c)
    (hok : squashAndGetState contexts db = .ok (db', state)) :
    ∃ squashed c₁ c₂, squashEvents contexts db = .ok squashed ∧
      squashed.leadContext contexts = some c₁ ∧ Calm c c₁ ∧ c₁.currentBlockNum ≤ c.currentBlockNum ∧
      db'.leadContext contexts = some c₂ ∧ Kept c c₂ ∧
      c₂.currentBlockNum = c₁.currentBlockNum ∧ c₂.irreversibleBlock = c₁.irreversibleBlock ∧
      state.currentBlockNum = c₁.currentBlockNum ∧
      state.irreversibleBlockNum = c₁.irreversibleBlock ∧
      (onIrreversible h c₁ → ∀ e ∈ state.nextEvent, e.event ≠ .backFromFork) := by
  obtain ⟨squashed, h₁, hok⟩ := bind_eq_ok.mp hok
  obtain ⟨c₁, hlead₁, hcalm, hle⟩ := squashEvents_lead hlead h₁
  rw [hlead₁] at hok
  obtain ⟨⟨db₂, event⟩, h₂, hok⟩ := bind_eq_ok.mp hok
  cases hok
  obtain ⟨⟨c₂, hlead₂, hloop, hcur, hirr⟩, hevent⟩ := findNextEvent_lead hlead₁ h₂
  rw [(squashEvents_kept frame hkept h₁).toHafd] at hevent
  have hkept₂ : Kept c c₂ := ⟨hloop.trans hcalm.loop, hirr ▸ hcalm.irreversibleBlock⟩
  exact ⟨squashed, c₁, c₂, h₁, hlead₁, hcalm, hle, hlead₂, hkept₂, hcur, hirr, rfl, rfl, hevent⟩

theorem asked_of_processes {c₁ c₂ d : Context ρ} (hplaced : Placed h R c₁) (hcalm : Calm c c₁)
    (hle : c₁.currentBlockNum ≤ c.currentBlockNum) (hkept : Kept c c₂)
    (hcur : c₂.currentBlockNum = c₁.currentBlockNum)
    (hstate : state.currentBlockNum = c₁.currentBlockNum)
    (hevent : onIrreversible h c₁ → ∀ e ∈ state.nextEvent, e.event ≠ .backFromFork)
    (hprocess : Processes limit state c₂.standing c'.standing range)
    (hd : d.standing = c'.standing) (hkept' : Kept c₂ d) :
    Asked limit c₁.currentBlockNum c d (BlocksRange.toResult range) where
  toKept := hkept.trans _ _ _ hkept'
  start_le := hle
  start_eq := hcalm.currentBlockNum
  nothing hnone hpos hirr := by
    have hcur₁ := hcalm.currentBlockNum hirr
    have hirr₁ := hcalm.irreversibleBlock
    have hon : onIrreversible h c₁ :=
      onIrreversible_of_pos (by omega) hplaced.irr_le (by omega)
    have hstays := hprocess.nothing hnone (hevent hon)
    rw [← hd] at hstays
    exact hstays.trans (hcur.trans hcur₁)
  first r hr := by
    obtain ⟨hfirst, hmoved, hlast, hlimit⟩ := hprocess.first r hr
    rw [← hd] at hmoved hlast
    rw [hstate] at hfirst hmoved hlast hlimit
    exact ⟨hfirst, hmoved, hlast, hlimit⟩

variable (storage : StorageInv h chain stored)

def squashedBlock (contexts : List ContextName) (db : Db ρ) : Option ℕ :=
  ((squashEvents contexts db).toOption.bind (fun squashed ↦ squashed.leadContext contexts)).map
    Context.currentBlockNum

theorem squashedBlock_eq {squashed : Db ρ} {c₁ : Context ρ}
    (hok : squashEvents contexts db = .ok squashed)
    (hlead : squashed.leadContext contexts = some c₁) :
    squashedBlock contexts db = some c₁.currentBlockNum := by
  rw [squashedBlock, hok]
  exact congrArg (Option.map Context.currentBlockNum) hlead

include frame storage

theorem appNextBlockForkingApp_asked
    (hkept : AppKept h (Placed h R) names db) (hlead : db.leadContext contexts = some c)
    (hok : appNextBlockForkingApp contexts limit db = .ok (db', range)) :
    ∃ c' start, db'.leadContext contexts = some c' ∧ squashedBlock contexts db = some start ∧
      Asked limit start c c' range := by
  obtain ⟨⟨db₁, state⟩, h₁, hok⟩ := bind_eq_ok.mp hok
  obtain ⟨⟨db₂, range₂⟩, h₂, hok⟩ := bind_eq_ok.mp hok
  cases hok
  obtain ⟨squashed, c₁, c₂, hs, hlead₁, hcalm, hle, hlead₂, hkept₂, hcur, hirr, hstate, -,
    hevent⟩ := squashAndGetState_lead frame hkept hlead h₁
  have hplaced := (squashEvents_kept frame hkept hs).contexts c₁ (Db.leadContext_name_mem hlead₁).1
  have hdb₁ : db₁.toHafd = h := (squashAndGetState_kept frame hkept h₁).toHafd
  rw [hdb₁] at h₂
  obtain ⟨c', d, hlead', hp, hd, hkept'⟩ := processForContexts_lead
    (fun _ _ _ ↦ appProcessEvent_standing) (Standing.processed_processed state) hlead₂ h₂
  have hprocess := appProcessEvent_processes storage (hirr ▸ hplaced.irr_le) hp
  exact ⟨d, _, hlead', squashedBlock_eq hs hlead₁,
    asked_of_processes hplaced hcalm hle hkept₂ hcur hstate hevent hprocess hd hkept'⟩

theorem appNextBlockNonForkingLoop_asked {wait : Bool} {n : ℕ} (hpruning : h.hiveState.pruning = 0)
    (hkept : AppKept h (Placed h R) names db) (hlead : db.leadContext contexts = some c)
    (hok : appNextBlockNonForkingLoop contexts wait limit (n + 1) db = .ok (db', range)) :
    ∃ c' start, db'.leadContext contexts = some c' ∧ squashedBlock contexts db = some start ∧
      Asked limit start c c' range := by
  obtain ⟨⟨db₁, state⟩, h₁, hok⟩ := bind_eq_ok.mp hok
  obtain ⟨⟨db₂, range₂⟩, h₂, hok⟩ := bind_eq_ok.mp hok
  obtain ⟨squashed, c₁, c₂, hs, hlead₁, hcalm, hle, hlead₂, hkept₂, hcur, hirr, hstate, hstate',
    hevent⟩ := squashAndGetState_lead frame hkept hlead h₁
  have hplaced := (squashEvents_kept frame hkept hs).contexts c₁ (Db.leadContext_name_mem hlead₁).1
  have hkept₁ := squashAndGetState_kept frame hkept h₁
  dsimp only at h₂ hok
  rw [hkept₁.toHafd] at h₂
  have hdb₂ : db₂.toHafd = h := (processForContexts_kept
    (fun _ _ _ _ hc ↦ processIrreversibleRange_kept (Except.ok.inj hc)) hkept₁ h₂).toHafd
  obtain ⟨c', d, hlead', hp, hd, hkept'⟩ := processForContexts_lead
    (fun c c' r hc ↦ processIrreversibleRange_standing (Except.ok.inj hc))
    (Standing.toRange_toRange _ _) hlead₂ h₂
  have hprocess := processIrreversibleRange_processes storage
    (hstate' ▸ hplaced.irr_le) (by rw [hstate', hirr]) (Except.ok.inj hp)
  have hasked := asked_of_processes hplaced hcalm hle hkept₂ hcur hstate hevent hprocess hd hkept'
  have hresult : (db', range) = (db₂, BlocksRange.toResult range₂) := by
    split at hok
    case h_1 r hr =>
      cases hok
      rw [hr]
    case h_2 hr =>
      rw [if_pos (by rw [hdb₂, hpruning]; simp)] at hok
      cases hok
      rw [hr]
  cases hresult
  exact ⟨d, _, hlead', squashedBlock_eq hs hlead₁, hasked⟩

theorem appNextBlock_asked {env : CallEnv} {wait : Bool} {blockLimit : Option ℕ}
    (hpruning : h.hiveState.pruning = 0)
    (hkept : AppKept h (Placed h R) names db) (hlead : db.leadContext contexts = some c)
    (hok : appNextBlock env contexts wait blockLimit db = .ok (db', range)) :
    ∃ c' start, db'.leadContext contexts = some c' ∧
      (range.isSome → squashedBlock contexts (db.updateContexts contexts
        (fun c ↦ { c with lastActiveAt := env.now })) = some start) ∧
      Asked (blockLimit <|> env.dependenciesBlockLimit) start c c' range := by
  obtain ⟨-, -, hok⟩ := bind_eq_ok.mp hok
  have hactive : AppKept h (Placed h R) names
      (db.updateContexts contexts (fun c ↦ { c with lastActiveAt := env.now })) :=
    hkept.updateContexts fun _ _ ↦ .of_eq rfl rfl rfl
  have hlead' : (db.updateContexts contexts
      (fun c ↦ { c with lastActiveAt := env.now })).leadContext contexts =
        some { c with lastActiveAt := env.now } :=
    Db.leadContext_update (fun _ ↦ rfl) hlead
  split at hok
  · cases hok
    refine ⟨_, c.currentBlockNum, hlead', nofun, ⟨⟨rfl, le_rfl⟩, le_rfl, fun _ ↦ rfl,
      fun _ _ _ ↦ rfl, nofun⟩⟩
  · obtain ⟨forking, -, hok⟩ := bind_eq_ok.mp hok
    obtain ⟨attached, -, hok⟩ := bind_eq_ok.mp hok
    split at hok
    · obtain ⟨c', start, hc', hstart, hasked⟩ :=
        appNextBlockForkingApp_asked frame storage hactive hlead' hok
      obtain ⟨⟨hloop, hirr⟩, hle, heq, hnothing, hfirst⟩ := hasked
      exact ⟨c', start, hc', fun _ ↦ hstart, ⟨hloop, hirr⟩, hle, heq, hnothing, hfirst⟩
    · obtain ⟨c', start, hc', hstart, hasked⟩ :=
        appNextBlockNonForkingLoop_asked frame storage hpruning hactive hlead' hok
      obtain ⟨⟨hloop, hirr⟩, hle, heq, hnothing, hfirst⟩ := hasked
      exact ⟨c', start, hc', fun _ ↦ hstart, ⟨hloop, hirr⟩, hle, heq, hnothing, hfirst⟩

end Ask

end HiveForkManager
