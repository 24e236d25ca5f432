import HiveForkManager.AppFrame

namespace HiveForkManager

open ExceptList

variable {ρ : Type} {h : Hafd} {db db' : Db ρ} {contexts : List ContextName}

def Db.Related (R : Context ρ → Context ρ → Prop) (db db' : Db ρ) : Prop :=
  List.Forall₂ R db.contexts db'.contexts

section Related

variable {R : Context ρ → Context ρ → Prop} (hrefl : ∀ c, R c c)
  (htrans : ∀ c c' c'', R c c' → R c' c'' → R c c'')

include hrefl in
theorem Db.Related.refl (db : Db ρ) : db.Related R db :=
  List.forall₂_same.mpr fun c _ ↦ hrefl c

omit hrefl htrans in
theorem Db.Related.comp {S T : Context ρ → Context ρ → Prop} {db'' : Db ρ}
    (hcomp : ∀ c c' c'', R c c' → S c' c'' → T c c'') (h₁ : db.Related R db')
    (h₂ : db'.Related S db'') : db.Related T db'' := by
  unfold Db.Related at *
  generalize db.contexts = cs, db'.contexts = cs', db''.contexts = cs'' at *
  induction h₁ generalizing cs'' with
  | nil =>
    cases h₂
    exact .nil
  | cons hc _ ih =>
    cases h₂ with
    | cons hc' hcs' => exact .cons (hcomp _ _ _ hc hc') (ih _ hcs')

include htrans in
theorem Db.Related.trans {db'' : Db ρ} (h₁ : db.Related R db') (h₂ : db'.Related R db'') :
    db.Related R db'' :=
  h₁.comp htrans h₂

include hrefl in
theorem Db.Related.updateContexts {f : Context ρ → Context ρ}
    (hf : ∀ c ∈ db.contexts, c.name ∈ contexts → R c (f c)) :
    db.Related R (db.updateContexts contexts f) := by
  refine List.forall₂_map_right_iff.mpr (List.forall₂_same.mpr fun c hc ↦ ?_)
  split
  · exact hf c hc ‹_›
  · exact hrefl c

include hrefl in
theorem Db.Related.withContext {f : Context ρ → Except Error (Context ρ)} {name : ContextName}
    (hf : ∀ c ∈ db.contexts, c.name = name → ∀ c', f c = .ok c' → R c c')
    (hok : db.withContext name f = .ok db') : db.Related R db' := by
  obtain ⟨cs, hcs, hok⟩ := bind_eq_ok.mp hok
  cases hok
  have hrel := forall₂_of_mapM_eq_ok hcs
  refine (List.forall₂_iff_get.mpr ⟨hrel.length_eq, fun i hi hi' ↦ ?_⟩)
  have hc := (List.forall₂_iff_get.mp hrel).2 i hi hi'
  split at hc
  case isTrue hname => exact hf _ (List.get_mem _ _) hname _ hc
  case isFalse =>
    rw [← Except.ok.inj hc]
    exact hrefl _

include hrefl htrans in
theorem Db.Related.forEachContext {f : Context ρ → Except Error (Context ρ)}
    (hf : ∀ c, c.name ∈ contexts → ∀ c', f c = .ok c' → R c c')
    (hok : db.forEachContext contexts f = .ok db') : db.Related R db' := by
  induction contexts generalizing db with
  | nil =>
    cases hok
    exact .refl hrefl _
  | cons name contexts ih =>
    rw [Db.forEachContext, List.foldlM_cons] at hok
    obtain ⟨db₁, h₁, hok⟩ := bind_eq_ok.mp hok
    exact (Db.Related.withContext hrefl
      (fun c _ hname ↦ hf c (hname ▸ List.mem_cons_self)) h₁).trans htrans
      (ih (fun c hc ↦ hf c (List.mem_cons_of_mem _ hc)) hok)

theorem Db.Related.imp {S : Context ρ → Context ρ → Prop} (hrel : db.Related R db')
    (hS : ∀ c ∈ db.contexts, ∀ c', R c c' → S c c') : db.Related S db' :=
  List.forall₂_iff_get.mpr ⟨List.Forall₂.length_eq hrel, fun i hi hi' ↦
    hS _ (List.get_mem _ _) _ ((List.forall₂_iff_get.mp hrel).2 i hi hi')⟩

theorem Db.Related.exists_of_mem (hrel : db.Related R db') {c' : Context ρ}
    (hc' : c' ∈ db'.contexts) : ∃ c ∈ db.contexts, R c c' := by
  obtain ⟨i, hi, rfl⟩ := List.mem_iff_getElem.mp hc'
  have hlen := List.Forall₂.length_eq hrel
  exact ⟨_, List.get_mem _ _, (List.forall₂_iff_get.mp hrel).2 i (hlen ▸ hi) hi⟩

end Related

theorem Db.forEachContext_toHafd {f : Context ρ → Except Error (Context ρ)}
    (hok : db.forEachContext contexts f = .ok db') : db'.toHafd = db.toHafd := by
  induction contexts generalizing db with
  | nil =>
    cases hok
    rfl
  | cons name contexts ih =>
    rw [Db.forEachContext, List.foldlM_cons] at hok
    obtain ⟨db₁, h₁, hok⟩ := bind_eq_ok.mp hok
    obtain ⟨cs, -, h₁⟩ := bind_eq_ok.mp h₁
    cases h₁
    have hrest : db'.toHafd = ({ db with contexts := cs } : Db ρ).toHafd := ih hok
    exact hrest

/-- What the check compares of a context, and the irreversible block of the context. -/
structure Standing where
  key : SyncKey
  irreversibleBlock : ℕ
  deriving DecidableEq, Repr

def Context.standing (c : Context ρ) : Standing := ⟨c.syncKey, c.irreversibleBlock⟩

namespace Standing

def movedTo (num : ℕ) (s : Standing) : Standing :=
  { s with key := { s.key with currentBlockNum := num } }

def confirmedTo (num : ℕ) (s : Standing) : Standing := { s with irreversibleBlock := num }

def ByKey (move : Standing → Standing) : Prop :=
  ∀ s s', s.key = s'.key → (move s).key = (move s').key

end Standing

/-- The function has moved the contexts of the group, and the other ones are as they were. -/
structure Moved (contexts : List ContextName) (move : Standing → Standing) (c c' : Context ρ) :
    Prop where
  name : c'.name = c.name
  standing : c.name ∈ contexts → c'.standing = move c.standing
  other : c.name ∉ contexts → c' = c

theorem Moved.refl (c : Context ρ) : Moved contexts id c c := ⟨rfl, fun _ ↦ rfl, fun _ ↦ rfl⟩

theorem Moved.trans {move₁ move₂ : Standing → Standing} {c c' c'' : Context ρ}
    (h₁ : Moved contexts move₁ c c') (h₂ : Moved contexts move₂ c' c'') :
    Moved contexts (move₂ ∘ move₁) c c'' where
  name := h₂.name.trans h₁.name
  standing hn := by rw [h₂.standing (h₁.name ▸ hn), h₁.standing hn, Function.comp_apply]
  other hn := (h₂.other (h₁.name ▸ hn)).trans (h₁.other hn)

/-- One function has moved all contexts of the group, each of them within `K`. -/
def Db.MovesWithin (K : Context ρ → Context ρ → Prop) (contexts : List ContextName)
    (db db' : Db ρ) : Prop :=
  ∃ move, db.Related (fun c c' ↦ Moved contexts move c c' ∧ K c c') db'

/-- The group has been moved by what the check compares, and no other table is written. -/
structure Db.MovesByKey (K : Context ρ → Context ρ → Prop) (contexts : List ContextName)
    (db db' : Db ρ) : Prop where
  moved : ∃ move, Standing.ByKey move ∧
    db.Related (fun c c' ↦ Moved contexts move c c' ∧ K c c') db'
  toHafd : db'.toHafd = db.toHafd

namespace Db.MovesWithin

variable {K : Context ρ → Context ρ → Prop} (hrefl : ∀ c, K c c)
  (htrans : ∀ c c' c'', K c c' → K c' c'' → K c c'')

include hrefl in
theorem refl (db : Db ρ) : db.MovesWithin K contexts db :=
  ⟨id, Db.Related.refl (fun c ↦ ⟨Moved.refl c, hrefl c⟩) db⟩

include htrans in
theorem trans {db'' : Db ρ} (h₁ : db.MovesWithin K contexts db')
    (h₂ : db'.MovesWithin K contexts db'') : db.MovesWithin K contexts db'' := by
  obtain ⟨move₁, h₁⟩ := h₁
  obtain ⟨move₂, h₂⟩ := h₂
  exact ⟨move₂ ∘ move₁, Db.Related.comp (fun _ _ _ hc hc' ↦
    ⟨hc.1.trans hc'.1, htrans _ _ _ hc.2 hc'.2⟩) h₁ h₂⟩

include hrefl in
theorem related_update {f : Context ρ → Context ρ} {move : Standing → Standing}
    (hf : ∀ c, (f c).name = c.name ∧ (f c).standing = move c.standing)
    (hK : ∀ c ∈ db.contexts, K c (f c)) :
    db.Related (fun c c' ↦ Moved contexts move c c' ∧ K c c') (db.updateContexts contexts f) := by
  refine List.forall₂_map_right_iff.mpr (List.forall₂_same.mpr fun c hc ↦ ?_)
  split
  case isTrue hn => exact ⟨⟨(hf c).1, fun _ ↦ (hf c).2, absurd hn⟩, hK c hc⟩
  case isFalse hn => exact ⟨⟨rfl, fun hn' ↦ absurd hn' hn, fun _ ↦ rfl⟩, hrefl c⟩

include hrefl in
theorem update {f : Context ρ → Context ρ} (move : Standing → Standing)
    (hf : ∀ c, (f c).name = c.name ∧ (f c).standing = move c.standing)
    (hK : ∀ c ∈ db.contexts, K c (f c)) :
    db.MovesWithin K contexts (db.updateContexts contexts f) :=
  ⟨move, related_update hrefl hf hK⟩

include hrefl htrans in
theorem related_forEach {f : Context ρ → Except Error (Context ρ)} {move : Standing → Standing}
    (hf : ∀ c c', f c = .ok c' → c'.name = c.name ∧ c'.standing = move c.standing)
    (hmove : ∀ s, move (move s) = move s) (hK : ∀ c c', f c = .ok c' → K c c')
    (hok : db.forEachContext contexts f = .ok db') :
    db.Related (fun c c' ↦ Moved contexts move c c' ∧ K c c') db' := by
  induction contexts generalizing db with
  | nil =>
    cases hok
    exact Db.Related.refl
      (fun c ↦ ⟨⟨rfl, fun hn ↦ absurd hn List.not_mem_nil, fun _ ↦ rfl⟩, hrefl c⟩) _
  | cons name contexts ih =>
    rw [Db.forEachContext, List.foldlM_cons] at hok
    obtain ⟨db₁, h₁, hok⟩ := bind_eq_ok.mp hok
    obtain ⟨cs, hcs, h₁⟩ := bind_eq_ok.mp h₁
    cases h₁
    have hfirst : db.Related (fun c c' ↦ Moved [name] move c c' ∧ K c c')
        { db with contexts := cs } := by
      refine (forall₂_of_mapM_eq_ok hcs).imp fun c c' hc ↦ ?_
      split at hc
      case isTrue heq =>
        exact ⟨⟨(hf c c' hc).1, fun _ ↦ (hf c c' hc).2, absurd (List.mem_singleton.mpr heq)⟩,
          hK c c' hc⟩
      case isFalse hne =>
        cases hc
        exact ⟨⟨rfl, fun hn ↦ absurd (List.mem_singleton.mp hn) hne, fun _ ↦ rfl⟩, hrefl c⟩
    refine Db.Related.comp (fun c c' c'' hc hc' ↦ ⟨⟨hc'.1.name.trans hc.1.name, fun hn ↦ ?_,
      fun hn ↦ ?_⟩, htrans _ _ _ hc.2 hc'.2⟩) hfirst (ih hok)
    · have hlater : c'.standing = move c.standing → c''.standing = move c.standing := by
        intro hs
        by_cases hagain : c'.name ∈ contexts
        · rw [hc'.1.standing hagain, hs, hmove]
        · rw [hc'.1.other hagain, hs]
      by_cases heq : c.name = name
      · exact hlater (hc.1.standing (List.mem_singleton.mpr heq))
      · have hsame := hc.1.other (mt List.mem_singleton.mp heq)
        have hin : c'.name ∈ contexts := hc.1.name ▸ (List.mem_cons.mp hn).resolve_left heq
        rw [hc'.1.standing hin, hsame]
    · rw [List.mem_cons, not_or] at hn
      exact (hc'.1.other (hc.1.name ▸ hn.2)).trans (hc.1.other (mt List.mem_singleton.mp hn.1))

theorem related (hmoves : db.MovesWithin K contexts db') : db.Related K db' := by
  obtain ⟨move, hmoves⟩ := hmoves
  exact hmoves.imp fun _ _ _ hc ↦ hc.2

end Db.MovesWithin

namespace Db.MovesByKey

variable {K : Context ρ → Context ρ → Prop} (hrefl : ∀ c, K c c)
  (htrans : ∀ c c' c'', K c c' → K c' c'' → K c c'')

theorem within (hmoves : db.MovesByKey K contexts db') : db.MovesWithin K contexts db' := by
  obtain ⟨⟨move, -, hmoved⟩, -⟩ := hmoves
  exact ⟨move, hmoved⟩

include hrefl in
theorem refl (db : Db ρ) : db.MovesByKey K contexts db :=
  ⟨⟨id, fun _ _ hkey ↦ hkey, Db.Related.refl (fun c ↦ ⟨Moved.refl c, hrefl c⟩) db⟩, rfl⟩

include htrans in
theorem trans {db'' : Db ρ} (h₁ : db.MovesByKey K contexts db')
    (h₂ : db'.MovesByKey K contexts db'') : db.MovesByKey K contexts db'' := by
  obtain ⟨move₁, hkey₁, hmoved₁⟩ := h₁.moved
  obtain ⟨move₂, hkey₂, hmoved₂⟩ := h₂.moved
  refine ⟨⟨move₂ ∘ move₁, fun s s' hkey ↦ hkey₂ _ _ (hkey₁ _ _ hkey), ?_⟩,
    h₂.toHafd.trans h₁.toHafd⟩
  exact Db.Related.comp (fun _ _ _ hc hc' ↦ ⟨hc.1.trans hc'.1, htrans _ _ _ hc.2 hc'.2⟩)
    hmoved₁ hmoved₂

include hrefl in
theorem update {f : Context ρ → Context ρ} {move : Standing → Standing}
    (hkey : Standing.ByKey move) (hf : ∀ c, (f c).name = c.name ∧ (f c).standing = move c.standing)
    (hK : ∀ c ∈ db.contexts, K c (f c)) :
    db.MovesByKey K contexts (db.updateContexts contexts f) := by
  exact ⟨⟨move, hkey, Db.MovesWithin.related_update hrefl hf hK⟩, rfl⟩

include hrefl htrans in
theorem forEach {f : Context ρ → Except Error (Context ρ)} {move : Standing → Standing}
    (hkey : Standing.ByKey move)
    (hf : ∀ c c', f c = .ok c' → c'.name = c.name ∧ c'.standing = move c.standing)
    (hmove : ∀ s, move (move s) = move s) (hK : ∀ c c', f c = .ok c' → K c c')
    (hok : db.forEachContext contexts f = .ok db') : db.MovesByKey K contexts db' :=
  ⟨⟨move, hkey, Db.MovesWithin.related_forEach hrefl htrans hf hmove hK hok⟩,
    Db.forEachContext_toHafd hok⟩

end Db.MovesByKey

section Functions

theorem contextBackFromFork_standing (b : ℕ) (c : Context ρ) :
    (contextBackFromFork h b c).name = c.name ∧ (contextBackFromFork h b c).standing =
      c.standing.movedTo (min c.currentBlockNum b) := by
  rw [contextBackFromFork, Context.backFromForkLite, Context.backFromFork]
  by_cases hlt : b < c.currentBlockNum
  · rw [if_pos hlt, if_pos hlt, min_eq_right hlt.le]
    split <;> exact ⟨rfl, rfl⟩
  · rw [if_neg hlt, if_neg hlt, ite_self, min_eq_left (not_lt.mp hlt)]
    exact ⟨rfl, rfl⟩

theorem contextSetIrreversibleBlock_standing {n : ℕ} {c c' : Context ρ}
    (hok : contextSetIrreversibleBlock n c = .ok c') :
    c'.name = c.name ∧ c'.standing = c.standing.confirmedTo n := by
  obtain ⟨-, rfl⟩ := contextSetIrreversibleBlock_eq_ok hok
  exact ⟨rfl, rfl⟩

/-- A rule for what a context goes through when it moves to the next event, in lite mode or not. -/
structure StepRule (liteMode : Bool) (K : Context ρ → Context ρ → Prop) : Prop where
  refl : ∀ c, K c c
  trans : ∀ c c' c'', K c c' → K c' c'' → K c c''
  eventsId : ∀ c i, K c { c with eventsId := i }
  forkId : ∀ c i, K c { c with forkId := i }
  backFromFork : ∀ h : Hafd, h.hiveState.liteMode = liteMode →
    ∀ b c, K c (contextBackFromFork h b c)
  setIrreversible : ∀ n c c', contextSetIrreversibleBlock n c = .ok c' → K c c'

variable {liteMode : Bool} {K : Context ρ → Context ρ → Prop} (hK : StepRule liteMode K)

theorem Standing.withEventsId_byKey (i : ℕ) :
    Standing.ByKey fun s ↦ { s with key := { s.key with eventsId := i } } :=
  fun _ _ hkey ↦ congrArg (fun key : SyncKey ↦ { key with eventsId := i }) hkey

theorem Standing.confirmedTo_byKey (n : ℕ) : Standing.ByKey (Standing.confirmedTo n) :=
  fun _ _ hkey ↦ hkey

theorem Standing.movedBack_byKey (b : ℕ) :
    Standing.ByKey fun s ↦ s.movedTo (min s.key.currentBlockNum b) :=
  fun _ _ hkey ↦ congrArg
    (fun key : SyncKey ↦ { key with currentBlockNum := min key.currentBlockNum b }) hkey

include hK

theorem setEventsId_within {i : ℕ} (hok : db.setEventsId contexts i = .ok db') :
    db.MovesByKey K contexts db' := by
  rw [Db.setEventsId] at hok
  split at hok
  · cases hok
    exact .update hK.refl (Standing.withEventsId_byKey i) (fun _ ↦ ⟨rfl, rfl⟩)
      fun c _ ↦ hK.eventsId c i
  · cases hok

theorem updateIrreversible_within (hok : updateIrreversible contexts db = .ok db') :
    db.MovesByKey K contexts db' := by
  rcases updateIrreversible_eq_ok hok with rfl | ⟨n, hok, -⟩
  · exact .refl hK.refl _
  · exact .forEach hK.refl hK.trans (Standing.confirmedTo_byKey n)
      (fun _ _ ↦ contextSetIrreversibleBlock_standing) (fun _ ↦ rfl) (hK.setIrreversible n) hok

theorem squashEndMassiveSyncEvents_within {squashed : Bool}
    (hlite : db.hiveState.liteMode = liteMode)
    (hok : squashEndMassiveSyncEvents contexts db = .ok (db', squashed)) :
    db.MovesByKey K contexts db' := by
  rw [squashEndMassiveSyncEvents] at hok
  split at hok
  · cases hok
    exact .refl hK.refl _
  · split at hok
    · cases hok
      exact .refl hK.refl _
    · cases hok
      refine Db.MovesByKey.trans hK.trans ?_
        (.update hK.refl (Standing.withEventsId_byKey _) (fun _ ↦ ⟨rfl, rfl⟩)
          fun c _ ↦ hK.eventsId c _)
      split
      · exact .update hK.refl (Standing.movedBack_byKey _) (contextBackFromFork_standing _)
          fun c _ ↦ hK.backFromFork _ hlite _ c
      · exact .refl hK.refl _

theorem squashForkEvents_within (hok : squashForkEvents contexts db = .ok db') :
    db.MovesByKey K contexts db' := by
  rw [squashForkEvents] at hok
  split at hok
  · cases hok
    exact .refl hK.refl _
  · split at hok
    · cases hok
      exact .refl hK.refl _
    · split at hok
      · cases hok
        exact .refl hK.refl _
      · exact setEventsId_within hK hok

theorem squashEvents_within (hlite : db.hiveState.liteMode = liteMode)
    (hok : squashEvents contexts db = .ok db') :
    db.MovesByKey K contexts db' := by
  rw [squashEvents] at hok
  split at hok
  · cases hok
    exact .refl hK.refl _
  · split at hok
    · cases hok
      exact .refl hK.refl _
    · obtain ⟨db₁, h₁, hok⟩ := bind_eq_ok.mp hok
      obtain ⟨⟨db₂, squashed⟩, h₂, hok⟩ := bind_eq_ok.mp hok
      have hlite₁ : db₁.hiveState.liteMode = liteMode := by
        rw [(updateIrreversible_within hK h₁).toHafd, hlite]
      refine (updateIrreversible_within hK h₁).trans hK.trans
        ((squashEndMassiveSyncEvents_within hK hlite₁ h₂).trans
          hK.trans ?_)
      dsimp only at hok
      split at hok
      · cases hok
        exact .refl hK.refl _
      · exact squashForkEvents_within hK hok

theorem findNextEvent_within {event : Option Event}
    (hok : findNextEvent contexts db = .ok (db', event)) : db.MovesByKey K contexts db' := by
  have hforked : ∀ lead, db.MovesByKey K contexts (takeOverFork contexts lead db) := by
    intro lead
    rw [takeOverFork]
    split
    · exact .update hK.refl (fun _ _ hkey ↦ hkey) (fun _ ↦ ⟨rfl, rfl⟩)
        fun c _ ↦ hK.forkId c _
    · exact .refl hK.refl _
  rw [findNextEvent] at hok
  split at hok
  · cases hok
    exact .refl hK.refl _
  · split at hok
    · cases hok
    · dsimp only at hok
      split at hok
      · cases hok
        exact hforked _
      · obtain ⟨moved, hmoved, hok⟩ := bind_eq_ok.mp hok
        cases hok
        exact (hforked _).trans hK.trans (setEventsId_within hK hmoved)

theorem squashAndGetState_within {state : ContextState}
    (hlite : db.hiveState.liteMode = liteMode)
    (hok : squashAndGetState contexts db = .ok (db', state)) : db.MovesByKey K contexts db' := by
  obtain ⟨db₁, h₁, hok⟩ := bind_eq_ok.mp hok
  refine (squashEvents_within hK hlite h₁).trans hK.trans ?_
  split at hok
  · cases hok
  · obtain ⟨⟨db₂, event⟩, h₂, hok⟩ := bind_eq_ok.mp hok
    cases hok
    exact findNextEvent_within hK h₂

end Functions

end HiveForkManager
