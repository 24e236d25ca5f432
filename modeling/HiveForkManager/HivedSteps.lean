import HiveForkManager.WorldInv

namespace HiveForkManager

open ForkStore HistoryEntry

variable {ρ : Type} {w : World ρ} {stored : List (Reversible BlockData)} {lo n : ℕ} {lock : Bool}

namespace World

def pushed (d : BlockData) (w : World ρ) : World ρ where
  db := { w.db with toHafd := (w.db.toHafd.withBlock d).withEvent .newBlock d.block.num }
  chain := w.chain ++ [d]
  history := w.history ++ [⟨⟨w.db.eventsIdSeq, .newBlock, d.block.num⟩, w.chain ++ [d],
    w.db.maxFork, w.db.consistentBlock⟩]

def forked (k : ℕ) (w : World ρ) : World ρ where
  db := { w.db with
    toHafd := (w.db.toHafd.withFork k).withEvent .backFromFork (w.db.toHafd.withFork k).maxFork }
  chain := w.chain.take k
  history := w.history ++ [⟨⟨w.db.eventsIdSeq, .backFromFork, (w.db.toHafd.withFork k).maxFork⟩,
    w.chain.take k, (w.db.toHafd.withFork k).maxFork, w.db.consistentBlock⟩]

def irreversible (type : EventType) (n : ℕ) (lock : Bool) (tables : IrreversibleTables)
    (announced : List BlockData) (w : World ρ) : World ρ where
  db := Db.withAnnouncement type n lock { w.db with irreversible := tables }
  chain := w.chain
  history := w.history ++ [⟨⟨w.db.eventsIdSeq, type, n⟩, announced, w.db.maxFork, some n⟩]

def dumped (d : BlockData) (w : World ρ) : World ρ where
  db := { w.db with irreversible := w.db.irreversible.insert d }
  chain := w.chain ++ [d]
  history := w.history

variable {call : HivedCall}

theorem hived_of_error {e : Error} (h : call.run w.db = .error e) :
    w.hived call = w := by
  rw [hived, h]

theorem hived_of_ok {db : Db ρ} (h : call.run w.db = .ok db) :
    w.hived call = ⟨db, call.chainAfter w.chain,
      w.history ++ call.entry w.db.eventsIdSeq db.toHafd w.chain⟩ := by
  rw [hived, h]

inductive HivedResult (w : World ρ) : HivedCall → World ρ → Prop
  | failed (call : HivedCall) : HivedResult w call w
  | pushed (d : BlockData) (hseq : w.db.eventsIdSeq ≠ unreachableEventId) :
      HivedResult w (.pushBlock d) (w.pushed d)
  | forked (k : ℕ) (hseq : w.db.eventsIdSeq ≠ unreachableEventId) :
      HivedResult w (.backFromFork k) (w.forked k)
  | irreversible (n : ℕ) (lock : Bool) (hseq : w.db.eventsIdSeq ≠ unreachableEventId)
      (hpos : 0 < n) : HivedResult w (.setIrreversible n lock)
        (w.irreversible .newIrreversible n lock (.ofChain (w.chain.take n)) w.chain)
  | dumped (d : BlockData) : HivedResult w (.dump d) (w.dumped d)
  | synced (n : ℕ) (lock : Bool) (hseq : w.db.eventsIdSeq ≠ unreachableEventId) (hpos : 0 < n) :
      HivedResult w (.endMassiveSync n lock)
        (w.irreversible .massiveSync n lock w.db.irreversible (w.chain.take n))

theorem hivedResult (inv : StorageInv w.db.toHafd w.chain stored)
    (hcall : w.Allowed call) : HivedResult w call (w.hived call) := by
  cases hrun : call.run w.db with
  | error e =>
    rw [hived_of_error hrun]
    exact .failed call
  | ok db =>
    rw [hived_of_ok hrun]
    cases call with
    | pushBlock d =>
      obtain ⟨hseq, rfl⟩ := pushBlock_eq_ok inv.full hrun
      exact .pushed d hseq
    | backFromFork k =>
      cases hback : backFromFork k w.db.toHafd with
      | error e => simp [HivedCall.run, hback, bind, Except.bind] at hrun
      | ok h =>
        obtain ⟨hseq, rfl⟩ := backFromFork_eq_ok inv.full hback
        simp only [HivedCall.run, hback, bind, Except.bind, pure, Except.pure,
          Except.ok.injEq] at hrun
        subst hrun
        exact .forked k hseq
    | setIrreversible n lock =>
      obtain ⟨hpub, hle, hlen⟩ := hcall
      obtain ⟨hseq, hpos, rfl⟩ := (setIrreversible_eq_ok inv (hpub.trans_le hle) hlen).mp hrun
      have := HivedResult.irreversible n lock hseq hpos
      cases lock <;> exact this
    | dump d =>
      simp only [HivedCall.run, Except.ok.injEq] at hrun
      subst hrun
      have := HivedResult.dumped (w := w) d
      rwa [dumped, ← List.append_nil w.history] at this
    | endMassiveSync n lock =>
      obtain ⟨-, -, hn⟩ := hcall
      obtain ⟨hseq, hpos, rfl⟩ := (endMassiveSync_eq_ok inv hn).mp hrun
      have := HivedResult.synced n lock hseq hpos
      cases lock <;> exact this

end World

theorem World.announced_of_published (h : w.Published) : w.announced = w.chain := if_pos h

theorem World.announced_eq_take (hlen : w.chain.length = w.db.headOfBlocks) :
    w.announced = w.chain.take w.db.irreversibleHead := by
  rw [World.announced]
  split
  · rename_i hpub
    rw [← show w.db.headOfBlocks = w.db.irreversibleHead from hpub, ← hlen, List.take_length]
  · rfl

theorem Grounded.mono {h h' : Hafd} {history more : List HistoryEntry} {c : Context ρ}
    (hc : Grounded h history lo c) (hirr : h.irreversibleHead ≤ h'.irreversibleHead) :
    Grounded h' (history ++ more) lo c :=
  ⟨hc.refersTo.append more, hc.irr_le.trans hirr⟩

namespace WorldInv

theorem pushed (inv : WorldInv w stored lo) {d : BlockData} (hpub : w.Published)
    (hd : d.Extends w.chain) (hseq : w.db.eventsIdSeq ≠ unreachableEventId) :
    WorldInv (w.pushed d) (stored ++ [⟨d, w.db.maxFork⟩]) lo where
  storage := (inv.storage.push hd hpub).events _ _
  events := by
    obtain ⟨a, ha, hchain, hfork, hcons⟩ := inv.events.last
    rw [World.announced_of_published hpub] at hchain
    have hann : (w.pushed d).announced = w.chain ++ [d] := if_pos hpub
    have hnum : d.block.num = (w.chain ++ [d]).length := by
      rw [hd.num, List.length_append, List.length_singleton]
    rw [hann]
    refine inv.events.emit ha ⟨⟨d, by rw [hchain]⟩, hnum, hfork.symm, hcons.symm⟩ rfl hseq le_rfl
      inv.events.lo_le ?_ rfl rfl rfl ?_ (.inl ⟨rfl, rfl⟩) inv.events.aboveKept
    · intro e
      rw [and_iff_left_of_imp fun he ↦ ((inv.events.queue e).mp he).2]
      exact List.mem_append.trans (or_congr_right List.mem_singleton)
    · intro g
      simp [World.pushed, Hafd.withEvent, Hafd.withBlock]
  contexts c hc := (inv.contexts c hc).mono le_rfl
  names := inv.names
  notPruned := inv.notPruned

theorem maxFork_withFork {h : Hafd} {chain : List BlockData} (inv : StorageInv h chain stored)
    {k : ℕ} : (h.withFork k).maxFork = h.maxFork + 1 := by
  have hmax : ((h.forks ++ [(⟨h.maxFork + 1, k⟩ : Fork)]).map Fork.id).max? =
      some (h.maxFork + 1) := by
    rw [List.max?_eq_some_iff]
    constructor
    · simp
    · intro b hb
      obtain ⟨g, hg, rfl⟩ := List.mem_map.mp hb
      rcases List.mem_append.mp hg with hg | hg
      · exact (inv.id_le_maxFork hg).trans (Nat.le_succ _)
      · rw [List.mem_singleton.mp hg]
  rw [Hafd.maxFork, Hafd.withFork, hmax, Option.getD_some]

theorem forked (inv : WorldInv w stored lo) {k : ℕ} (hpub : w.Published)
    (hk : w.db.irreversibleHead ≤ k) (hlen : k ≤ w.chain.length)
    (hseq : w.db.eventsIdSeq ≠ unreachableEventId) : WorldInv (w.forked k) stored lo where
  storage := (inv.storage.branch (hpub.trans_le hk) hlen hpub).events _ _
  events := by
    obtain ⟨a, ha, hchain, hfork, hcons⟩ := inv.events.last
    rw [World.announced_of_published hpub] at hchain
    have hann : (w.forked k).announced = w.chain.take k := if_pos hpub
    have hheight : (w.chain.take k).length = k := List.length_take_of_le hlen
    have hmax := maxFork_withFork (k := k) inv.storage
    rw [hann]
    refine inv.events.emit ha ⟨?_, ?_, ?_, rfl, hcons.symm⟩ rfl hseq le_rfl
      inv.events.lo_le ?_ rfl rfl rfl ?_ (.inl ⟨rfl, rfl⟩) inv.events.aboveKept
    · rw [hchain, HistoryEntry.height, hheight]
    · rw [HistoryEntry.irr, hcons, HistoryEntry.height, hheight]
      exact hk
    · rw [hmax, hfork]
    · intro e
      rw [and_iff_left_of_imp fun he ↦ ((inv.events.queue e).mp he).2]
      exact List.mem_append.trans (or_congr_right List.mem_singleton)
    · intro g
      simp only [HistoryEntry.height, hheight, hmax, true_and]
      exact List.mem_append.trans (or_congr_right List.mem_singleton)
  contexts c hc := (inv.contexts c hc).mono le_rfl
  names := inv.names
  notPruned := inv.notPruned

theorem dumped (inv : WorldInv w stored lo) {d : BlockData} (hd : d.Extends w.chain)
    (hlen : w.chain.length = w.db.headOfBlocks) : WorldInv (w.dumped d) stored lo where
  storage := inv.storage.dump hd hlen
  events := by
    have hold := World.announced_eq_take hlen
    have hle := inv.storage.head_le
    have hnew : (w.dumped d).announced = w.announced := by
      have hpub : ¬ (w.dumped d).Published := by
        have hhead := inv.storage.headOfBlocks_insert hd hlen
        exact fun hpub ↦ absurd (hhead.symm.trans hpub) (Nat.lt_succ_of_le hle).ne'
      rw [World.announced, if_neg hpub, hold]
      exact List.take_append_of_le_length (hlen ▸ hle)
    rw [hnew]
    obtain ⟨h₁, h₂, h₃, h₄, h₅, h₆, h₇, h₈, h₉, h₁₀, h₁₁⟩ := inv.events
    exact ⟨h₁, h₂, h₃, h₄, h₅, h₆, h₇, h₈, h₉, h₁₀, h₁₁⟩
  contexts c hc := ⟨(inv.contexts c hc).refersTo, (inv.contexts c hc).irr_le⟩
  names := inv.names
  notPruned := inv.notPruned

def storedAfter (n : ℕ) (lock : Bool) (db : Db ρ) (stored : List (Reversible BlockData)) :
    List (Reversible BlockData) :=
  if lock then db.kept n stored else stored

def loAfter (n : ℕ) (lock : Bool) (db : Db ρ) (length lo : ℕ) : ℕ :=
  if lock then max lo (cleanupBound n db length) else lo

variable {db : Db ρ} {length : ℕ} {type : EventType} {tables : IrreversibleTables}
variable {announced : List BlockData} {a : HistoryEntry}

theorem lo_le_loAfter : lo ≤ loAfter n lock db length lo := by
  cases lock with
  | false => exact le_rfl
  | true => exact Nat.le_max_left _ _

theorem loAfter_le (hlo : lo ≤ length) :
    loAfter n lock db length lo ≤ length := by
  cases lock with
  | false => exact hlo
  | true => exact Nat.max_le.mpr ⟨hlo, cleanupBound_le_length n db length⟩

theorem loAfter_le_eventsId {c : Context ρ} (hc : c ∈ db.contexts)
    (hlo : lo ≤ c.eventsId) : loAfter n lock db length lo ≤ c.eventsId := by
  cases lock with
  | false => exact hlo
  | true => exact Nat.max_le.mpr ⟨hlo, cleanupBound_le_eventsId hc⟩

theorem mem_cleanup_queue (inv : WorldInv w stored lo) (n : ℕ) (lock : Bool) {e : Event} :
    e ∈ (cleanup n lock w.db).eventsQueue ↔
      e ∈ w.db.eventsQueue ∧ (e.id = 0 ∨ loAfter n lock w.db w.history.length lo ≤ e.id) := by
  cases lock with
  | false => exact (and_iff_left_of_imp fun he ↦ ((inv.events.queue e).mp he).2).symm
  | true =>
    refine (removeUnecessaryEvents_queue fun e he ↦ inv.events.id_lt_length he).trans ?_
    refine and_congr_right fun he ↦ ?_
    have hlo := ((inv.events.queue e).mp he).2
    rw [loAfter, if_pos rfl]
    omega

theorem irreversibleHead_irreversible
 :
    (w.irreversible type n lock tables announced).db.irreversibleHead = n := by
  cases lock <;> rfl

theorem irreversibleHead_le (inv : WorldInv w stored lo) {b : HistoryEntry}
    (ha : w.history.getLast? = some a) (hfollows : a.Follows b) :
    w.db.irreversibleHead ≤ b.irr := by
  obtain ⟨a', ha', -, -, hcons⟩ := inv.events.last
  rw [ha, Option.some.injEq] at ha'
  have hle := hfollows.precedes.irr
  rwa [HistoryEntry.irr, ha', hcons] at hle

theorem loAfter_le_of_lt (inv : WorldInv w stored lo) (hn : w.db.irreversibleHead ≤ n) {i : ℕ}
    (ha : w.history[i]? = some a) (hev : a.event.event = .newBlock)
    (hlt : n < a.height) : loAfter n lock w.db w.history.length lo ≤ i := by
  have hlo := inv.events.aboveKept i a ha hev (hn.trans_lt hlt)
  cases lock with
  | false => exact hlo
  | true => exact Nat.max_le.mpr ⟨hlo, inv.events.cleanupBound_le rfl hn ha hlt⟩

theorem storage_irreversible
    (hstorage : StorageInv ({ w.db.toHafd with irreversible := tables }.withConsistentBlock n)
      w.chain stored)
    (hn : n ≤ ({ w.db.toHafd with irreversible := tables } : Hafd).headOfBlocks) :
    StorageInv (w.irreversible type n lock tables announced).db.toHafd w.chain
      (storedAfter n lock w.db stored) := by
  cases lock with
  | false => exact hstorage.events _ _
  | true =>
    let announced : Db ρ := { w.db with
      toHafd := { w.db.toHafd with irreversible := tables }.withConsistentBlock n }
    have hremoved : StorageInv (removeUnecessaryEvents n announced).toHafd w.chain stored :=
      hstorage.events _ _
    exact (hremoved.cleanup hn).events _ _

theorem irreversible (inv : WorldInv w stored lo) (ha : w.history.getLast? = some a)
    (hfollows : a.Follows ⟨⟨w.db.eventsIdSeq, type, n⟩, announced, w.db.maxFork, some n⟩)
    (htype : type = .newIrreversible ∨ type = .massiveSync)
    (hseq : w.db.eventsIdSeq ≠ unreachableEventId)
    (hstorage : StorageInv ({ w.db.toHafd with irreversible := tables }.withConsistentBlock n)
      w.chain stored)
    (hn : n ≤ ({ w.db.toHafd with irreversible := tables } : Hafd).headOfBlocks)
    (hannounced : (w.irreversible type n lock tables announced).announced = announced) :
    WorldInv (w.irreversible type n lock tables announced) (storedAfter n lock w.db stored)
      (loAfter n lock w.db w.history.length lo) where
  storage := storage_irreversible hstorage hn
  events := by
    rw [hannounced]
    refine inv.events.emit ha hfollows rfl hseq ?_ ?_ ?_ ?_ ?_ ?_ ?_ ?_ ?_
    · exact lo_le_loAfter
    · exact loAfter_le inv.events.lo_le
    · intro e
      have hmem := inv.mem_cleanup_queue n lock (e := e)
      rw [← hmem, ← List.mem_singleton]
      cases lock <;> exact List.mem_append
    · cases lock <;> rfl
    · cases lock <;> rfl
    · cases lock <;> rfl
    · intro g
      have hne : type ≠ .backFromFork := by rcases htype with rfl | rfl <;> simp
      simp only [hne, false_and, or_false]
      cases lock <;> rfl
    · exact .inr ⟨htype, by cases lock <;> rfl⟩
    · intro i x hx hev hlt
      rw [irreversibleHead_irreversible] at hlt
      exact inv.loAfter_le_of_lt (inv.irreversibleHead_le ha hfollows) hx hev hlt
  contexts c hc := by
    have hc' : c ∈ w.db.contexts := by cases lock <;> exact hc
    have hold := inv.contexts c hc'
    refine ⟨RefersTo.append ⟨?_, hold.refersTo.known⟩ _, ?_⟩
    · exact hold.refersTo.kept.imp_right (loAfter_le_eventsId hc')
    · rw [irreversibleHead_irreversible]
      exact hold.irr_le.trans (inv.irreversibleHead_le ha hfollows)
  names := by
    cases lock <;> exact inv.names
  notPruned := by
    cases lock <;> exact inv.notPruned

theorem setIrreversible (inv : WorldInv w stored lo) (lock : Bool) (hpub : w.Published)
    (hn : w.db.irreversibleHead ≤ n) (hlen : n ≤ w.chain.length) (hpos : 0 < n)
    (hseq : w.db.eventsIdSeq ≠ unreachableEventId) :
    WorldInv (w.irreversible .newIrreversible n lock (.ofChain (w.chain.take n)) w.chain)
      (storedAfter n lock w.db stored) (loAfter n lock w.db w.history.length lo) := by
  obtain ⟨a, ha, hchain, hfork, hcons⟩ := inv.events.last
  rw [World.announced_of_published hpub] at hchain
  have hhead : ({ w.db.toHafd with irreversible := .ofChain (w.chain.take n) } :
      Hafd).headOfBlocks = n :=
    headOfBlocks_of_irreversible hlen inv.storage.consistent.numbered rfl
  refine inv.irreversible ha ⟨hchain.symm, hfork.symm, rfl, ?_, hlen, hpos⟩ (.inl rfl) hseq
    (inv.storage.copy (hpub.trans_le hn) hlen) hhead.ge ?_
  · rw [HistoryEntry.irr, hcons]
    exact hn
  · apply World.announced_of_published
    cases lock <;> exact hhead

theorem endMassiveSync (inv : WorldInv w stored lo) (lock : Bool)
    (hlen : w.chain.length = w.db.headOfBlocks) (hn : w.db.irreversibleHead ≤ n)
    (hle : n ≤ w.db.headOfBlocks) (hpos : 0 < n)
    (hseq : w.db.eventsIdSeq ≠ unreachableEventId) :
    WorldInv (w.irreversible .massiveSync n lock w.db.irreversible (w.chain.take n))
      (storedAfter n lock w.db stored) (loAfter n lock w.db w.history.length lo) := by
  obtain ⟨a, ha, hchain, hfork, hcons⟩ := inv.events.last
  rw [World.announced_eq_take hlen] at hchain
  have hheight : (w.chain.take n).length = n := List.length_take_of_le (hlen ▸ hle)
  have hirr : a.irr = w.db.irreversibleHead := by
    rw [HistoryEntry.irr, hcons]
    rfl
  refine inv.irreversible ha ⟨?_, ?_, hfork.symm, rfl, hheight.symm, hpos⟩ (.inr rfl) hseq
    (inv.storage.announce hle fun _ ↦ hlen) hle ?_
  · rw [hchain]
    exact List.take_prefix_take_left hn
  · rw [HistoryEntry.height, hchain, hirr]
    exact List.length_take_of_le (hn.trans (hlen ▸ hle))
  · rw [World.announced_eq_take (by cases lock <;> exact hlen)]
    cases lock <;> rfl

theorem hived (inv : WorldInv w stored lo) {call : HivedCall} (hcall : w.Allowed call) :
    ∃ stored' lo', WorldInv (w.hived call) stored' lo' := by
  have hresult := World.hivedResult inv.storage hcall
  generalize w.hived call = w' at hresult
  cases hresult with
  | failed => exact ⟨stored, lo, inv⟩
  | pushed d hseq => exact ⟨_, _, inv.pushed hcall.1 hcall.2 hseq⟩
  | forked k hseq => exact ⟨_, _, inv.forked hcall.1 hcall.2.1 hcall.2.2 hseq⟩
  | irreversible n lock hseq hpos =>
    exact ⟨_, _, inv.setIrreversible lock hcall.1 hcall.2.1 hcall.2.2 hpos hseq⟩
  | dumped d => exact ⟨_, _, inv.dumped hcall.2 hcall.1⟩
  | synced n lock hseq hpos =>
    exact ⟨_, _, inv.endMassiveSync lock hcall.1 hcall.2.1 hcall.2.2 hpos hseq⟩

end WorldInv

namespace World

variable {call : HivedCall} {w' : World ρ}

theorem HivedResult.contexts (h : HivedResult w call w') : w'.db.contexts = w.db.contexts := by
  cases h with
  | irreversible n lock => cases lock <;> rfl
  | synced n lock => cases lock <;> rfl
  | _ => rfl

theorem HivedResult.history (h : HivedResult w call w') : w.history <+: w'.history := by
  cases h with
  | failed => exact List.prefix_refl _
  | dumped d => exact List.prefix_refl _
  | _ => exact List.prefix_append _ _

end World

end HiveForkManager
