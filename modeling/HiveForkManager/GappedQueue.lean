import HiveForkManager.CallFrame

namespace HiveForkManager

open HistoryEntry WorldInv

variable {ρ : Type} {w : World ρ} {stored : List (Reversible BlockData)} {lo n : ℕ} {lock : Bool}

def World.rolledBack (w : World ρ) : World ρ :=
  if w.db.eventsIdSeq = unreachableEventId then w
  else { w with db := { w.db with eventsIdSeq := w.db.eventsIdSeq + 1 } }

/-- The states that calls of the kind `P` lead to, with rolled back transactions between them. -/
inductive GappedReachable (P : World ℕ → Call → Prop) : World ℕ → Prop
  | initial (state : SyncState) : GappedReachable P (World.initial ℕ state)
  | step {w : World ℕ} {call : Call} (h : GappedReachable P w) (hcall : P w call) :
      GappedReachable P (w.step call)
  | rolledBack {w : World ℕ} (h : GappedReachable P w) : GappedReachable P w.rolledBack

theorem GappedReachable.mono {P Q : World ℕ → Call → Prop} {w : World ℕ}
    (h : GappedReachable P w) (hPQ : ∀ w call, P w call → Q w call) : GappedReachable Q w := by
  induction h with
  | initial state => exact .initial state
  | step _ hcall ih => exact .step ih (hPQ _ _ hcall)
  | rolledBack _ ih => exact .rolledBack ih

theorem GappedReachable.run {P : World ℕ → Call → Prop} {w : World ℕ} (h : GappedReachable P w)
    {calls : List Call} (hcalls : w.Runs P calls) : GappedReachable P (w.run calls) := by
  induction calls generalizing w with
  | nil => exact h
  | cons call calls ih => exact ih (h.step hcalls.1) hcalls.2

/-- The queue holds event 0 and the events from the id `lo` on. -/
structure QueueInv (w : World ρ) (lo : ℕ) : Prop where
  first : ∃ a ∈ w.history, a.event = ⟨0, .newIrreversible, 0⟩
  zero : ∀ a ∈ w.history, a.event.id = 0 → a.event = ⟨0, .newIrreversible, 0⟩
  lt_seq : ∀ a ∈ w.history, a.event.id < w.db.eventsIdSeq
  seq_le : w.db.eventsIdSeq ≤ unreachableEventId
  lo_le : lo ≤ w.db.eventsIdSeq
  queue : ∀ e, e ∈ w.db.eventsQueue ↔ (∃ a ∈ w.history, a.event = e) ∧ (e.id = 0 ∨ lo ≤ e.id)
  irr : ∀ a ∈ w.history, a.event.event = .newIrreversible ∨ a.event.event = .massiveSync →
    a.event.blockNum ≤ w.db.irreversibleHead
  above : ∀ a ∈ w.history, a.event.event = .newBlock →
    w.db.irreversibleHead < a.event.blockNum → lo ≤ a.event.id
  stairs : ∀ a ∈ w.history, a.event.event = .newBlock → ∀ k, w.db.irreversibleHead < k →
    k ≤ a.event.blockNum → ∃ b ∈ w.history, b.event.event = .newBlock ∧ b.event.blockNum = k ∧
      b.event.id ≤ a.event.id
  pushed : w.Published → ∀ k, w.db.irreversibleHead < k → k ≤ w.chain.length →
    ∃ b ∈ w.history, b.event.event = .newBlock ∧ b.event.blockNum = k ∧ b.chain = w.chain.take k
  nothingRemoved : w.db.consistentBlock = none → lo = 0
  head_pos : ∀ n, w.db.consistentBlock = some n → 0 < n

def Hafd.Refers (h : Hafd) (i : ℕ) : Prop :=
  i = unreachableEventId ∨ ∃ e ∈ h.eventsQueue, e.id = i

namespace QueueInv

theorem initial (ρ : Type) (state : SyncState) : QueueInv (World.initial ρ state) 0 := by
  constructor
  case pushed => exact fun _ k hk hle ↦ absurd (Nat.le_zero.mp hle) (Nat.ne_zero_of_lt hk)
  all_goals simp [World.initial, Db.initial, Hafd.initial, unreachableEventId,
    Hafd.consistentBlock, eq_comm]

variable {e : Event}

theorem id_lt_seq (inv : QueueInv w lo) (he : e ∈ w.db.eventsQueue) :
    e.id < w.db.eventsIdSeq := by
  obtain ⟨⟨a, ha, rfl⟩, -⟩ := (inv.queue e).mp he
  exact inv.lt_seq a ha

theorem id_ne_sink (inv : QueueInv w lo) (he : e ∈ w.db.eventsQueue) :
    e.id ≠ unreachableEventId :=
  ((inv.id_lt_seq he).trans_le inv.seq_le).ne

theorem origin_mem (inv : QueueInv w lo) :
    (⟨0, .newIrreversible, 0⟩ : Event) ∈ w.db.eventsQueue :=
  (inv.queue _).mpr ⟨inv.first, .inl rfl⟩

theorem eq_origin (inv : QueueInv w lo) (he : e ∈ w.db.eventsQueue) (hid : e.id = 0) :
    e = ⟨0, .newIrreversible, 0⟩ := by
  obtain ⟨⟨a, ha, rfl⟩, -⟩ := (inv.queue e).mp he
  exact inv.zero a ha hid

theorem mem_of_above (inv : QueueInv w lo) {a : HistoryEntry} (ha : a ∈ w.history)
    (hev : a.event.event = .newBlock) (hlt : w.db.irreversibleHead < a.event.blockNum) :
    a.event ∈ w.db.eventsQueue :=
  (inv.queue _).mpr ⟨⟨a, ha, rfl⟩, .inr (inv.above a ha hev hlt)⟩

theorem frame (inv : QueueInv w lo) : EventFrame w.db.toHafd w.db.toHafd.Refers where
  of_mem_queue e he := .inr ⟨e, he, rfl⟩
  zero := .inr ⟨_, inv.origin_mem, rfl⟩
  sink := .inl rfl
  blockNum_le e he htype := by
    obtain ⟨⟨a, ha, rfl⟩, -⟩ := (inv.queue e).mp he
    exact inv.irr a ha htype

theorem emit (inv : QueueInv w lo) {w' : World ρ} {b : HistoryEntry} {lo' : ℕ}
    (hhistory : w'.history = w.history ++ [b]) (hid : b.event.id = w.db.eventsIdSeq)
    (hne : w.db.eventsIdSeq ≠ unreachableEventId)
    (hseq : w'.db.eventsIdSeq = w.db.eventsIdSeq + 1) (hlo : lo ≤ lo')
    (hlo' : lo' ≤ w.db.eventsIdSeq)
    (hqueue : ∀ e, e ∈ w'.db.eventsQueue ↔
      e ∈ w.db.eventsQueue ∧ (e.id = 0 ∨ lo' ≤ e.id) ∨ e = b.event)
    (hhead : w.db.irreversibleHead ≤ w'.db.irreversibleHead)
    (hirr : b.event.event = .newIrreversible ∨ b.event.event = .massiveSync →
      b.event.blockNum ≤ w'.db.irreversibleHead)
    (habove : ∀ a ∈ w.history, a.event.event = .newBlock →
      w'.db.irreversibleHead < a.event.blockNum → lo' ≤ a.event.id)
    (hstairs : b.event.event = .newBlock → ∀ k, w'.db.irreversibleHead < k →
      k < b.event.blockNum → ∃ a ∈ w.history, a.event.event = .newBlock ∧ a.event.blockNum = k)
    (hpushed : w'.Published → ∀ k, w'.db.irreversibleHead < k → k ≤ w'.chain.length →
      ∃ a ∈ w'.history, a.event.event = .newBlock ∧ a.event.blockNum = k ∧
        a.chain = w'.chain.take k)
    (hnone : w'.db.consistentBlock = none → lo' = 0)
    (hpos : ∀ n, w'.db.consistentBlock = some n → 0 < n) : QueueInv w' lo' := by
  have hmem : ∀ a, a ∈ w'.history ↔ a ∈ w.history ∨ a = b := fun a ↦ by
    rw [hhistory, List.mem_append, List.mem_singleton]
  have hbpos : 0 < w.db.eventsIdSeq := inv.id_lt_seq inv.origin_mem
  refine ⟨?_, ?_, ?_, ?_, ?_, ?_, ?_, ?_, ?_, hpushed, hnone, hpos⟩
  · obtain ⟨a, ha, heq⟩ := inv.first
    exact ⟨a, (hmem a).mpr (.inl ha), heq⟩
  · intro a ha hzero
    rcases (hmem a).mp ha with ha | rfl
    · exact inv.zero a ha hzero
    · omega
  · intro a ha
    rcases (hmem a).mp ha with ha | rfl
    · exact hseq ▸ (inv.lt_seq a ha).trans (Nat.lt_succ_self _)
    · omega
  · have := inv.seq_le
    omega
  · omega
  · intro e
    rw [hqueue, inv.queue]
    constructor
    · rintro (⟨⟨⟨a, ha, heq⟩, -⟩, hkept⟩ | rfl)
      · exact ⟨⟨a, (hmem a).mpr (.inl ha), heq⟩, hkept⟩
      · exact ⟨⟨b, (hmem b).mpr (.inr rfl), rfl⟩, .inr (hid ▸ hlo')⟩
    · rintro ⟨⟨a, ha, rfl⟩, hkept⟩
      rcases (hmem a).mp ha with ha | rfl
      · exact .inl ⟨⟨⟨a, ha, rfl⟩, hkept.imp_right hlo.trans⟩, hkept⟩
      · exact .inr rfl
  · intro a ha htype
    rcases (hmem a).mp ha with ha | rfl
    · exact (inv.irr a ha htype).trans hhead
    · exact hirr htype
  · intro a ha hev hlt
    rcases (hmem a).mp ha with ha | rfl
    · exact habove a ha hev hlt
    · exact hid ▸ hlo'
  · intro a ha hev k hk hle
    rcases (hmem a).mp ha with ha | rfl
    · obtain ⟨c, hc, hrest⟩ := inv.stairs a ha hev k (hhead.trans_lt hk) hle
      exact ⟨c, (hmem c).mpr (.inl hc), hrest⟩
    · rcases hle.eq_or_lt with rfl | hlt
      · exact ⟨a, ha, hev, rfl, le_rfl⟩
      · obtain ⟨c, hc, hcev, hnum⟩ := hstairs hev k hk hlt
        exact ⟨c, (hmem c).mpr (.inl hc), hcev, hnum, hid ▸ (inv.lt_seq c hc).le⟩

theorem mem_queue_iff (inv : QueueInv w lo) {b : Event} (e : Event) :
    e ∈ w.db.eventsQueue ++ [b] ↔
      e ∈ w.db.eventsQueue ∧ (e.id = 0 ∨ lo ≤ e.id) ∨ e = b := by
  rw [and_iff_left_of_imp fun he ↦ ((inv.queue e).mp he).2, List.mem_append, List.mem_singleton]

theorem push (inv : QueueInv w lo) {d : BlockData} (hpub : w.Published) (hd : d.Extends w.chain)
    (hseq : w.db.eventsIdSeq ≠ unreachableEventId) : QueueInv (w.pushed d) lo := by
  refine inv.emit rfl rfl hseq rfl le_rfl inv.lo_le (fun e ↦ inv.mem_queue_iff e) le_rfl ?_
    inv.above ?_ ?_ inv.nothingRemoved inv.head_pos
  · rintro (hev | hev) <;> cases hev
  · intro _ k hk hlt
    have hlt : k < d.block.num := hlt
    obtain ⟨a, ha, hev, hnum, -⟩ := inv.pushed hpub k hk (by have := hd.num; omega)
    exact ⟨a, ha, hev, hnum⟩
  · intro _ k hk hle
    have hle : k ≤ (w.chain ++ [d]).length := hle
    rw [List.length_append, List.length_singleton] at hle
    rcases hle.eq_or_lt with rfl | hlt
    · refine ⟨_, List.mem_append_right _ (List.mem_singleton_self _), rfl, hd.num, ?_⟩
      exact (List.take_of_length_le (by simp)).symm
    · obtain ⟨a, ha, hev, hnum, hchain⟩ := inv.pushed hpub k hk (by omega)
      refine ⟨a, List.mem_append_left _ ha, hev, hnum, hchain.trans ?_⟩
      exact (List.take_append_of_le_length (by omega)).symm

theorem fork (inv : QueueInv w lo) {k : ℕ} (hpub : w.Published)
    (hseq : w.db.eventsIdSeq ≠ unreachableEventId) : QueueInv (w.forked k) lo := by
  refine inv.emit rfl rfl hseq rfl le_rfl inv.lo_le (fun e ↦ inv.mem_queue_iff e) le_rfl ?_
    inv.above ?_ ?_ inv.nothingRemoved inv.head_pos
  · rintro (hev | hev) <;> cases hev
  · intro hev
    cases hev
  · intro _ m hm hle
    have hle : m ≤ (w.chain.take k).length := hle
    rw [List.length_take] at hle
    obtain ⟨a, ha, hev, hnum, hchain⟩ := inv.pushed hpub m hm (by omega)
    refine ⟨a, List.mem_append_left _ ha, hev, hnum, hchain.trans ?_⟩
    exact (List.take_take.trans (by rw [Nat.min_eq_left (by omega)])).symm

theorem cleanupBound_le_id (inv : QueueInv w lo) (hn : w.db.irreversibleHead ≤ n)
    {a : HistoryEntry} (ha : a ∈ w.history) (hev : a.event.event = .newBlock)
    (hlt : n < a.event.blockNum) : cleanupBound n w.db w.db.eventsIdSeq ≤ a.event.id := by
  obtain ⟨b, hb, hbev, hnum, hle⟩ := inv.stairs a ha hev (n + 1) (by omega) hlt
  have hqueue := inv.mem_of_above hb hbev (by omega)
  have hmem : b.event.id ∈ ((w.db.eventsQueue.filter (fun e ↦
      decide (e.event ≠ .backFromFork ∧ e.blockNum = n + 1))).map Event.id) :=
    List.mem_map_of_mem (List.mem_filter.mpr ⟨hqueue, by simp [hbev, hnum]⟩)
  cases hmin : ((w.db.eventsQueue.filter (fun e ↦
      decide (e.event ≠ .backFromFork ∧ e.blockNum = n + 1))).map Event.id).min? with
  | none =>
    rw [List.min?_eq_none_iff] at hmin
    rw [hmin] at hmem
    cases hmem
  | some m =>
    have hm := (List.min?_eq_some_iff.mp hmin).2 _ hmem
    rw [cleanupBound, hmin, Option.getD_some]
    omega

theorem mem_cleanup (inv : QueueInv w lo) (n : ℕ) (lock : Bool) :
    e ∈ (cleanup n lock w.db).eventsQueue ↔
      e ∈ w.db.eventsQueue ∧ (e.id = 0 ∨ loAfter n lock w.db w.db.eventsIdSeq lo ≤ e.id) := by
  cases lock with
  | false => exact (and_iff_left_of_imp fun he ↦ ((inv.queue e).mp he).2).symm
  | true =>
    refine (removeUnecessaryEvents_queue fun e he ↦ inv.id_lt_seq he).trans ?_
    refine and_congr_right fun he ↦ ?_
    have hlo := ((inv.queue e).mp he).2
    rw [loAfter, if_pos rfl]
    omega

theorem announce (inv : QueueInv w lo) {type : EventType} {tables : IrreversibleTables}
    {announced : List BlockData} (htype : type = .newIrreversible ∨ type = .massiveSync)
    (hn : w.db.irreversibleHead ≤ n) (hpos : 0 < n)
    (hseq : w.db.eventsIdSeq ≠ unreachableEventId)
    (hpushed : (w.irreversible type n lock tables announced).Published →
      ∀ k, n < k → k ≤ w.chain.length → w.Published) :
    QueueInv (w.irreversible type n lock tables announced)
      (loAfter n lock w.db w.db.eventsIdSeq lo) := by
  have hhead : (w.irreversible type n lock tables announced).db.irreversibleHead = n :=
    irreversibleHead_irreversible
  refine inv.emit rfl rfl hseq ?_ lo_le_loAfter (loAfter_le inv.lo_le) ?_ ?_ ?_ ?_ ?_ ?_ ?_ ?_
  · cases lock <;> rfl
  · intro e
    have hmem := inv.mem_cleanup n lock (e := e)
    rw [← hmem, ← List.mem_singleton]
    cases lock <;> exact List.mem_append
  · rw [hhead]
    exact hn
  · intro _
    rw [hhead]
  · intro a ha hev hlt
    rw [hhead] at hlt
    have hlo := inv.above a ha hev (hn.trans_lt hlt)
    cases lock with
    | false => exact hlo
    | true => exact Nat.max_le.mpr ⟨hlo, inv.cleanupBound_le_id hn ha hev hlt⟩
  · intro hev
    rcases htype with rfl | rfl <;> cases hev
  · intro hpub k hk hle
    rw [hhead] at hk
    obtain ⟨a, ha, hrest⟩ := inv.pushed (hpushed hpub k hk hle) k (hn.trans_lt hk) hle
    exact ⟨a, List.mem_append_left _ ha, hrest⟩
  · intro hnone
    cases lock <;> cases hnone
  · intro m hm
    cases lock <;> cases hm <;> exact hpos

theorem rolledBack (inv : QueueInv w lo) : QueueInv w.rolledBack lo := by
  rw [World.rolledBack]
  split
  · exact inv
  · have hle := inv.seq_le
    have hlo := inv.lo_le
    refine ⟨inv.first, inv.zero, fun a ha ↦ (inv.lt_seq a ha).trans (Nat.lt_succ_self _), ?_, ?_,
      inv.queue, inv.irr, inv.above, inv.stairs, inv.pushed, inv.nothingRemoved, inv.head_pos⟩
    · dsimp only
      omega
    · dsimp only
      omega

end QueueInv

structure GappedInv (w : World ℕ) (stored : List (Reversible BlockData)) (lo : ℕ) : Prop where
  storage : StorageInv w.db.toHafd w.chain stored
  queue : QueueInv w lo
  contexts : ∀ c ∈ w.db.contexts, Placed w.db.toHafd w.db.toHafd.Refers c

/-- What a call does to the queue: events below a bound are removed, and the bound is not above
the event of any context. -/
structure Removal (w w' : World ℕ) (lo lo' : ℕ) : Prop where
  bound : ∃ bound, lo' = max lo bound ∧ ∀ c ∈ w.db.contexts, bound ≤ c.eventsId

namespace Removal

variable {w w' : World ℕ} {lo' : ℕ}

theorem nothing : Removal w w' lo lo := ⟨0, (Nat.max_eq_left (Nat.zero_le _)).symm, by simp⟩

theorem cleanup : Removal w w' lo (loAfter n lock w.db w.db.eventsIdSeq lo) := by
  cases lock with
  | false => exact nothing
  | true => exact ⟨_, rfl, fun c hc ↦ cleanupBound_le_eventsId hc⟩

theorem le_eventsId (h : Removal w w' lo lo') {c : Context ℕ} (hc : c ∈ w.db.contexts)
    (hlo : lo ≤ c.eventsId) : lo' ≤ c.eventsId := by
  obtain ⟨bound, rfl, hbound⟩ := h.bound
  exact Nat.max_le.mpr ⟨hlo, hbound c hc⟩

end Removal

namespace GappedInv

variable {w : World ℕ}

theorem kept_or_zero (inv : GappedInv w stored lo) {c : Context ℕ} (hc : c ∈ w.db.contexts) :
    c.eventsId = 0 ∨ lo ≤ c.eventsId := by
  rcases (inv.contexts c hc).refersTo with hsink | ⟨e, he, hid⟩
  · exact .inr (hsink ▸ inv.queue.lo_le.trans inv.queue.seq_le)
  · exact hid ▸ ((inv.queue.queue e).mp he).2

theorem of_removal (inv : GappedInv w stored lo) {w' : World ℕ} {lo' : ℕ}
    {stored' : List (Reversible BlockData)}
    (hstorage : StorageInv w'.db.toHafd w'.chain stored') (hqueue : QueueInv w' lo')
    (hremoval : Removal w w' lo lo') (hcontexts : w'.db.contexts = w.db.contexts)
    (hhistory : w.history <+: w'.history)
    (hhead : w.db.irreversibleHead ≤ w'.db.irreversibleHead) : GappedInv w' stored' lo' where
  storage := hstorage
  queue := hqueue
  contexts c hc := by
    rw [hcontexts] at hc
    refine ⟨?_, (inv.contexts c hc).irr_le.trans hhead⟩
    rcases (inv.contexts c hc).refersTo with hsink | ⟨e, he, hid⟩
    · exact .inl hsink
    · obtain ⟨⟨a, ha, rfl⟩, -⟩ := (inv.queue.queue e).mp he
      refine .inr ⟨a.event, (hqueue.queue _).mpr ⟨⟨a, hhistory.mem ha, rfl⟩, ?_⟩, hid⟩
      rw [hid]
      exact (inv.kept_or_zero hc).imp_right (hremoval.le_eventsId hc)

theorem hived (inv : GappedInv w stored lo) {call : HivedCall} (hcall : w.Allowed call) :
    ∃ stored' lo', GappedInv (w.hived call) stored' lo' ∧ Removal w (w.hived call) lo lo' := by
  have hresult := World.hivedResult inv.storage hcall
  generalize w.hived call = w' at hresult
  have hcontexts := hresult.contexts
  have hhistory := hresult.history
  cases hresult with
  | failed => exact ⟨stored, lo, inv, .nothing⟩
  | pushed d hseq =>
    exact ⟨_, _, inv.of_removal ((inv.storage.push hcall.2 hcall.1).events _ _)
      (inv.queue.push hcall.1 hcall.2 hseq) .nothing hcontexts hhistory le_rfl, .nothing⟩
  | forked k hseq =>
    obtain ⟨hpub, hk, hlen⟩ := hcall
    exact ⟨_, _, inv.of_removal
      ((inv.storage.branch (hpub.trans_le hk) hlen hpub).events _ _)
      (inv.queue.fork hpub hseq) .nothing hcontexts hhistory le_rfl, .nothing⟩
  | irreversible n lock hseq hpos =>
    obtain ⟨hpub, hn, hlen⟩ := hcall
    have hhead : ({ w.db.toHafd with irreversible := .ofChain (w.chain.take n) } :
        Hafd).headOfBlocks = n :=
      headOfBlocks_of_irreversible hlen inv.storage.consistent.numbered rfl
    refine ⟨_, _, inv.of_removal
      (storage_irreversible (inv.storage.copy (hpub.trans_le hn) hlen) hhead.ge)
      (inv.queue.announce (.inl rfl) hn hpos hseq fun _ _ _ _ ↦ hpub) .cleanup hcontexts hhistory
      ?_, .cleanup⟩
    rw [irreversibleHead_irreversible]
    exact hn
  | dumped d =>
    obtain ⟨hlen, hd⟩ := hcall
    have hpub : ¬ (w.dumped d).Published := by
      have hhead := inv.storage.headOfBlocks_insert hd hlen
      exact fun hpub ↦ absurd (hhead.symm.trans hpub) (Nat.lt_succ_of_le inv.storage.head_le).ne'
    obtain ⟨h₁, h₂, h₃, h₄, h₅, h₆, h₇, h₈, h₉, -, h₁₁, h₁₂⟩ := inv.queue
    exact ⟨_, _, inv.of_removal (inv.storage.dump hd hlen)
      ⟨h₁, h₂, h₃, h₄, h₅, h₆, h₇, h₈, h₉, fun h ↦ absurd h hpub, h₁₁, h₁₂⟩ .nothing hcontexts
      hhistory le_rfl, .nothing⟩
  | synced n lock hseq hpos =>
    obtain ⟨hlen, hn, hle⟩ := hcall
    refine ⟨_, _, inv.of_removal (storage_irreversible (inv.storage.announce hle fun _ ↦ hlen) hle)
      (inv.queue.announce (.inr rfl) hn hpos hseq fun hpub k hk hk' ↦ ?_) .cleanup hcontexts
      hhistory ?_, .cleanup⟩
    · -- Everything written is announced, so there is no block above the head.
      have hpub' : w.db.headOfBlocks = n := by
        cases lock <;> exact hpub
      omega
    · rw [irreversibleHead_irreversible]
      exact hn

theorem lt_eventsId_of_removed (inv : GappedInv w stored lo) {w' : World ℕ} {lo' : ℕ}
    {stored' : List (Reversible BlockData)} (inv' : GappedInv w' stored' lo')
    (hremoval : Removal w w' lo lo') (hhistory : w.history <+: w'.history) {e : Event}
    (he : e ∈ w.db.eventsQueue) (he' : e ∉ w'.db.eventsQueue) {c : Context ℕ}
    (hc : c ∈ w.db.contexts) : e.id < c.eventsId := by
  obtain ⟨⟨a, ha, rfl⟩, hkept⟩ := (inv.queue.queue e).mp he
  have hgone : ¬ (a.event.id = 0 ∨ lo' ≤ a.event.id) := fun h ↦
    he' ((inv'.queue.queue _).mpr ⟨⟨a, hhistory.mem ha, rfl⟩, h⟩)
  obtain ⟨bound, rfl, hbound⟩ := hremoval.bound
  have := hbound c hc
  omega

end GappedInv

end HiveForkManager
