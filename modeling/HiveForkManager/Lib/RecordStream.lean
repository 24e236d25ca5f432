import Mathlib

namespace RecordStream

variable {β ρ ε : Type}

/-- The loop, with fuel; `readAll` gives it more than it can use. -/
def readLoop (decode : List β → Except ε (ρ × List β)) : ℕ → List β → Except ε (List ρ)
  | 0, _ => .ok []
  | fuel + 1, bytes => do
    let (r, rest) ← decode bytes
    if rest.isEmpty then .ok [r] else return r :: (← readLoop decode fuel rest)

def readAll (decode : List β → Except ε (ρ × List β)) (bytes : List β) : Except ε (List ρ) :=
  readLoop decode (bytes.length + 1) bytes

/-- The records that lie completely within the first `k` bytes. -/
def complete (encode : ρ → List β) : ℕ → List ρ → List ρ
  | _, [] => []
  | k, r :: rs =>
    if (encode r).length ≤ k then r :: complete encode (k - (encode r).length) rs else []

structure IsCodec (encode : ρ → List β) (decode : List β → Except ε (ρ × List β))
    (Valid : ρ → Prop) : Prop where
  nonempty : ∀ r, encode r ≠ []
  append : ∀ r rest, Valid r → decode (encode r ++ rest) = .ok (r, rest)
  torn : ∀ r k, Valid r → k < (encode r).length → ∃ e, decode ((encode r).take k) = .error e

variable {encode : ρ → List β} {decode : List β → Except ε (ρ × List β)} {Valid : ρ → Prop}

namespace IsCodec

variable (codec : IsCodec encode decode Valid)
include codec

theorem length_pos (r : ρ) : 0 < (encode r).length :=
  List.length_pos_iff.2 (codec.nonempty r)

variable {rs : List ρ}

theorem flatMap_eq_nil : rs.flatMap encode = [] ↔ rs = [] := by
  cases rs with
  | nil => simp
  | cons r rs => simp [codec.nonempty r]

theorem readLoop_flatMap (hne : rs ≠ []) (hvalid : ∀ r ∈ rs, Valid r) {fuel : ℕ}
    (hfuel : (rs.flatMap encode).length < fuel) :
    readLoop decode fuel (rs.flatMap encode) = .ok rs := by
  induction rs generalizing fuel with
  | nil => exact absurd rfl hne
  | cons r rs ih =>
    obtain ⟨hr, hrs⟩ := List.forall_mem_cons.1 hvalid
    obtain ⟨fuel, rfl⟩ : ∃ f, fuel = f + 1 := ⟨fuel - 1, by omega⟩
    have hpos := codec.length_pos r
    simp only [List.flatMap_cons, List.length_append] at hfuel
    simp only [readLoop, List.flatMap_cons, codec.append r _ hr]
    by_cases hnil : rs = []
    · subst hnil
      rfl
    · have hrest : (rs.flatMap encode).isEmpty = false := by
        simpa only [List.isEmpty_eq_false_iff, ne_eq, codec.flatMap_eq_nil] using hnil
      have hloop : readLoop decode fuel (rs.flatMap encode) = .ok rs := ih hnil hrs (by omega)
      simp [hrest, hloop, pure, Except.pure, bind, Except.bind]

theorem readLoop_torn (hvalid : ∀ r ∈ rs, Valid r) {r : ρ} (hr : Valid r) {k : ℕ}
    (hk : k < (encode r).length) (hcut : 0 < k ∨ rs = []) {fuel : ℕ}
    (hfuel : (rs.flatMap encode).length < fuel) :
    ∃ e, readLoop decode fuel (rs.flatMap encode ++ (encode r).take k) = .error e := by
  induction rs generalizing fuel with
  | nil =>
    obtain ⟨fuel, rfl⟩ : ∃ f, fuel = f + 1 := ⟨fuel - 1, by omega⟩
    obtain ⟨e, he⟩ := codec.torn r k hr hk
    exact ⟨e, by simp [readLoop, he, bind, Except.bind]⟩
  | cons r' rs ih =>
    obtain ⟨hr', hrs⟩ := List.forall_mem_cons.1 hvalid
    obtain ⟨fuel, rfl⟩ : ∃ f, fuel = f + 1 := ⟨fuel - 1, by omega⟩
    have hpos := codec.length_pos r'
    have hk0 : 0 < k := hcut.resolve_right (by simp)
    simp only [List.flatMap_cons, List.length_append] at hfuel
    obtain ⟨e, he⟩ : ∃ e, readLoop decode fuel (rs.flatMap encode ++ (encode r).take k) = .error e :=
      ih hrs (Or.inl hk0) (by omega)
    have hrest : (rs.flatMap encode ++ (encode r).take k).isEmpty = false := by
      rw [List.isEmpty_eq_false_iff, ← List.length_pos_iff]
      simp only [List.length_append, List.length_take]
      omega
    refine ⟨e, ?_⟩
    simp only [readLoop, List.flatMap_cons, List.append_assoc, codec.append r' _ hr']
    simp [hrest, he, bind, Except.bind]

theorem readAll_flatMap (hne : rs ≠ []) (hvalid : ∀ r ∈ rs, Valid r) :
    readAll decode (rs.flatMap encode) = .ok rs :=
  codec.readLoop_flatMap hne hvalid (Nat.lt_succ_self _)

theorem readAll_torn (hvalid : ∀ r ∈ rs, Valid r) {r : ρ} (hr : Valid r) {k : ℕ}
    (hk : k < (encode r).length) (hcut : 0 < k ∨ rs = []) :
    ∃ e, readAll decode (rs.flatMap encode ++ (encode r).take k) = .error e :=
  codec.readLoop_torn hvalid hr hk hcut (by simp only [List.length_append]; omega)

theorem readAll_nil (hvalid : ∃ r, Valid r) : ∃ e, readAll decode [] = .error e := by
  obtain ⟨r, hr⟩ := hvalid
  simpa using codec.readAll_torn (List.forall_mem_nil Valid) hr (codec.length_pos r) (Or.inr rfl)

end IsCodec

theorem complete_sublist (k : ℕ) (rs : List ρ) : complete encode k rs <+: rs := by
  induction rs generalizing k with
  | nil => exact List.prefix_rfl
  | cons r rs ih =>
    unfold complete
    split
    · exact (List.prefix_cons_inj r).2 (ih _)
    · exact List.nil_prefix

theorem take_flatMap (k : ℕ) (rs : List ρ) (hk : k ≤ (rs.flatMap encode).length) :
    (rs.flatMap encode).take k = (complete encode k rs).flatMap encode ∨
      ∃ r ∈ rs, ∃ j, 0 < j ∧ j < (encode r).length ∧
        (rs.flatMap encode).take k = (complete encode k rs).flatMap encode ++ (encode r).take j := by
  induction rs generalizing k with
  | nil => exact Or.inl (by simp [complete])
  | cons r rs ih =>
    simp only [List.flatMap_cons, List.length_append] at hk
    unfold complete
    split
    case isTrue hle =>
      simp only [List.flatMap_cons, List.take_append, List.take_of_length_le hle]
      refine (ih (k - (encode r).length) (by omega)).imp (fun h ↦ by rw [h]) ?_
      rintro ⟨r', hr', j, hj0, hj, h⟩
      exact ⟨r', List.mem_cons_of_mem r hr', j, hj0, hj, by rw [h, List.append_assoc]⟩
    case isFalse hlt =>
      have htake : (List.flatMap encode (r :: rs)).take k = (encode r).take k := by
        rw [List.flatMap_cons, List.take_append_of_le_length (by omega)]
      rw [htake]
      rcases Nat.eq_zero_or_pos k with rfl | hpos
      · exact Or.inl (by simp)
      · exact Or.inr ⟨r, List.mem_cons_self, k, hpos, by omega, by simp⟩

/-- What reading a cut file should give: the complete records, also when further records are
appended to what is left. -/
def Recovers (encode : ρ → List β) (decode : List β → Except ε (ρ × List β)) (Valid : ρ → Prop)
    (rs : List ρ) (k : ℕ) : Prop :=
  readAll decode ((rs.flatMap encode).take k) = .ok (complete encode k rs) ∧
    ∀ more : List ρ, (∀ r ∈ more, Valid r) →
      readAll decode ((rs.flatMap encode).take k ++ more.flatMap encode) =
        .ok (complete encode k rs ++ more)

theorem IsCodec.recovers_iff (codec : IsCodec encode decode Valid) {rs : List ρ}
    (hvalid : ∀ r ∈ rs, Valid r) (hsome : ∃ r, Valid r) {k : ℕ}
    (hk : k ≤ (rs.flatMap encode).length) :
    Recovers encode decode Valid rs k ↔ complete encode k rs ≠ [] ∧
      ((complete encode k rs).flatMap encode).length = k := by
  have hcomplete : ∀ r ∈ complete encode k rs, Valid r := fun r hr ↦
    hvalid r ((complete_sublist k rs).subset hr)
  constructor
  · rintro ⟨hread, -⟩
    rcases take_flatMap k rs hk with htake | ⟨r, hr, j, hj0, hj, htake⟩
    · refine ⟨fun hnil ↦ ?_, ?_⟩
      · obtain ⟨e, he⟩ := codec.readAll_nil hsome
        rw [htake, hnil, List.flatMap_nil, he] at hread
        cases hread
      · rw [← htake, List.length_take, Nat.min_eq_left hk]
    · obtain ⟨e, he⟩ := codec.readAll_torn hcomplete (hvalid r hr) hj (Or.inl hj0)
      rw [htake, he] at hread
      cases hread
  · rintro ⟨hne, hlen⟩
    have htake : (rs.flatMap encode).take k = (complete encode k rs).flatMap encode := by
      rcases take_flatMap k rs hk with htake | ⟨r, hr, j, hj0, hj, htake⟩
      · exact htake
      · have := congrArg List.length htake
        simp only [List.length_append, List.length_take, hlen] at this
        omega
    refine ⟨by rw [htake]; exact codec.readAll_flatMap hne hcomplete, fun more hmore ↦ ?_⟩
    rw [htake, ← List.flatMap_append]
    refine codec.readAll_flatMap (by simp [hne]) fun r hr ↦ ?_
    exact (List.mem_append.1 hr).elim (hcomplete r) (hmore r)

end RecordStream
