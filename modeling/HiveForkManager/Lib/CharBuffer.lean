import Mathlib

/-- The difference of two pointers into an object has a signed type of 64 bits. -/
structure CharBuffer where
  bytes : List UInt8
  length_lt : bytes.length < 2 ^ 63
  deriving DecidableEq

namespace CharBuffer

def size (b : CharBuffer) : ℕ := b.bytes.length

def load (b : CharBuffer) (p : ℤ) : Option UInt8 := if 0 ≤ p then b.bytes[p.toNat]? else none

def set (b : CharBuffer) (p : ℤ) (v : UInt8) : CharBuffer :=
  ⟨b.bytes.set p.toNat v, by rw [List.length_set]; exact b.length_lt⟩

def store (b : CharBuffer) (p : ℤ) (v : UInt8) : Option CharBuffer :=
  if 0 ≤ p ∧ p < b.size then some (b.set p v) else none

def storeAll (b : CharBuffer) (p : ℤ) : List UInt8 → Option CharBuffer
  | [] => some b
  | v :: rest => (b.store p v).bind fun b ↦ storeAll b (p + 1) rest

def upTo (b : CharBuffer) (p : ℤ) : List UInt8 := b.bytes.take p.toNat

variable {b b' b'' : CharBuffer} {p q lo hi : ℤ} {v : UInt8} {l l' : List UInt8}

@[simp] theorem size_set : (b.set p v).size = b.size := List.length_set

theorem store_eq_some (hp : 0 ≤ p) (hlt : p < b.size) : b.store p v = some (b.set p v) :=
  if_pos ⟨hp, hlt⟩

theorem load_set_self (hp : 0 ≤ p) (hlt : p < b.size) : (b.set p v).load p = some v := by
  have hindex : p.toNat < b.bytes.length := by
    rw [size] at hlt
    omega
  rw [load, if_pos hp, set, List.getElem?_set_self hindex]

theorem load_set_of_ne (hp : 0 ≤ p) (hne : q ≠ p) : (b.set p v).load q = b.load q := by
  rw [load, load]
  split_ifs with hq
  · rw [set, List.getElem?_set_ne (by omega)]
  · rfl

def Holds (b : CharBuffer) : ℤ → List UInt8 → Prop
  | _, [] => True
  | p, v :: l => b.load p = some v ∧ Holds b (p + 1) l

theorem holds_append : b.Holds p (l ++ l') ↔ b.Holds p l ∧ b.Holds (p + l.length) l' := by
  induction l generalizing p with
  | nil => simp [Holds]
  | cons v l ih =>
    have hoffset : p + 1 + (l.length : ℤ) = p + ((v :: l).length : ℤ) := by
      rw [List.length_cons]
      omega
    rw [List.cons_append, Holds, Holds, ih, and_assoc, hoffset]

theorem holds_singleton : b.Holds p [v] ↔ b.load p = some v := by
  rw [Holds, Holds, and_true]

theorem upTo_eq_of_holds (h : b.Holds 0 l) : b.upTo l.length = l := by
  have hprefix : ∀ {l : List UInt8} {n : ℕ}, b.Holds n l → (b.bytes.drop n).take l.length = l := by
    intro l
    induction l with
    | nil => exact fun _ ↦ rfl
    | cons v l ih =>
      intro n hl
      obtain ⟨hload, hrest⟩ := hl
      rw [load, if_pos (by omega), Int.toNat_natCast] at hload
      obtain ⟨hn, hv⟩ := List.getElem?_eq_some_iff.mp hload
      have htail := ih (n := n + 1) hrest
      rw [List.drop_eq_getElem_cons hn, List.length_cons, List.take_succ_cons, hv, htail]
  have hall := hprefix (n := 0) h
  rw [List.drop_zero] at hall
  rw [upTo, Int.toNat_natCast, hall]

/-- Nothing is changed outside `lo ≤ p < hi`. -/
structure SameOutside (lo hi : ℤ) (b b' : CharBuffer) : Prop where
  size : b'.size = b.size
  load : ∀ q, q < lo ∨ hi ≤ q → b'.load q = b.load q

theorem SameOutside.refl : SameOutside lo hi b b := ⟨rfl, fun _ _ ↦ rfl⟩

theorem SameOutside.trans (h : SameOutside lo hi b b') (h' : SameOutside lo hi b' b'') :
    SameOutside lo hi b b'' :=
  ⟨h'.size.trans h.size, fun q hq ↦ (h'.load q hq).trans (h.load q hq)⟩

theorem SameOutside.mono {lo' hi' : ℤ} (h : SameOutside lo hi b b') (hlo : lo' ≤ lo)
    (hhi : hi ≤ hi') : SameOutside lo' hi' b b' :=
  ⟨h.size, fun q hq ↦ h.load q (by omega)⟩

theorem sameOutside_set (hp : 0 ≤ p) : SameOutside p (p + 1) b (b.set p v) :=
  ⟨size_set, fun q hq ↦ load_set_of_ne hp (by omega)⟩

theorem Holds.frame (h : b.Holds p l) (hsame : SameOutside lo hi b b')
    (hout : p + l.length ≤ lo ∨ hi ≤ p) : b'.Holds p l := by
  induction l generalizing p with
  | nil => trivial
  | cons v l ih =>
    rw [List.length_cons] at hout
    refine ⟨?_, ih h.2 (by omega)⟩
    rw [hsame.load p (by omega)]
    exact h.1

theorem Holds.concat (h : b.Holds 0 l) (hlt : l.length < b.size) :
    (b.set l.length v).Holds 0 (l ++ [v]) := by
  rw [holds_append, holds_singleton, zero_add]
  exact ⟨h.frame (sameOutside_set (by omega)) (by omega), load_set_self (by omega) (by omega)⟩

theorem SameOutside.above_set (hp : 0 ≤ p) (hlt : p < b.size) (hhi : p + 1 ≤ hi)
    (h : SameOutside (p + 1) hi (b.set p v) b') : SameOutside p hi b b' ∧ b'.load p = some v := by
  have hset : SameOutside p hi b (b.set p v) := (sameOutside_set hp).mono le_rfl hhi
  refine ⟨hset.trans (h.mono (by omega) le_rfl), ?_⟩
  rw [h.load p (.inl (by omega)), load_set_self hp hlt]

theorem storeAll_spec (hp : 0 ≤ p) (hroom : p + l.length ≤ b.size) :
    ∃ b', b.storeAll p l = some b' ∧ SameOutside p (p + l.length) b b' ∧ b'.Holds p l := by
  induction l generalizing b p with
  | nil => exact ⟨b, rfl, .refl, trivial⟩
  | cons v l ih =>
    rw [List.length_cons] at hroom ⊢
    have hlt : p < b.size := by omega
    obtain ⟨b', hb', hsame, hholds⟩ := ih (b := b.set p v) (p := p + 1) (by omega)
      (by rw [size_set]; omega)
    have habove : SameOutside (p + 1) (p + (l.length + 1 : ℕ)) (b.set p v) b' :=
      hsame.mono le_rfl (by omega)
    obtain ⟨hsame', hload⟩ := habove.above_set hp hlt (by omega)
    refine ⟨b', ?_, hsame', hload, hholds⟩
    rw [storeAll, store_eq_some hp hlt, Option.bind_some, hb']

def HoldsDown (b : CharBuffer) : ℤ → List UInt8 → Prop
  | _, [] => True
  | p, v :: l => b.load p = some v ∧ HoldsDown b (p - 1) l

theorem holdsDown_append :
    b.HoldsDown p (l ++ l') ↔ b.HoldsDown p l ∧ b.HoldsDown (p - l.length) l' := by
  induction l generalizing p with
  | nil => simp [HoldsDown]
  | cons v l ih =>
    have hoffset : p - 1 - (l.length : ℤ) = p - ((v :: l).length : ℤ) := by
      rw [List.length_cons]
      omega
    rw [List.cons_append, HoldsDown, HoldsDown, ih, and_assoc, hoffset]

theorem HoldsDown.frame (h : b.HoldsDown p l) (hsame : SameOutside lo hi b b')
    (hout : p < lo ∨ hi ≤ p - l.length + 1) : b'.HoldsDown p l := by
  induction l generalizing p with
  | nil => trivial
  | cons v l ih =>
    rw [List.length_cons] at hout
    refine ⟨?_, ih h.2 (by omega)⟩
    rw [hsame.load p (by omega)]
    exact h.1

theorem SameOutside.below_set (hp : 0 ≤ p) (hlt : p < b.size) (hlo : lo ≤ p)
    (h : SameOutside lo p (b.set p v) b') : SameOutside lo (p + 1) b b' ∧ b'.load p = some v := by
  have hset : SameOutside lo (p + 1) b (b.set p v) := (sameOutside_set hp).mono hlo le_rfl
  refine ⟨hset.trans (h.mono le_rfl (by omega)), ?_⟩
  rw [h.load p (.inr le_rfl), load_set_self hp hlt]

theorem HoldsDown.holds (h : b.HoldsDown p l) : b.Holds (p - l.length + 1) l.reverse := by
  induction l generalizing p with
  | nil => trivial
  | cons v l ih =>
    have hstart : p - ((v :: l).length : ℤ) + 1 = p - 1 - l.length + 1 := by
      rw [List.length_cons]
      omega
    have hlast : p - 1 - (l.length : ℤ) + 1 + (l.reverse.length : ℤ) = p := by
      rw [List.length_reverse]
      omega
    rw [List.reverse_cons, holds_append, holds_singleton, hstart, hlast]
    exact ⟨ih h.2, h.1⟩

end CharBuffer
