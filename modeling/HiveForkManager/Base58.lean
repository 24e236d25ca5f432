import HiveForkManager.PqxxConversion
import HiveForkManager.Lib.Radix

namespace HiveForkManager

namespace Base58

open PqxxConversion

def wrapping (n : ℕ) : Conversion ℕ := .ok (n % 2 ^ 64)

def checked (n : ℕ) : Conversion ℕ :=
  if n < 2 ^ 64 then .ok n else .error (.failure "overflow")

section Encode

variable (word : ℕ → Conversion ℕ)

def readBlock : ℕ → Bytes → ℕ → Conversion ℕ
  | 0, _, carry => .ok carry
  | _ + 1, [], _ => .error .outOfBounds
  | n + 1, byte :: input, carry => do
    let carry ← word (carry * 2 ^ 8)
    let carry ← word (carry + byte.toNat)
    readBlock n input carry

def applyDigits (multiplier : ℕ) : ℕ → ℤ → ℕ → CharBuffer → Conversion (ℤ × ℕ × CharBuffer)
  | 0, it, carry, b => .ok (it, carry, b)
  | n + 1, it, carry, b => do
    let digit ← load b it
    let product ← word (multiplier * digit.toNat)
    let carry ← word (carry + product)
    let b ← store b it (UInt8.ofNat (carry % 58))
    applyDigits multiplier n (it - 1) (carry / 58) b

def finishByThree (it : ℤ) (carry : ℕ) (b : CharBuffer) : Conversion (ℤ × ℕ × CharBuffer) :=
  if 58 * 58 < carry then do
    let b ← store b it (UInt8.ofNat (carry % 58))
    let b ← store b (it - 1) (UInt8.ofNat (carry / 58 % 58))
    let b ← store b (it - 2) (UInt8.ofNat (carry / 58 / 58 % 58))
    finishByThree (it - 3) (carry / 58 / 58 / 58) b
  else .ok (it, carry, b)
termination_by carry
decreasing_by omega

def finish (it : ℤ) (carry : ℕ) (b : CharBuffer) : Conversion (ℤ × CharBuffer) :=
  if carry ≠ 0 then do
    let b ← store b it (UInt8.ofNat (carry % 58))
    finish (it - 1) (carry / 58) b
  else .ok (it, b)
termination_by carry
decreasing_by omega

/-- `b58 = b58 * multiplier + carry` for one block after the other. The pointer `b58_begin_minus1`
is the one before the stored digits. -/
def processBlocks (b58End : ℤ) (numBytes : ℕ+) (input : Bytes) (b58BeginMinus1 : ℤ)
    (b : CharBuffer) : Conversion (ℤ × CharBuffer) :=
  if input = [] then .ok (b58BeginMinus1, b)
  else do
    let carry ← readBlock word numBytes input 0
    let multiplier ← word (2 ^ (numBytes * 8 : ℕ))
    let (it, carry, b) ←
      applyDigits word multiplier (b58End - 1 - b58BeginMinus1).toNat (b58End - 1) carry b
    let (it, carry, b) ← finishByThree it carry b
    let (it, b) ← finish it carry b
    processBlocks b58End 7 (input.drop numBytes) it b
termination_by input.length
decreasing_by
  have hpos := numBytes.pos
  have hne := List.length_pos_of_ne_nil ‹_›
  rw [List.length_drop]
  omega

def expectedEncodedSize (inputSize : ℕ) : ℕ := sizeT (inputSize * 350) / 2 ^ 8 + 1

def skipZeros (input : Bytes) : Bytes := input.dropWhile fun byte ↦ byte = 0

def encodeDigits (inputData : Bytes) (out : ℤ) (b : CharBuffer) : Conversion (ℤ × CharBuffer) :=
  let input := skipZeros inputData
  let b58End := out + expectedEncodedSize input.length
  let numBytes : ℕ+ := ⟨sizeT (input.length + 2 ^ 64 - 1) % 7 + 1, Nat.succ_pos _⟩
  processBlocks word b58End numBytes input (b58End - 1) b

def alphabet : Bytes :=
  ascii "123456789ABCDEFGHJKLMNPQRSTUVWXYZabcdefghijkmnopqrstuvwxyz".toList ++ [0]

def letter (digit : UInt8) : Conversion UInt8 :=
  alphabet[digit.toNat]?.elim (.error .outOfBounds) .ok

def translate : ℕ → ℤ → ℤ → CharBuffer → Conversion (ℤ × CharBuffer)
  | 0, _, b58TextIt, b => .ok (b58TextIt, b)
  | n + 1, it, b58TextIt, b => do
    let digit ← load b it
    let b ← store b b58TextIt (← letter digit)
    translate n (it + 1) (b58TextIt + 1) b

def encode (inputData : Bytes) (out : ℤ) (b : CharBuffer) : Conversion (ℤ × CharBuffer) := do
  let b58End := out + expectedEncodedSize (skipZeros inputData).length
  let (b58BeginMinus1, b) ← encodeDigits word inputData out b
  let it := b58BeginMinus1 + 1
  let (b58TextIt, b) ← translate (b58End - it).toNat it out b
  let b ← store b b58TextIt 0
  return (b58TextIt + 1, b)

end Encode

def bytesOf (n : UInt32) : Bytes :=
  [n.toUInt8, (n >>> 8).toUInt8, (n >>> 16).toUInt8, (n >>> 24).toUInt8]

def sizeBuffer (addressPrefix : Bytes) : ℕ := 51 + addressPrefix.length + 1

/-- `into_buf` for a key of 33 bytes, given the first word of a hash of it. -/
def publicKeyIntoBuf (addressPrefix : Bytes) (hash : Bytes → UInt32) (keyData : Fin 33 → UInt8)
    (b : CharBuffer) : Conversion (ℤ × CharBuffer) :=
  if (b.size : ℤ) < toLong (sizeBuffer addressPrefix) then
    .error (.conversionOverrun
      "Could not write hive::protocol::public_key_type: buffer too small.")
  else do
    let key := List.ofFn keyData
    let dataToEncode := key ++ bytesOf (hash key)
    let b ← (b.storeAll 0 addressPrefix).elim (.error .outOfBounds) .ok
    encode wrapping dataToEncode addressPrefix.length b

open CharBuffer hiding load store
open ExceptList (ok_bind bind_eq_ok)

/-- The integer that bytes denote, highest byte first, after a number read before them. -/
def bigEndianFrom (n : ℕ) (bytes : Bytes) : ℕ := bytes.foldl (fun n byte ↦ n * 256 + byte.toNat) n

def bigEndian (bytes : Bytes) : ℕ := bigEndianFrom 0 bytes

theorem bigEndianFrom_eq (bytes : Bytes) : ∀ n,
    bigEndianFrom n bytes = n * 256 ^ bytes.length + bigEndian bytes := by
  induction bytes with
  | nil => exact fun n ↦ by rw [List.length_nil, Nat.pow_zero, Nat.mul_one]; rfl
  | cons byte bytes ih =>
    intro n
    have hstep : ∀ m, bigEndianFrom m (byte :: bytes) =
        bigEndianFrom (m * 256 + byte.toNat) bytes := fun _ ↦ rfl
    rw [bigEndian, hstep, hstep, ih, ih, List.length_cons, Nat.pow_succ']
    ring

theorem bigEndian_eq_ofDigits (bytes : Bytes) :
    bigEndian bytes = Nat.ofDigits 256 (bytes.map UInt8.toNat).reverse := by
  induction bytes using List.reverseRecOn with
  | nil => rfl
  | append_singleton bytes byte ih =>
    have hstep : bigEndian (bytes ++ [byte]) = bigEndian bytes * 256 + byte.toNat :=
      List.foldl_append
    rw [hstep, ih, List.map_append, List.reverse_append]
    exact (Nat.add_comm _ _).trans (congrArg _ (Nat.mul_comm _ _))

theorem forall_digit_lt (bytes : Bytes) : ∀ d ∈ (bytes.map UInt8.toNat).reverse, d < 256 := by
  intro d hd
  obtain ⟨byte, -, rfl⟩ := List.mem_map.mp (List.mem_reverse.mp hd)
  exact byte.toNat_lt

theorem bigEndian_lt (bytes : Bytes) : bigEndian bytes < 256 ^ bytes.length := by
  have hlt := Nat.ofDigits_lt_base_pow_length (by decide) (forall_digit_lt bytes)
  rwa [← bigEndian_eq_ofDigits, List.length_reverse, List.length_map] at hlt

def toBytes (digits : List ℕ) : Bytes := digits.map UInt8.ofNat

def Exact (word : ℕ → Conversion ℕ) : Prop := ∀ n < 2 ^ 64, word n = .ok n

theorem exact_wrapping : Exact wrapping := fun n hn ↦ by rw [wrapping, Nat.mod_eq_of_lt hn]

theorem exact_checked : Exact checked := fun _ hn ↦ if_pos hn

section Block

theorem readBlock_spec {word : ℕ → Conversion ℕ} (hword : Exact word) (n : ℕ) :
    ∀ {input : Bytes} {carry : ℕ}, n ≤ input.length → (carry + 1) * 256 ^ n ≤ 2 ^ 64 →
      readBlock word n input carry = .ok (bigEndianFrom carry (input.take n)) := by
  induction n with
  | zero => exact fun _ _ ↦ rfl
  | succ n ih =>
    intro input carry hlength hfit
    cases input with
    | nil => cases hlength
    | cons byte input =>
      have hbyte := byte.toNat_lt
      have hpow : 0 < 256 ^ n := Nat.pow_pos (by decide)
      rw [Nat.pow_succ', ← Nat.mul_assoc] at hfit
      have hsmall : (carry + 1) * 256 ≤ 2 ^ 64 := (Nat.le_mul_of_pos_right _ hpow).trans hfit
      have hnext : (carry * 2 ^ 8 + byte.toNat + 1) * 256 ^ n ≤ 2 ^ 64 :=
        (Nat.mul_le_mul_right _ (by omega)).trans hfit
      rw [readBlock, hword _ (by omega), ok_bind, hword _ (by omega),
        ok_bind, ih (Nat.le_of_succ_le_succ hlength) hnext]
      rfl

theorem applyDigits_spec {multiplier : ℕ} (hmultiplier : multiplier ≤ 2 ^ 56) (ds : List ℕ) :
    ∀ (b : CharBuffer) (it : ℤ) {carry : ℕ}, (∀ d ∈ ds, d < 58) → carry < multiplier →
      0 ≤ it - ds.length + 1 → it < b.size → b.HoldsDown it (toBytes ds) →
      ∃ b', (∀ word, Exact word → applyDigits word multiplier ds.length it carry b =
          .ok (it - ds.length, (Radix.mulAdd 58 multiplier ds carry).2, b')) ∧
        SameOutside (it - ds.length + 1) (it + 1) b b' ∧
        b'.HoldsDown it (toBytes (Radix.mulAdd 58 multiplier ds carry).1) := by
  induction ds with
  | nil =>
    intro b it carry _ _ _ _ _
    refine ⟨b, fun word _ ↦ ?_, .refl, trivial⟩
    rw [List.length_nil, applyDigits]
    simp [Radix.mulAdd]
  | cons d ds ih =>
    intro b it carry hds hcarry hlow hhigh hholds
    have hd := hds d (List.mem_cons_self ..)
    have hds' : ∀ e ∈ ds, e < 58 := fun e he ↦ hds e (List.mem_cons_of_mem _ he)
    obtain ⟨hload, hrest⟩ := hholds
    have hdigit : (UInt8.ofNat d).toNat = d := by
      rw [UInt8.toNat_ofNat', Nat.mod_eq_of_lt (by omega)]
    have hsum : carry + multiplier * d < 58 * multiplier := Radix.add_mul_lt hd hcarry
    rw [List.length_cons] at hlow ⊢
    let b₁ := b.set it (UInt8.ofNat ((carry + multiplier * d) % 58))
    have hsize : b₁.size = b.size := size_set
    have h₁ : SameOutside it (it + 1) b b₁ := sameOutside_set (by omega)
    obtain ⟨b', happly, hsame, hholds'⟩ := ih b₁ (it - 1) hds'
      (Nat.div_lt_of_lt_mul hsum) (by omega) (by omega) (hrest.frame h₁ (by omega))
    have hbelow : SameOutside (it - (ds.length + 1 : ℕ) + 1) it b₁ b' :=
      hsame.mono (by omega) (by omega)
    obtain ⟨hsame', hload'⟩ := hbelow.below_set (by omega) hhigh (by omega)
    refine ⟨b', fun word hword ↦ ?_, hsame', hload', hholds'⟩
    rw [applyDigits, load_eq_ok hload, ok_bind, hdigit, hword _ (by omega),
      ok_bind, hword _ (by omega), ok_bind,
      store_eq_ok _ (by omega) hhigh, ok_bind, happly word hword]
    congr 2
    omega

theorem finish_spec (carry : ℕ) : ∀ (b : CharBuffer) (it : ℤ),
    0 ≤ it - (Nat.digits 58 carry).length + 1 → it < b.size →
      ∃ b', finish it carry b = .ok (it - (Nat.digits 58 carry).length, b') ∧
        SameOutside (it - (Nat.digits 58 carry).length + 1) (it + 1) b b' ∧
        b'.HoldsDown it (toBytes (Nat.digits 58 carry)) := by
  induction carry using Nat.strong_induction_on with
  | _ carry ih =>
    intro b it hlow hhigh
    rcases Nat.eq_zero_or_pos carry with rfl | hcarry
    · refine ⟨b, ?_, .refl, trivial⟩
      rw [finish, if_neg (by decide)]
      simp
    · have hdigits := Nat.digits_def' (by decide : 1 < 58) hcarry
      rw [hdigits, List.length_cons] at hlow ⊢
      let b₁ := b.set it (UInt8.ofNat (carry % 58))
      have hsize : b₁.size = b.size := size_set
      obtain ⟨b', hfinish, hsame, hholds⟩ := ih (carry / 58) (by omega) b₁ (it - 1)
        (by omega) (by omega)
      have hbelow : SameOutside (it - ((Nat.digits 58 (carry / 58)).length + 1 : ℕ) + 1) it b₁ b' :=
        hsame.mono (by omega) (by omega)
      obtain ⟨hsame', hload⟩ := hbelow.below_set (by omega) hhigh (by omega)
      refine ⟨b', ?_, hsame', hload, hholds⟩
      rw [finish, if_pos hcarry.ne', store_eq_ok _ (by omega) hhigh, ok_bind, hfinish]
      congr 2
      omega

theorem exists_finishByThree (carry : ℕ) : ∀ {it : ℤ} {b : CharBuffer} {r : ℤ × CharBuffer},
    finish it carry b = .ok r → ∃ it' carry' b',
      finishByThree it carry b = .ok (it', carry', b') ∧ finish it' carry' b' = .ok r := by
  induction carry using Nat.strong_induction_on with
  | _ carry ih =>
    intro it b r h
    by_cases hcarry : 58 * 58 < carry
    · rw [finish, if_pos (by omega)] at h
      obtain ⟨b₁, h₁, h⟩ := bind_eq_ok.mp h
      rw [finish, if_pos (by omega)] at h
      obtain ⟨b₂, h₂, h⟩ := bind_eq_ok.mp h
      rw [finish, if_pos (by omega), show it - 1 - 1 = it - 2 by omega] at h
      obtain ⟨b₃, h₃, h⟩ := bind_eq_ok.mp h
      rw [show it - 2 - 1 = it - 3 by omega] at h
      rw [finishByThree, if_pos hcarry, h₁, ok_bind, h₂, ok_bind, h₃,
        ok_bind]
      exact ih _ (by omega) h
    · exact ⟨it, carry, b, by rw [finishByThree, if_neg hcarry], h⟩

end Block

theorem bigEndianFrom_take_drop (n k : ℕ) (bytes : Bytes) :
    bigEndianFrom (bigEndianFrom n (bytes.take k)) (bytes.drop k) = bigEndianFrom n bytes := by
  rw [bigEndianFrom, bigEndianFrom, ← List.foldl_append, List.take_append_drop]
  rfl

theorem le_bigEndianFrom (n : ℕ) (bytes : Bytes) : n ≤ bigEndianFrom n bytes := by
  rw [bigEndianFrom_eq]
  exact (Nat.le_mul_of_pos_right _ (Nat.pow_pos (by decide))).trans (Nat.le_add_right ..)

/-- The bytes up to the end of the space hold the digits of `n`. -/
def Stores (b : CharBuffer) (b58End : ℤ) (n : ℕ) : Prop :=
  b.HoldsDown (b58End - 1) (toBytes (Nat.digits 58 n))

section Run

variable {out b58End : ℤ}

theorem block_spec {n multiplier carry : ℕ} {b : CharBuffer} (hmultiplier : multiplier ≤ 2 ^ 56)
    (hcarry : carry < multiplier) (hhigh : b58End ≤ b.size)
    (hlow : (Nat.digits 58 (n * multiplier + carry)).length ≤ b58End)
    (hstores : Stores b b58End n) :
    ∃ it carry' b₁ it' carry'' b₂ b',
      (∀ word, Exact word →
        applyDigits word multiplier (Nat.digits 58 n).length (b58End - 1) carry b =
          .ok (it, carry', b₁)) ∧
      finishByThree it carry' b₁ = .ok (it', carry'', b₂) ∧
      finish it' carry'' b₂ =
        .ok (b58End - 1 - (Nat.digits 58 (n * multiplier + carry)).length, b') ∧
      SameOutside (b58End - (Nat.digits 58 (n * multiplier + carry)).length) b58End b b' ∧
      Stores b' b58End (n * multiplier + carry) := by
  have hdigits := Radix.digits_mul_add (by decide : 1 < 58) (Nat.zero_lt_of_lt hcarry) n carry
  have hlength := congrArg List.length hdigits
  rw [List.length_append, Radix.length_mulAdd] at hlength
  obtain ⟨b₁, happly, hsame₁, hholds₁⟩ := applyDigits_spec hmultiplier (Nat.digits 58 n) b
    (b58End - 1) (fun d hd ↦ Nat.digits_lt_base (by decide) hd) hcarry (by omega) (by omega) hstores
  have hlength₁ : (toBytes (Radix.mulAdd 58 multiplier (Nat.digits 58 n) carry).1).length =
      (Nat.digits 58 n).length := by rw [toBytes, List.length_map, Radix.length_mulAdd]
  generalize Radix.mulAdd 58 multiplier (Nat.digits 58 n) carry = r at *
  obtain ⟨b', hfinish, hsame, hholds⟩ := finish_spec r.2 b₁ (b58End - 1 - (Nat.digits 58 n).length)
    (by omega) (by rw [hsame₁.size]; omega)
  obtain ⟨it', carry', b₂, hthree, hfinish'⟩ := exists_finishByThree _ hfinish
  refine ⟨_, _, b₁, it', carry', b₂, b', happly, hthree, ?_, ?_, ?_⟩
  · rw [hfinish']
    congr 2
    omega
  · exact (hsame₁.mono (by omega) (by omega)).trans (hsame.mono (by omega) (by omega))
  · rw [Stores, hdigits, toBytes, List.map_append]
    refine holdsDown_append.mpr ⟨hholds₁.frame hsame (.inr (by rw [hlength₁])), ?_⟩
    exact hlength₁.symm ▸ hholds

/-- The stored number grows by one block after the other until it is the number of all bytes. The
first block is chosen so that sevens remain. -/
theorem processBlocks_spec (hout : 0 ≤ out) (size : ℕ) : ∀ (numBytes : ℕ+) {input : Bytes} {n : ℕ}
    {b : CharBuffer}, input.length = size →
    (input ≠ [] → (numBytes : ℕ) ≤ 7 ∧ (numBytes : ℕ) ≤ input.length ∧
      7 ∣ input.length - numBytes) →
    out + (Nat.digits 58 (bigEndianFrom n input)).length ≤ b58End → b58End ≤ b.size →
    Stores b b58End n →
    ∃ b', (∀ word, Exact word →
        processBlocks word b58End numBytes input (b58End - 1 - (Nat.digits 58 n).length) b =
          .ok (b58End - 1 - (Nat.digits 58 (bigEndianFrom n input)).length, b')) ∧
      SameOutside out b58End b b' ∧ Stores b' b58End (bigEndianFrom n input) := by
  induction size using Nat.strong_induction_on with
  | _ size ih =>
    intro numBytes input n b hsize hblocks hlow hhigh hstores
    by_cases hempty : input = []
    · subst hempty
      exact ⟨b, fun word _ ↦ by rw [processBlocks, if_pos rfl]; rfl, .refl, hstores⟩
    · obtain ⟨hseven, hle, hrest⟩ := hblocks hempty
      have hpos := numBytes.pos
      have hpow : 2 ^ (numBytes * 8 : ℕ) = 256 ^ (numBytes : ℕ) := by
        rw [Nat.mul_comm, Nat.pow_mul]
      have hmultiplier : 2 ^ (numBytes * 8 : ℕ) ≤ 2 ^ 56 :=
        Nat.pow_le_pow_right (by decide) (by omega)
      have hread : ∀ word, Exact word →
          readBlock word numBytes input 0 = .ok (bigEndian (input.take numBytes)) :=
        fun word hword ↦
          readBlock_spec hword numBytes hle (by rw [Nat.zero_add, Nat.one_mul, ← hpow]; omega)
      have htake : (input.take numBytes).length = numBytes := List.length_take_of_le hle
      have hcarry : bigEndian (input.take numBytes) < 2 ^ (numBytes * 8 : ℕ) := by
        have hlt := bigEndian_lt (input.take numBytes)
        rwa [htake, ← hpow] at hlt
      have hvalue : n * 2 ^ (numBytes * 8 : ℕ) + bigEndian (input.take numBytes) =
          bigEndianFrom n (input.take numBytes) := by rw [bigEndianFrom_eq, htake, hpow]
      have htotal := bigEndianFrom_take_drop n numBytes input
      have hgrows := Nat.le_length_digits_le 58 _ _
        (le_bigEndianFrom (bigEndianFrom n (input.take numBytes)) (input.drop numBytes))
      rw [htotal] at hgrows
      obtain ⟨it, carry, b₁, it', carry', b₂, b₃, happly, hthree, hfinish, hsame₁, hstores₁⟩ :=
        block_spec hmultiplier hcarry hhigh (by rw [hvalue]; omega) hstores
      rw [hvalue] at hfinish hsame₁ hstores₁
      have hdrop : (input.drop numBytes).length = input.length - numBytes := List.length_drop
      have hblocks' : input.drop numBytes ≠ [] → 7 ≤ 7 ∧ 7 ≤ (input.drop numBytes).length ∧
          7 ∣ (input.drop numBytes).length - 7 := by
        intro hne
        have hlength := List.length_pos_of_ne_nil hne
        rw [hdrop] at hlength ⊢
        exact ⟨le_rfl, Nat.le_of_dvd hlength hrest, Nat.dvd_sub hrest (dvd_refl 7)⟩
      obtain ⟨b', hrun, hsame, hstores'⟩ := ih (input.drop numBytes).length (by omega)
        7 (b := b₃) (n := bigEndianFrom n (input.take numBytes)) rfl hblocks'
        (by rw [htotal]; exact hlow) (by rw [hsame₁.size]; exact hhigh) hstores₁
      rw [htotal] at hrun hstores'
      refine ⟨b', fun word hword ↦ ?_, (hsame₁.mono (by omega) le_rfl).trans hsame, hstores'⟩
      have hcount : (b58End - 1 - (b58End - 1 - ((Nat.digits 58 n).length : ℤ))).toNat =
          (Nat.digits 58 n).length := by omega
      rw [processBlocks, if_neg hempty, hread word hword, ok_bind,
        hword _ (by omega), ok_bind, hcount, happly word hword, ok_bind]
      dsimp only
      rw [hthree, ok_bind]
      dsimp only
      rw [hfinish, ok_bind]
      exact hrun word hword

theorem skipZeros_length_le (inputData : Bytes) :
    (skipZeros inputData).length ≤ inputData.length := List.length_dropWhile_le ..

theorem bigEndian_skipZeros (inputData : Bytes) :
    bigEndian (skipZeros inputData) = bigEndian inputData := by
  induction inputData with
  | nil => rfl
  | cons byte inputData ih =>
    by_cases hzero : byte = 0
    · subst hzero
      exact ih
    · rw [skipZeros, List.dropWhile_cons_of_neg (by simpa using hzero)]

theorem length_digits_le_expectedEncodedSize {input : Bytes} (hsize : input.length * 350 < 2 ^ 64) :
    (Nat.digits 58 (bigEndian input)).length ≤ expectedEncodedSize input.length := by
  rw [expectedEncodedSize, sizeT, Nat.mod_eq_of_lt hsize,
    Nat.digits_length_le_iff (by decide)]
  have hratio : 256 ^ 256 ≤ 58 ^ 350 := by decide +kernel
  exact (bigEndian_lt input).trans_le
    (Radix.pow_le_pow_of_ratio (by decide) (by decide) hratio input.length)

theorem length_digits_le_space {inputData : Bytes} (hsize : inputData.length * 350 < 2 ^ 64) :
    (Nat.digits 58 (bigEndian inputData)).length ≤
      expectedEncodedSize (skipZeros inputData).length := by
  rw [← bigEndian_skipZeros]
  exact length_digits_le_expectedEncodedSize
    (lt_of_le_of_lt (Nat.mul_le_mul_right 350 (skipZeros_length_le inputData)) hsize)

theorem firstBlock_spec {size : ℕ} (hpos : 0 < size) (hsize : size < 2 ^ 64) :
    sizeT (size + 2 ^ 64 - 1) % 7 + 1 ≤ 7 ∧ sizeT (size + 2 ^ 64 - 1) % 7 + 1 ≤ size ∧
      7 ∣ size - (sizeT (size + 2 ^ 64 - 1) % 7 + 1) := by
  have hminus : sizeT (size + 2 ^ 64 - 1) = size - 1 := by
    rw [sizeT]
    omega
  rw [hminus]
  omega

theorem encodeDigits_spec {inputData : Bytes} (hsize : inputData.length * 350 < 2 ^ 64)
    (hout : 0 ≤ out) {b : CharBuffer}
    (hroom : out + expectedEncodedSize (skipZeros inputData).length ≤ b.size) :
    ∃ b', (∀ word, Exact word → encodeDigits word inputData out b =
        .ok (out + expectedEncodedSize (skipZeros inputData).length - 1 -
          (Nat.digits 58 (bigEndian inputData)).length, b')) ∧
      SameOutside out (out + expectedEncodedSize (skipZeros inputData).length) b b' ∧
      Stores b' (out + expectedEncodedSize (skipZeros inputData).length)
        (bigEndian inputData) := by
  have hle := skipZeros_length_le inputData
  have henough := length_digits_le_space hsize
  rw [← bigEndian_skipZeros inputData] at henough ⊢
  have hrun := processBlocks_spec hout _
    ⟨sizeT ((skipZeros inputData).length + 2 ^ 64 - 1) % 7 + 1, Nat.succ_pos _⟩ (n := 0) rfl
    (fun hne ↦ firstBlock_spec (List.length_pos_of_ne_nil hne) (by omega))
    (Int.add_le_add_left (Int.ofNat_le.mpr henough) out) hroom trivial
  rw [Nat.digits_zero, List.length_nil, Nat.cast_zero, sub_zero] at hrun
  exact hrun

end Run

def letterOf (digit : ℕ) : UInt8 := alphabet.getD digit 0

def base58Text (n : ℕ) : Bytes := (Nat.digits 58 n).reverse.map letterOf

@[simp] theorem length_base58Text (n : ℕ) :
    (base58Text n).length = (Nat.digits 58 n).length := by
  rw [base58Text, List.length_map, List.length_reverse]

theorem letter_spec {digit : ℕ} (hdigit : digit < 58) :
    letter (UInt8.ofNat digit) = .ok (letterOf digit) := by
  have hall : ∀ d : Fin 58, letter (UInt8.ofNat d) = .ok (letterOf d) := by decide
  exact hall ⟨digit, hdigit⟩

theorem head?_base58Text_ne (n : ℕ) : (base58Text n).head? ≠ some (letterOf 0) := by
  have hinj : ∀ d : Fin 58, letterOf d = letterOf 0 → d = 0 := by decide
  intro hhead
  rw [base58Text, List.head?_map, List.head?_reverse, Option.map_eq_some_iff] at hhead
  obtain ⟨digit, hlast, hletter⟩ := hhead
  have hlt := Nat.digits_lt_base (by decide : 1 < 58) (List.mem_of_getLast? hlast)
  have hzero : digit = 0 := congrArg Fin.val (hinj ⟨digit, hlt⟩ hletter)
  have hne : n ≠ 0 := by
    rintro rfl
    cases hlast
  rw [List.getLast?_eq_some_getLast (Nat.digits_ne_nil_iff_ne_zero.mpr hne)] at hlast
  exact Nat.getLast_digit_ne_zero 58 hne ((Option.some.inj hlast).trans hzero)

section Translate

theorem translate_spec (digits : List ℕ) : ∀ (b : CharBuffer) (it text : ℤ),
    (∀ d ∈ digits, d < 58) → 0 ≤ text → text ≤ it → text + digits.length ≤ b.size →
    b.Holds it (toBytes digits) →
    ∃ b', translate digits.length it text b = .ok (text + digits.length, b') ∧
      SameOutside text (text + digits.length) b b' ∧ b'.Holds text (digits.map letterOf) := by
  induction digits with
  | nil =>
    intro b it text _ _ _ _ _
    exact ⟨b, by rw [List.length_nil, translate]; simp, .refl, trivial⟩
  | cons d digits ih =>
    intro b it text hdigits htext hle hroom hholds
    have hd := hdigits d (List.mem_cons_self ..)
    have hdigits' : ∀ e ∈ digits, e < 58 := fun e he ↦ hdigits e (List.mem_cons_of_mem _ he)
    obtain ⟨hload, hrest⟩ := hholds
    rw [List.length_cons] at hroom ⊢
    let b₁ := b.set text (letterOf d)
    have hsize : b₁.size = b.size := size_set
    have h₁ : SameOutside text (text + 1) b b₁ := sameOutside_set htext
    obtain ⟨b', hrun, hsame, hholds'⟩ := ih b₁ (it + 1) (text + 1) hdigits'
      (by omega) (by omega) (by omega) (hrest.frame h₁ (by omega))
    obtain ⟨hsame', hload'⟩ := hsame.above_set htext (by omega) (by omega)
    refine ⟨b', ?_, hsame'.mono le_rfl (by omega), hload', hholds'⟩
    rw [translate, load_eq_ok hload, ok_bind, letter_spec hd, ok_bind,
      store_eq_ok _ htext (by omega), ok_bind, hrun]
    congr 2
    omega

variable {b : CharBuffer}

theorem Stores.holds {b58End : ℤ} {n : ℕ} (h : Stores b b58End n) :
    b.Holds (b58End - (Nat.digits 58 n).length) (toBytes (Nat.digits 58 n).reverse) := by
  have hup := HoldsDown.holds h
  have hstart : b58End - 1 - ((toBytes (Nat.digits 58 n)).length : ℤ) + 1 =
      b58End - (Nat.digits 58 n).length := by
    rw [toBytes, List.length_map]
    omega
  rwa [hstart, toBytes, ← List.map_reverse] at hup

theorem translate_stored {b58End out : ℤ} {n : ℕ} (hout : 0 ≤ out)
    (hspace : out + (Nat.digits 58 n).length ≤ b58End) (hend : b58End ≤ b.size)
    (hstores : Stores b b58End n) {k : ℕ} (hk : k ≤ (Nat.digits 58 n).length) :
    ∃ b', translate k (b58End - (Nat.digits 58 n).length) out b = .ok (out + k, b') ∧
      SameOutside out (out + k) b b' ∧ b'.Holds out ((base58Text n).take k) ∧
      b'.Holds (b58End - (Nat.digits 58 n).length + k)
        (toBytes ((Nat.digits 58 n).reverse.drop k)) := by
  have hholds := hstores.holds
  rw [← List.take_append_drop k (Nat.digits 58 n).reverse, toBytes, List.map_append,
    holds_append] at hholds
  obtain ⟨hread, hrest⟩ := hholds
  have hlength : ((Nat.digits 58 n).reverse.take k).length = k :=
    List.length_take_of_le (by rw [List.length_reverse]; exact hk)
  have hsmall : ∀ d ∈ (Nat.digits 58 n).reverse.take k, d < 58 := fun d hd ↦
    Nat.digits_lt_base (by decide) (List.mem_reverse.mp (List.mem_of_mem_take hd))
  obtain ⟨b', hrun, hsame, htext⟩ := translate_spec _ b _ out hsmall hout (by omega)
    (by rw [hlength]; omega) hread
  rw [hlength] at hrun hsame
  rw [List.length_map, hlength] at hrest
  refine ⟨b', hrun, hsame, ?_, hrest.frame hsame (.inr (by omega))⟩
  rw [base58Text, ← List.map_take]
  exact htext

theorem encode_spec {inputData : Bytes} (hsize : inputData.length * 350 < 2 ^ 64) {out : ℤ}
    (hout : 0 ≤ out)
    (hroom : out + expectedEncodedSize (skipZeros inputData).length < b.size) :
    ∃ b', (∀ word, Exact word → encode word inputData out b =
        .ok (out + (base58Text (bigEndian inputData)).length + 1, b')) ∧
      SameOutside out (out + expectedEncodedSize (skipZeros inputData).length + 1) b b' ∧
      b'.Holds out (base58Text (bigEndian inputData) ++ [0]) := by
  have henough := length_digits_le_space hsize
  obtain ⟨b₁, hdigits, hsame₁, hstores⟩ := encodeDigits_spec hsize hout hroom.le
  have hsize₁ := hsame₁.size
  rw [length_base58Text]
  obtain ⟨b₂, htranslate, hsame₂, htext, -⟩ := translate_stored hout (by omega) (by omega) hstores
    le_rfl
  have hsize₂ := hsame₂.size
  rw [← length_base58Text, List.take_length] at htext
  let b' := b₂.set (out + (Nat.digits 58 (bigEndian inputData)).length) 0
  have hset : SameOutside (out + (Nat.digits 58 (bigEndian inputData)).length)
      (out + (Nat.digits 58 (bigEndian inputData)).length + 1) b₂ b' :=
    sameOutside_set (by omega)
  refine ⟨b', fun word hword ↦ ?_, ?_, holds_append.mpr ⟨?_, ?_⟩⟩
  · have hfirst : out + (expectedEncodedSize (skipZeros inputData).length : ℤ) - 1 -
        (Nat.digits 58 (bigEndian inputData)).length + 1 =
        out + (expectedEncodedSize (skipZeros inputData).length : ℤ) -
          (Nat.digits 58 (bigEndian inputData)).length := by omega
    have hcount : (out + (expectedEncodedSize (skipZeros inputData).length : ℤ) -
        (out + (expectedEncodedSize (skipZeros inputData).length : ℤ) -
          (Nat.digits 58 (bigEndian inputData)).length)).toNat =
        (Nat.digits 58 (bigEndian inputData)).length := by omega
    rw [encode, hdigits word hword, ok_bind]
    dsimp only
    rw [hfirst, hcount, htranslate, ok_bind]
    dsimp only
    rw [store_eq_ok _ (by omega) (by omega), ok_bind]
    rfl
  · exact ((hsame₁.mono le_rfl (by omega)).trans (hsame₂.mono le_rfl (by omega))).trans
      (hset.mono (by omega) (by omega))
  · exact htext.frame hset (.inl (by rw [length_base58Text]))
  · rw [holds_singleton, length_base58Text]
    exact load_set_self (by omega) (by omega)

end Translate

/-- The block-wise encoding. A run with checked words is the run with wrapping ones, the digits stay
inside a buffer of the size computed in advance, and each digit is translated as it was stored. -/
theorem base58_encoding (inputData : Bytes) (hsize : inputData.length * 350 < 2 ^ 64) :
    let n := bigEndian inputData
    let space := expectedEncodedSize (skipZeros inputData).length
    (n = 0 → base58Text n = []) ∧ (base58Text n).head? ≠ some (letterOf 0) ∧
    (∀ tight : CharBuffer, tight.size = space →
      ∃ b, encodeDigits checked inputData 0 tight = .ok (space - 1 - (Nat.digits 58 n).length, b)) ∧
    ∀ (out : ℤ) (b : CharBuffer), 0 ≤ out → out + space < b.size →
      (∃ digitBuffer,
        encodeDigits wrapping inputData out b =
          .ok (out + space - 1 - (Nat.digits 58 n).length, digitBuffer) ∧
        encodeDigits checked inputData out b = encodeDigits wrapping inputData out b ∧
        SameOutside out (out + space) b digitBuffer ∧
        ∀ k ≤ (Nat.digits 58 n).length, ∃ b',
          translate k (out + space - (Nat.digits 58 n).length) out digitBuffer =
            .ok (out + k, b') ∧
          b'.Holds out ((base58Text n).take k) ∧
          b'.Holds (out + space - (Nat.digits 58 n).length + k)
            (toBytes ((Nat.digits 58 n).reverse.drop k))) ∧
      ∃ b', encode wrapping inputData out b = .ok (out + (base58Text n).length + 1, b') ∧
        encode checked inputData out b = encode wrapping inputData out b ∧
        SameOutside out (out + space + 1) b b' ∧
        b'.Holds out (base58Text n ++ [0]) := by
  have henough := length_digits_le_space hsize
  refine ⟨fun hzero ↦ ?_, head?_base58Text_ne _, fun tight htight ↦ ?_,
    fun out b hout hroom ↦ ⟨?_, ?_⟩⟩
  · rw [hzero, base58Text, Nat.digits_zero, List.reverse_nil, List.map_nil]
  · obtain ⟨b, hdigits, -, -⟩ := encodeDigits_spec hsize le_rfl (b := tight)
      (by rw [htight, zero_add])
    exact ⟨b, by rw [hdigits checked exact_checked, zero_add]⟩
  · obtain ⟨digitBuffer, hdigits, hsame, hstores⟩ := encodeDigits_spec hsize hout hroom.le
    have hsize' := hsame.size
    refine ⟨digitBuffer, hdigits wrapping exact_wrapping, ?_, hsame, fun k hk ↦ ?_⟩
    · rw [hdigits checked exact_checked, hdigits wrapping exact_wrapping]
    · obtain ⟨b', htranslate, -, htext, hrest⟩ := translate_stored hout
        (Int.add_le_add_left (Int.ofNat_le.mpr henough) out) (by rw [hsize']; exact hroom.le)
        hstores hk
      exact ⟨b', htranslate, htext, hrest⟩
  · obtain ⟨b', hencode, hsame, hholds⟩ := encode_spec hsize hout hroom
    refine ⟨b', hencode wrapping exact_wrapping, ?_, hsame, hholds⟩
    rw [hencode checked exact_checked, hencode wrapping exact_wrapping]

/-- The number 256 with a zero byte in front is `5R`. -/
theorem two_digit_encoding : ([0, 1, 0] : Bytes).length * 350 < 2 ^ 64 ∧
    ∃ b', encode wrapping [0, 1, 0] 0 ⟨List.replicate 4 7, by decide⟩ = .ok (3, b') ∧
      b'.Holds 0 (ascii "5R".toList ++ [0]) := by
  have htext : base58Text (bigEndian [0, 1, 0]) = ascii "5R".toList := by decide +kernel
  obtain ⟨-, -, -, hencode⟩ := base58_encoding [0, 1, 0] (by decide)
  obtain ⟨-, b', hrun, -, -, hholds⟩ :=
    hencode 0 ⟨List.replicate 4 7, by decide⟩ le_rfl (by decide)
  rw [htext] at hrun hholds
  exact ⟨by decide, b', hrun, hholds⟩

theorem expectedEncodedSize_le {size : ℕ} (hsize : size ≤ 37) : expectedEncodedSize size ≤ 51 := by
  rw [expectedEncodedSize, sizeT, Nat.mod_eq_of_lt (by omega)]
  omega

def publicKeyText (addressPrefix : Bytes) (hash : Bytes → UInt32) (keyData : Fin 33 → UInt8) :
    Bytes :=
  addressPrefix ++
    (base58Text (bigEndian (List.ofFn keyData ++ bytesOf (hash (List.ofFn keyData)))) ++ [0])

theorem publicKeyIntoBuf_spec (addressPrefix : Bytes) (hash : Bytes → UInt32)
    (keyData : Fin 33 → UInt8) (hlong : sizeBuffer addressPrefix < 2 ^ 63) (b : CharBuffer) :
    if sizeBuffer addressPrefix ≤ b.size then
      ∃ p b', publicKeyIntoBuf addressPrefix hash keyData b = .ok (p, b') ∧
        b'.upTo p = publicKeyText addressPrefix hash keyData ∧
        SameOutside 0 (sizeBuffer addressPrefix) b b'
    else publicKeyIntoBuf addressPrefix hash keyData b = .error (.conversionOverrun
      "Could not write hive::protocol::public_key_type: buffer too small.") := by
  let dataToEncode := List.ofFn keyData ++ bytesOf (hash (List.ofFn keyData))
  rw [publicKeyIntoBuf, toLong_eq hlong]
  split_ifs with hroom hsmall hsmall
  · omega
  · have hlength : dataToEncode.length = 37 := by
      rw [List.length_append, List.length_ofFn]
      rfl
    have hspace := expectedEncodedSize_le ((skipZeros_length_le dataToEncode).trans hlength.le)
    have hbuffer : (sizeBuffer addressPrefix : ℤ) = 51 + addressPrefix.length + 1 := rfl
    obtain ⟨b₁, hstart, hsame₁, hholds₁⟩ := storeAll_spec (b := b) (p := 0)
      (l := addressPrefix) le_rfl (by omega)
    have hsize₁ := hsame₁.size
    have hfits : dataToEncode.length * 350 < 2 ^ 64 := by
      rw [hlength]
      decide
    obtain ⟨b', hencode, hsame, hholds⟩ := encode_spec hfits (b := b₁)
      (Int.natCast_nonneg addressPrefix.length) (by omega)
    have hall : b'.Holds 0 (publicKeyText addressPrefix hash keyData) := by
      rw [publicKeyText, holds_append, zero_add]
      exact ⟨hholds₁.frame hsame (.inl (by omega)), hholds⟩
    have hpointer : (addressPrefix.length : ℤ) + (base58Text (bigEndian dataToEncode)).length + 1 =
        (publicKeyText addressPrefix hash keyData).length := by
      simp only [publicKeyText, List.length_append, List.length_singleton, dataToEncode]
      omega
    refine ⟨_, b', ?_, upTo_eq_of_holds hall, ?_⟩
    · rw [hstart, ← hpointer]
      exact hencode wrapping exact_wrapping
    · exact (hsame₁.mono le_rfl (by omega)).trans (hsame.mono (by omega) (by omega))
  · rfl
  · omega

theorem bigEndian_inj {bytes bytes' : Bytes} (hlength : bytes.length = bytes'.length)
    (h : bigEndian bytes = bigEndian bytes') : bytes = bytes' := by
  rw [bigEndian_eq_ofDigits, bigEndian_eq_ofDigits] at h
  have hdigits := Nat.ofDigits_inj_of_len_eq (by decide) (by simpa using hlength)
    (forall_digit_lt bytes) (forall_digit_lt bytes') h
  exact List.map_injective_iff.mpr (fun _ _ ↦ UInt8.toNat_inj.mp) (List.reverse_injective hdigits)

theorem base58Text_injective : Function.Injective base58Text := by
  have hletter : ∀ digit : Fin 58, alphabet.idxOf (letterOf digit) = digit := by decide
  have hread : ∀ n, (base58Text n).map alphabet.idxOf = (Nat.digits 58 n).reverse := by
    intro n
    rw [base58Text, List.map_map]
    refine (List.map_congr_left fun digit hdigit ↦ ?_).trans (List.map_id _)
    exact hletter ⟨digit, Nat.digits_lt_base (by decide) (List.mem_reverse.mp hdigit)⟩
  intro n n' h
  refine (Nat.digits_inj_iff (b := 58)).mp (List.reverse_injective ?_)
  rw [← hread, ← hread, h]

theorem publicKeyText_injective (addressPrefix : Bytes) (hash : Bytes → UInt32) :
    Function.Injective (publicKeyText addressPrefix hash) := by
  intro keyData keyData' h
  have hdata := bigEndian_inj (by simp [bytesOf]) (base58Text_injective
    (List.append_cancel_right (List.append_cancel_left h)))
  exact List.ofFn_injective (List.append_inj_left hdata (by simp))

/-- Every public key has a text of its own, whatever the checksum, and a buffer of the announced
size takes it. -/
theorem public_keys_written_distinctly (addressPrefix : Bytes) (hash : Bytes → UInt32)
    (hlong : sizeBuffer addressPrefix < 2 ^ 63) {b : CharBuffer}
    (hroom : sizeBuffer addressPrefix ≤ b.size) :
    (∀ keyData, ∃ p b', publicKeyIntoBuf addressPrefix hash keyData b = .ok (p, b') ∧
      b'.upTo p = publicKeyText addressPrefix hash keyData ∧
      SameOutside 0 (sizeBuffer addressPrefix) b b') ∧
    Function.Injective (publicKeyText addressPrefix hash) := by
  refine ⟨fun keyData ↦ ?_, publicKeyText_injective addressPrefix hash⟩
  have hspec := publicKeyIntoBuf_spec addressPrefix hash keyData hlong b
  rw [if_pos hroom] at hspec
  exact hspec

theorem stm_key_written : ∃ p b',
    publicKeyIntoBuf (ascii "STM".toList) (fun _ ↦ 0) (fun i ↦ (i.val / 32).toUInt8)
        ⟨List.replicate 55 7, by decide⟩ = .ok (p, b') ∧
      b'.upTo p = ascii "STM7YXq9H".toList ++ [0] := by
  obtain ⟨hwritten, -⟩ := public_keys_written_distinctly (ascii "STM".toList) (fun _ ↦ 0)
    (by decide) (b := ⟨List.replicate 55 7, by decide⟩) (by decide)
  obtain ⟨p, b', hok, htext, -⟩ := hwritten fun i ↦ (i.val / 32).toUInt8
  exact ⟨p, b', hok, htext.trans (by decide +kernel)⟩

end Base58

end HiveForkManager
