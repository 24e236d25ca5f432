import HiveForkManager.LogFile
import HiveForkManager.Lib.CharBuffer
import HiveForkManager.Lib.ExceptList

namespace HiveForkManager

open ExceptList

namespace PqxxConversion

inductive ConversionError where
  | conversionOverrun (message : String)
  | failure (message : String)
  | outOfBounds
  deriving DecidableEq, Repr

abbrev Conversion := Except ConversionError

def load (b : CharBuffer) (p : ℤ) : Conversion UInt8 :=
  (b.load p).elim (.error .outOfBounds) .ok

def store (b : CharBuffer) (p : ℤ) (v : UInt8) : Conversion CharBuffer :=
  (b.store p v).elim (.error .outOfBounds) .ok

def sizeT (n : ℕ) : ℕ := n % 2 ^ 64

def toLong (n : ℕ) : ℤ := if n < 2 ^ 63 then n else n - 2 ^ 64

def sizeEscBin (binaryBytes : ℕ) : ℕ := sizeT (2 + sizeT (2 * binaryBytes) + 1)

def hexDigits : Bytes := ascii "0123456789abcdef".toList

/-- An entry of `hex_lut`: the first digit in the low byte, the second in the high byte. -/
def hexPair (byte : UInt8) : UInt16 :=
  let lo := hexDigits.getD (byte &&& 0x0f).toNat 0
  let hi := hexDigits.getD (byte >>> 4).toNat 0
  hi.toUInt16 ||| (lo.toUInt16 <<< 8)

def charValue (c : UInt8) : ℤ := c.toInt8.toInt

def nibble (c : ℤ) : ℤ :=
  if 48 ≤ c ∧ c ≤ 57 then c - 48
  else if 97 ≤ c ∧ c ≤ 102 then 10 + (c - 97)
  else if 65 ≤ c ∧ c ≤ 70 then 10 + (c - 65)
  else -1

def escBinLoop : Bytes → ℤ → CharBuffer → Conversion (ℤ × CharBuffer)
  | [], here, b => .ok (here, b)
  | byte :: rest, here, b => do
    let b ← store b here (hexPair byte).toUInt8
    let b ← store b (here + 1) (hexPair byte >>> 8).toUInt8
    escBinLoop rest (here + 2) b

def escBin (binaryData : Bytes) (buffer : CharBuffer) : Conversion CharBuffer := do
  let b ← store buffer 0 92
  let b ← store b 1 120
  let (here, b) ← escBinLoop binaryData 2 b
  store b here 0

def invalidHex : ConversionError := .failure "Invalid hex-escaped data."

def unescBinLoop : Bytes → ℤ → CharBuffer → Conversion CharBuffer
  | [], _, b => .ok b
  | [c], _, _ => if nibble (charValue c) < 0 then .error invalidHex else .error .outOfBounds
  | c :: d :: rest, out, b =>
    let hi := nibble (charValue c)
    let lo := nibble (charValue d)
    if hi < 0 then .error invalidHex
    else if lo < 0 then .error invalidHex
    else do
      let b ← store b out (UInt8.ofNat (hi.toNat <<< 4 ||| lo.toNat))
      unescBinLoop rest (out + 1) b

def unescBin (escapedData : Bytes) (buffer : CharBuffer) : Conversion CharBuffer :=
  if escapedData.length < 2 then .error (.failure "Binary data appears truncated.")
  else if escapedData.length % 2 ≠ 0 then .error (.failure "Invalid escaped binary length.")
  else if escapedData.take 2 ≠ [92, 120] then .error (.failure
    "Escaped binary data did not start with '\\x'`.  Is the server or libpq too old?")
  else unescBinLoop (escapedData.drop 2) 0 buffer

def sizeUnescBin (escapedBytes : ℕ) : ℕ := sizeT (escapedBytes + 2 ^ 64 - 2) / 2

def intoBufFixed (typeName : String) (data : Bytes) (b : CharBuffer) :
    Conversion (ℤ × CharBuffer) :=
  if (b.size : ℤ) < toLong (sizeEscBin data.length) then
    .error (.conversionOverrun ("Could not write " ++ typeName ++ ": buffer too small."))
  else do
    let b ← escBin data b
    return (sizeEscBin data.length, b)

def ripemd160IntoBuf (hash : Fin 20 → UInt8) : CharBuffer → Conversion (ℤ × CharBuffer) :=
  intoBufFixed "fc::ripemd160" (List.ofFn hash)

def compactSignatureIntoBuf (signature : Fin 65 → UInt8) :
    CharBuffer → Conversion (ℤ × CharBuffer) :=
  intoBufFixed "fc::ecc::compact_signature" (List.ofFn signature)

variable {p : ℤ} {b' result : CharBuffer}

theorem load_eq_ok {b : CharBuffer} {v : UInt8} (h : b.load p = some v) :
    load b p = .ok v := by
  rw [load, h]
  rfl

theorem store_eq_ok {b : CharBuffer} (v : UInt8) (hp : 0 ≤ p) (hlt : p < b.size) :
    store b p v = .ok (b.set p v) := by
  rw [store, CharBuffer.store_eq_some hp hlt]
  rfl

def hexOf (byte : UInt8) : Bytes := [(hexPair byte).toUInt8, (hexPair byte >>> 8).toUInt8]

def hexText (data : Bytes) : Bytes := data.flatMap hexOf

/-- What `esc_bin` writes before the terminator. -/
def escText (data : Bytes) : Bytes := 92 :: 120 :: hexText data

@[simp] theorem length_hexText (data : Bytes) : (hexText data).length = 2 * data.length := by
  induction data with
  | nil => rfl
  | cons byte data ih =>
    rw [hexText, List.flatMap_cons, List.length_append, List.length_cons, ← hexText, ih, hexOf]
    simp only [List.length_cons, List.length_nil]
    omega

@[simp] theorem length_escText (data : Bytes) : (escText data).length = 2 * data.length + 2 := by
  rw [escText, List.length_cons, List.length_cons, length_hexText]

theorem hexText_cons (byte : UInt8) (data : Bytes) :
    hexText (byte :: data) = (hexPair byte).toUInt8 :: (hexPair byte >>> 8).toUInt8 ::
      hexText data := rfl

theorem nibble_hexPair (byte : UInt8) : ∃ hi lo : ℕ,
    nibble (charValue (hexPair byte).toUInt8) = hi ∧
      nibble (charValue (hexPair byte >>> 8).toUInt8) = lo ∧
      UInt8.ofNat (hi <<< 4 ||| lo) = byte := by
  have hall : ∀ n : Fin 256,
      nibble (charValue (hexPair (UInt8.ofNat n)).toUInt8) = (n.val / 16 : ℕ) ∧
        nibble (charValue (hexPair (UInt8.ofNat n) >>> 8).toUInt8) = (n.val % 16 : ℕ) ∧
        UInt8.ofNat ((n.val / 16) <<< 4 ||| n.val % 16) = UInt8.ofNat n := by
    decide +kernel
  have hbyte := hall ⟨byte.toNat, byte.toNat_lt⟩
  rw [UInt8.ofNat_toNat] at hbyte
  exact ⟨_, _, hbyte⟩

open CharBuffer hiding load store

variable {b : CharBuffer} {data : Bytes}

theorem escBinLoop_spec {here : ℤ} (hhere : 0 ≤ here) (hroom : here + 2 * data.length ≤ b.size) :
    ∃ b', escBinLoop data here b = .ok (here + 2 * data.length, b') ∧
      SameOutside here (here + 2 * data.length) b b' ∧ b'.Holds here (hexText data) := by
  induction data generalizing here b with
  | nil => exact ⟨b, by rw [escBinLoop]; simp, .refl, trivial⟩
  | cons byte data ih =>
    rw [List.length_cons] at hroom ⊢
    let b₁ := b.set here (hexPair byte).toUInt8
    let b₂ := b₁.set (here + 1) (hexPair byte >>> 8).toUInt8
    have hsize₁ : b₁.size = b.size := size_set
    have hsize₂ : b₂.size = b.size := size_set.trans hsize₁
    have hroom₂ : here + 2 + 2 * data.length ≤ b₂.size := by omega
    obtain ⟨b', hloop, hsame, hholds⟩ := ih (by omega) hroom₂
    obtain ⟨h₂, hload₂⟩ := (hsame.mono (by omega) le_rfl).above_set (p := here + 1) (b := b₁)
      (by omega) (by omega) (by omega)
    obtain ⟨h₁, hload₁⟩ := h₂.above_set (b := b) hhere (by omega) (by omega)
    refine ⟨b', ?_, h₁.mono le_rfl (by omega), hload₁, hload₂, ?_⟩
    · rw [escBinLoop, store_eq_ok _ hhere (by omega), ok_bind,
        store_eq_ok _ (by omega) (by rw [size_set]; omega), ok_bind, hloop]
      congr 2
      omega
    · rw [add_assoc]
      exact hholds

theorem escBin_spec (hroom : 2 * data.length + 3 ≤ b.size) :
    ∃ b', escBin data b = .ok b' ∧ SameOutside 0 (2 * data.length + 3) b b' ∧
      b'.Holds 0 (escText data ++ [0]) := by
  let b₁ := b.set 0 92
  let b₂ := b₁.set 1 120
  have hsize₁ : b₁.size = b.size := size_set
  have hsize₂ : b₂.size = b.size := size_set.trans hsize₁
  have hroom₂ : (2 : ℤ) + 2 * data.length ≤ b₂.size := by omega
  obtain ⟨b₃, hloop, hsame, hholds⟩ := escBinLoop_spec (by omega) hroom₂
  have h₁ : SameOutside 0 1 b b₁ := sameOutside_set le_rfl
  have h₂ : SameOutside 1 2 b₁ b₂ := sameOutside_set (by omega)
  have hsize₃ : b₃.size = b.size := hsame.size.trans hsize₂
  have h₄ : SameOutside (2 + 2 * data.length) (2 + 2 * data.length + 1) b₃
      (b₃.set (2 + 2 * data.length) 0) := sameOutside_set (by omega)
  refine ⟨b₃.set (2 + 2 * data.length) 0, ?_, ?_, ?_⟩
  · rw [escBin, store_eq_ok _ le_rfl (by omega), ok_bind,
      store_eq_ok _ (by omega) (by rw [size_set]; omega), ok_bind, hloop,
      ok_bind]
    exact store_eq_ok _ (by omega) (by omega)
  · exact (h₁.mono (by omega) (by omega)).trans ((h₂.mono (by omega) (by omega)).trans
      ((hsame.mono (by omega) (by omega)).trans (h₄.mono (by omega) (by omega))))
  · rw [holds_append, length_escText, holds_singleton]
    refine ⟨⟨?_, ?_, ?_⟩, ?_⟩
    · rw [h₄.load _ (by omega), hsame.load _ (by omega), h₂.load _ (by omega)]
      exact load_set_self le_rfl (by omega)
    · rw [h₄.load _ (by omega), hsame.load _ (by omega)]
      exact load_set_self (by omega) (by omega)
    · exact hholds.frame h₄ (by rw [length_hexText]; omega)
    · have hlast : (0 : ℤ) + ((2 * data.length + 2 : ℕ) : ℤ) = 2 + 2 * data.length := by omega
      rw [hlast]
      exact load_set_self (by omega) (by omega)

theorem unescBinLoop_spec {out : ℤ} (hout : 0 ≤ out) (hroom : out + data.length ≤ b.size) :
    ∃ b', unescBinLoop (hexText data) out b = .ok b' ∧
      SameOutside out (out + data.length) b b' ∧ b'.Holds out data := by
  induction data generalizing out b with
  | nil => exact ⟨b, rfl, .refl, trivial⟩
  | cons byte data ih =>
    rw [List.length_cons] at hroom ⊢
    obtain ⟨hi, lo, hhi, hlo, hbyte⟩ := nibble_hexPair byte
    have hroom' : out + 1 + data.length ≤ (b.set out byte).size := by
      rw [size_set]
      omega
    obtain ⟨b', hloop, hsame, hholds⟩ := ih (by omega) hroom'
    obtain ⟨hsame', hload⟩ := hsame.above_set hout (by omega) (by omega)
    refine ⟨b', ?_, hsame'.mono le_rfl (by omega), hload, hholds⟩
    rw [hexText_cons, unescBinLoop]
    simp only [hhi, hlo, Int.toNat_natCast, hbyte]
    rw [if_neg (by omega), if_neg (by omega), store_eq_ok _ hout (by omega), ok_bind, hloop]

theorem unescBin_escText (hsize : b.size = data.length) :
    ∃ b', unescBin (escText data) b = .ok b' ∧ b'.bytes = data := by
  have hroom : (0 : ℤ) + data.length ≤ b.size := by omega
  obtain ⟨b', hloop, hsame, hholds⟩ := unescBinLoop_spec le_rfl hroom
  refine ⟨b', ?_, ?_⟩
  · rw [unescBin, if_neg (by rw [length_escText]; omega),
      if_neg (by rw [length_escText]; omega), if_neg (by simp [escText])]
    exact hloop
  · have hall := upTo_eq_of_holds hholds
    have hlength : b'.bytes.length ≤ data.length := le_of_eq (hsame.size.trans hsize)
    rwa [upTo, Int.toNat_natCast, List.take_of_length_le hlength] at hall

theorem sizeEscBin_eq {n : ℕ} (hn : 2 * n + 3 < 2 ^ 64) : sizeEscBin n = 2 * n + 3 := by
  rw [sizeEscBin, sizeT, sizeT, Nat.mod_eq_of_lt (by omega), Nat.mod_eq_of_lt (by omega)]
  omega

theorem toLong_eq {n : ℕ} (hn : n < 2 ^ 63) : toLong n = n := if_pos hn

theorem intoBufFixed_spec (typeName : String) (hsmall : 2 * data.length + 3 < 2 ^ 63) :
    if 2 * data.length + 3 ≤ b.size then
      ∃ b', intoBufFixed typeName data b = .ok (2 * data.length + 3, b') ∧
        SameOutside 0 (2 * data.length + 3) b b' ∧ b'.Holds 0 (escText data ++ [0])
    else intoBufFixed typeName data b =
      .error (.conversionOverrun ("Could not write " ++ typeName ++ ": buffer too small.")) := by
  have hlong : toLong (sizeEscBin data.length) = 2 * data.length + 3 := by
    rw [sizeEscBin_eq (by omega), toLong_eq hsmall]
    omega
  rw [intoBufFixed, hlong]
  split_ifs with hroom hsize hsize
  · omega
  · obtain ⟨b', hesc, hsame, hholds⟩ := escBin_spec hroom
    refine ⟨b', ?_, hsame, hholds⟩
    rw [hesc, ok_bind, sizeEscBin_eq (by omega)]
    rfl
  · rfl
  · omega

/-- A fixed-size value is written into the announced space, and `unesc_bin` reads it back. -/
theorem fixed_size_round_trip (typeName : String) (hsmall : 2 * data.length + 3 < 2 ^ 63)
    (hroom : 2 * data.length + 3 ≤ b.size) (hresult : result.size = data.length) :
    ∃ p b' r, intoBufFixed typeName data b = .ok (p, b') ∧
      SameOutside 0 (2 * data.length + 3) b b' ∧
      unescBin (b'.upTo (p - 1)) result = .ok r ∧ r.bytes = data := by
  have hspec := intoBufFixed_spec (b := b) typeName hsmall
  rw [if_pos hroom] at hspec
  obtain ⟨b', hok, hsame, hholds⟩ := hspec
  have htext := upTo_eq_of_holds (holds_append.mp hholds).1
  have hlength : ((escText data).length : ℤ) = 2 * data.length + 3 - 1 := by
    rw [length_escText]
    omega
  rw [hlength] at htext
  obtain ⟨r, hread, hr⟩ := unescBin_escText hresult
  exact ⟨_, b', r, hok, hsame, by rw [htext, hread], hr⟩

theorem ripemd160_round_trip : ∃ p b' r,
    ripemd160IntoBuf (fun i ↦ i.val.toUInt8) ⟨List.replicate 43 7, by decide⟩ = .ok (p, b') ∧
      SameOutside 0 43 ⟨List.replicate 43 7, by decide⟩ b' ∧
      unescBin (b'.upTo (p - 1)) ⟨List.replicate 20 7, by decide⟩ = .ok r ∧
      r.bytes = List.ofFn fun i : Fin 20 ↦ i.val.toUInt8 :=
  fixed_size_round_trip "fc::ripemd160" (by decide) (by decide) (by decide)

end PqxxConversion

end HiveForkManager
