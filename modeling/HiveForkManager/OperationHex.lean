import HiveForkManager.PqxxConversion

namespace HiveForkManager

open ExceptList

namespace OperationHex

open PqxxConversion

def tooSmall : ConversionError :=
  .conversionOverrun "Could not write hive::protocol::operation: buffer too small."

/-- `fc::raw::pack` into the buffer. A packed operation is given by its bytes. -/
def pack (raw : Bytes) (b : CharBuffer) : Conversion CharBuffer :=
  (b.storeAll 0 raw).elim (.error tooSmall) .ok

def expand : ℕ → ℤ → ℤ → CharBuffer → Conversion (ℤ × CharBuffer)
  | 0, _, cookedPointer, b => .ok (cookedPointer, b)
  | n + 1, rawPointer, cookedPointer, b => do
    let asUnsigned ← load b rawPointer
    let pair := hexPair asUnsigned
    let b ← store b cookedPointer (pair >>> 8).toUInt8
    let b ← store b (cookedPointer - 1) (pair &&& 0xff).toUInt8
    expand n (rawPointer - 1) (cookedPointer - 2) b

def intoBuf (raw : Bytes) (b : CharBuffer) : Conversion (ℤ × CharBuffer) := do
  let b ← pack raw b
  let rawSize := raw.length
  if (b.size : ℤ) < toLong (sizeEscBin rawSize) then .error tooSmall
  else do
    let endOfData : ℤ := sizeT (rawSize * 2) + 3
    let nullTerminator := endOfData - 1
    let b ← store b nullTerminator 0
    let (cookedPointer, b) ← expand rawSize (rawSize - 1) (nullTerminator - 1) b
    let b ← store b cookedPointer 120
    let b ← store b (cookedPointer - 1) 92
    return (endOfData, b)

def sizeBuffer (raw : Bytes) : ℕ := sizeEscBin raw.length

def unpackedBytes (text : Bytes) (buffer : CharBuffer) : Conversion Bytes :=
  (unescBin text buffer).map CharBuffer.bytes

open CharBuffer hiding load store

variable {b : CharBuffer}

theorem toUInt8_and_mask (pair : UInt16) : (pair &&& 0xff).toUInt8 = pair.toUInt8 := by
  have hmask : (0xff : UInt16).toUInt8 = -1 := rfl
  rw [UInt16.toUInt8_and, hmask, UInt8.and_neg_one]

/-- The bytes still to be read lie before all that is written: the last of `k + 1` is at `k`, and
its digits go to `2 * k + 2` and `2 * k + 3`. -/
theorem expand_spec (front : Bytes) : ∀ {b : CharBuffer}, 2 * front.length + 2 ≤ b.size →
    b.Holds 0 front →
    ∃ b', expand front.length (front.length - 1) (2 * front.length + 1) b = .ok (1, b') ∧
      SameOutside 2 (2 * front.length + 2) b b' ∧ b'.Holds 2 (hexText front) := by
  induction front using List.reverseRecOn with
  | nil => exact fun _ _ ↦ ⟨_, rfl, .refl, trivial⟩
  | append_singleton front byte ih =>
    intro b hroom hholds
    rw [List.length_append, List.length_singleton] at hroom ⊢
    obtain ⟨hfront, hbyte⟩ := holds_append.mp hholds
    rw [holds_singleton, zero_add] at hbyte
    let b₁ := b.set (2 * (front.length + 1 : ℕ) + 1) (hexPair byte >>> 8).toUInt8
    let b₂ := b₁.set (2 * (front.length + 1 : ℕ) + 1 - 1) (hexPair byte).toUInt8
    have hsize₁ : b₁.size = b.size := size_set
    have hsize₂ : b₂.size = b.size := size_set.trans hsize₁
    have h₁ : SameOutside (2 * front.length + 3) (2 * front.length + 4) b b₁ :=
      (sameOutside_set (by omega)).mono (by omega) (by omega)
    have h₂ : SameOutside (2 * front.length + 2) (2 * front.length + 3) b₁ b₂ :=
      (sameOutside_set (by omega)).mono (by omega) (by omega)
    have hfront₂ : b₂.Holds 0 front := (hfront.frame h₁ (by omega)).frame h₂ (by omega)
    obtain ⟨b', hexpand, hsame, hhex⟩ := ih (by omega) hfront₂
    refine ⟨b', ?_, ?_, ?_⟩
    · have hraw : ((front.length + 1 : ℕ) : ℤ) - 1 = front.length := by omega
      have hcooked : 2 * ((front.length + 1 : ℕ) : ℤ) + 1 - 2 = 2 * front.length + 1 := by omega
      rw [expand, hraw, load_eq_ok hbyte, ok_bind]
      simp only [toUInt8_and_mask]
      rw [store_eq_ok _ (by omega) (by omega), ok_bind,
        store_eq_ok _ (by omega) (by rw [size_set]; omega), ok_bind, hcooked]
      exact hexpand
    · exact (h₁.mono (by omega) (by omega)).trans ((h₂.mono (by omega) (by omega)).trans
        (hsame.mono (by omega) (by omega)))
    · have hlast : hexText (front ++ [byte]) = hexText front ++
          [(hexPair byte).toUInt8, (hexPair byte >>> 8).toUInt8] := by
        rw [hexText, List.flatMap_append, List.flatMap_singleton]
        rfl
      rw [hlast, holds_append, length_hexText]
      refine ⟨hhex, ?_, ?_, trivial⟩
      · rw [hsame.load _ (by omega)]
        have hp : (2 : ℤ) + (2 * front.length : ℕ) = 2 * (front.length + 1 : ℕ) + 1 - 1 := by omega
        rw [hp]
        exact load_set_self (by omega) (by omega)
      · rw [hsame.load _ (by omega), h₂.load _ (by omega)]
        have hp : (2 : ℤ) + (2 * front.length : ℕ) + 1 = 2 * (front.length + 1 : ℕ) + 1 := by omega
        rw [hp]
        exact load_set_self (by omega) (by omega)

theorem intoBuf_spec {raw : Bytes} (hroom : 2 * raw.length + 3 ≤ b.size) :
    ∃ b', intoBuf raw b = .ok (2 * raw.length + 3, b') ∧
      SameOutside 0 (2 * raw.length + 3) b b' ∧ b'.Holds 0 (escText raw ++ [0]) := by
  have hsmall : 2 * raw.length + 3 < 2 ^ 63 := lt_of_le_of_lt hroom b.length_lt
  have hfit : (0 : ℤ) + raw.length ≤ b.size := by omega
  obtain ⟨b₁, hpack, h₁, hraw⟩ := storeAll_spec le_rfl hfit
  have hlong : toLong (sizeEscBin raw.length) = 2 * raw.length + 3 := by
    rw [sizeEscBin_eq (by omega), toLong_eq hsmall]
    omega
  have hdouble : (sizeT (raw.length * 2) : ℤ) + 3 = 2 * raw.length + 3 := by
    rw [sizeT, Nat.mod_eq_of_lt (by omega)]
    omega
  have hsize₁ := h₁.size
  let b₂ := b₁.set (2 * raw.length + 3 - 1) 0
  have hsize₂ : b₂.size = b₁.size := size_set
  have h₂ : SameOutside (2 * raw.length + 2) (2 * raw.length + 3) b₁ b₂ :=
    (sameOutside_set (by omega)).mono (by omega) (by omega)
  obtain ⟨b₃, hexpand, h₃, hhex⟩ := expand_spec raw (b := b₂) (by omega)
    (hraw.frame h₂ (by omega))
  have hsize₃ := h₃.size
  let b₄ := b₃.set 1 120
  let b₅ := b₄.set 0 92
  have hsize₄ : b₄.size = b₃.size := size_set
  have h₄ : SameOutside 1 2 b₃ b₄ := sameOutside_set (by omega)
  have h₅ : SameOutside 0 1 b₄ b₅ := sameOutside_set le_rfl
  refine ⟨b₅, ?_, ?_, ?_⟩
  · have hstart : (2 * raw.length + 3 : ℤ) - 1 - 1 = 2 * raw.length + 1 := by omega
    rw [intoBuf, pack, hpack]
    simp only [Option.elim_some, ok_bind, hlong, hdouble]
    rw [if_neg (by omega), store_eq_ok _ (by omega) (by omega), ok_bind, hstart,
      hexpand, ok_bind]
    simp only
    rw [store_eq_ok _ (by omega) (by omega), ok_bind,
      store_eq_ok _ (by omega) (by rw [size_set]; omega)]
    rfl
  · exact (h₁.mono (by omega) (by omega)).trans ((h₂.mono (by omega) (by omega)).trans
      ((h₃.mono (by omega) (by omega)).trans ((h₄.mono (by omega) (by omega)).trans
        (h₅.mono (by omega) (by omega)))))
  · rw [holds_append, length_escText, holds_singleton]
    refine ⟨⟨?_, ?_, ?_⟩, ?_⟩
    · exact load_set_self le_rfl (by omega)
    · rw [h₅.load _ (by omega)]
      exact load_set_self (by omega) (by omega)
    · exact (hhex.frame h₄ (by omega)).frame h₅ (by omega)
    · rw [h₅.load _ (by omega), h₄.load _ (by omega), h₃.load _ (by omega)]
      have hlast : (0 : ℤ) + ((2 * raw.length + 2 : ℕ) : ℤ) = 2 * raw.length + 3 - 1 := by omega
      rw [hlast]
      exact load_set_self (by omega) (by omega)

theorem sizeUnescBin_eq {n : ℕ} (hn : 2 * n < 2 ^ 64) : sizeUnescBin (2 * n + 2) = n := by
  have hwrap : (2 * n + 2 + 2 ^ 64 - 2) % 2 ^ 64 = 2 * n := by omega
  rw [sizeUnescBin, sizeT, hwrap]
  omega

/-- In a buffer of the size that `size_buffer` asks for, the in-place expansion leaves the text that
`esc_bin` writes for the packed bytes, and `unesc_bin` reads them back from it. -/
theorem operation_hex_in_place (raw : Bytes) (b buffer : CharBuffer)
    (hroom : 2 * raw.length + 3 ≤ b.size)
    (hbuffer : buffer.size = sizeUnescBin (2 * raw.length + 2)) :
    sizeBuffer raw = 2 * raw.length + 3 ∧
      ∃ inPlace ordinary, intoBuf raw b = .ok (2 * raw.length + 3, inPlace) ∧
        escBin raw b = .ok ordinary ∧
        inPlace.upTo (2 * raw.length + 3) = ordinary.upTo (2 * raw.length + 3) ∧
        inPlace.upTo (2 * raw.length + 3) = escText raw ++ [0] ∧
        unpackedBytes (inPlace.upTo (2 * raw.length + 2)) buffer = .ok raw := by
  have hsmall : 2 * raw.length + 3 < 2 ^ 63 := lt_of_le_of_lt hroom b.length_lt
  obtain ⟨inPlace, hinto, _, hholds⟩ := intoBuf_spec hroom
  obtain ⟨ordinary, hesc, _, hholds'⟩ := escBin_spec hroom
  have hlength : ((escText raw ++ [0]).length : ℤ) = 2 * raw.length + 3 := by
    rw [List.length_append, length_escText, List.length_singleton]
    omega
  have hlength' : ((escText raw).length : ℤ) = 2 * raw.length + 2 := by
    rw [length_escText]
    omega
  have htext := upTo_eq_of_holds hholds
  have htext' := upTo_eq_of_holds hholds'
  have hdigits := upTo_eq_of_holds (holds_append.mp hholds).1
  rw [hlength] at htext htext'
  rw [hlength'] at hdigits
  rw [sizeUnescBin_eq (by omega)] at hbuffer
  obtain ⟨unescaped, hunesc, hbytes⟩ := unescBin_escText hbuffer
  refine ⟨sizeEscBin_eq (by omega), inPlace, ordinary, hinto, hesc, htext.trans htext'.symm, htext,
    ?_⟩
  rw [unpackedBytes, hdigits, hunesc, Except.map, hbytes]

/-- Two bytes in a buffer of seven. -/
theorem two_bytes_hex_in_place :
    ∃ inPlace, intoBuf [0xde, 0x0a] ⟨List.replicate 7 0, by decide⟩ = .ok (7, inPlace) ∧
      inPlace.upTo 7 = ascii "\\xde0a".toList ++ [0] ∧
      unpackedBytes (inPlace.upTo 6) ⟨[1, 2], by decide⟩ = .ok [0xde, 0x0a] := by
  obtain ⟨-, inPlace, -, hinto, -, -, htext, hunpacked⟩ := operation_hex_in_place [0xde, 0x0a]
    ⟨List.replicate 7 0, by decide⟩ ⟨[1, 2], by decide⟩ (by decide) (by decide +kernel)
  have hesc : escText [0xde, 0x0a] = ascii "\\xde0a".toList := by decide +kernel
  rw [hesc] at htext
  exact ⟨inPlace, hinto, htext, hunpacked⟩

end OperationHex

end HiveForkManager
