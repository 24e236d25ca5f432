import Mathlib

namespace EscapeString

inductive Piece where
  | bytes (text : List UInt8)
  | close
  deriving DecidableEq, Repr

def isOctal (b : UInt8) : Bool := 48 ≤ b && b ≤ 55

def hexDigit (b : UInt8) : Option ℕ :=
  if 48 ≤ b ∧ b ≤ 57 then some (b.toNat - 48)
  else if 97 ≤ b ∧ b ≤ 102 then some (b.toNat - 87)
  else if 65 ≤ b ∧ b ≤ 70 then some (b.toNat - 55)
  else none

def isHex (b : UInt8) : Bool := (hexDigit b).isSome

def octalValue (digits : List UInt8) : ℕ := digits.foldl (fun n b ↦ 8 * n + (b.toNat - 48)) 0

def hexValue (digits : List UInt8) : ℕ := digits.foldl (fun n b ↦ 16 * n + (hexDigit b).getD 0) 0

def takeHex (count : ℕ) (input : List UInt8) : Except String (ℕ × List UInt8) :=
  let digits := input.take count
  if digits.length = count ∧ digits.all isHex then .ok (hexValue digits, input.drop count)
  else .error "invalid Unicode escape"

/-- The code that stands after the backslash of `\uXXXX` or `\UXXXXXXXX`. -/
def unicodeCode : List UInt8 → Except String (ℕ × List UInt8)
  | 117 :: rest => takeHex 4 rest
  | 85 :: rest => takeHex 8 rest
  | _ => .error "invalid Unicode surrogate pair"

def isSurrogateFirst (code : ℕ) : Bool := 0xD800 ≤ code && code ≤ 0xDBFF

def isSurrogateSecond (code : ℕ) : Bool := 0xDC00 ≤ code && code ≤ 0xDFFF

def addUnicode (code : ℕ) (rest : List UInt8) : Except String (Piece × List UInt8) :=
  if 0 < code ∧ code ≤ 0x10FFFF then
    .ok (.bytes (String.utf8EncodeChar (Char.ofNat code)), rest)
  else .error "invalid Unicode escape value"

def lexUnicode (input : List UInt8) : Except String (Piece × List UInt8) := do
  let (code, rest) ← unicodeCode input
  if isSurrogateFirst code then
    match rest with
    | 92 :: rest => do
      let (second, rest) ← unicodeCode rest
      if isSurrogateSecond second then
        addUnicode (0x10000 + (code - 0xD800) * 0x400 + (second - 0xDC00)) rest
      else .error "invalid Unicode surrogate pair"
    | _ => .error "invalid Unicode surrogate pair"
  else if isSurrogateSecond code then .error "invalid Unicode surrogate pair"
  else addUnicode code rest

def unescapeSingleChar (b : UInt8) : UInt8 :=
  if b = 98 then 8 else if b = 102 then 12 else if b = 110 then 10 else if b = 114 then 13
  else if b = 116 then 9 else if b = 118 then 11 else b

def lexEscape : List UInt8 → Except String (Piece × List UInt8)
  | [] => .error "unterminated quoted string"
  | b :: rest =>
    if isOctal b then
      let digits := ((b :: rest).take 3).takeWhile isOctal
      .ok (.bytes [UInt8.ofNat (octalValue digits)], (b :: rest).drop digits.length)
    else if b = 117 ∨ b = 85 then lexUnicode (b :: rest)
    else if b = 120 ∧ rest.head?.any isHex then
      let digits := (rest.take 2).takeWhile isHex
      .ok (.bytes [UInt8.ofNat (hexValue digits)], rest.drop digits.length)
    else .ok (.bytes [unescapeSingleChar b], rest)

def lexPiece : List UInt8 → Except String (Piece × List UInt8)
  | [] => .error "unterminated quoted string"
  | b :: rest =>
    if b = 39 then
      if rest.head? = some 39 then .ok (.bytes [39], rest.tail) else .ok (.close, rest)
    else if b = 92 then lexEscape rest
    else .ok (.bytes [b], rest)

/-- The body of a constant up to its closing quote, and what follows; a rule consumes a byte. -/
def scanBody : ℕ → List UInt8 → Except String (List UInt8 × List UInt8)
  | 0, _ => .error "unterminated quoted string"
  | fuel + 1, input => do
    let (piece, rest) ← lexPiece input
    match piece with
    | .close => .ok ([], rest)
    | .bytes text => do
      let (value, rest) ← scanBody fuel rest
      .ok (text ++ value, rest)

def verifyMbstr (value : List UInt8) : Bool := value.toByteArray.validateUTF8 && !value.contains 0

def decodeLiteral : List UInt8 → Except String (List UInt8 × List UInt8)
  | 69 :: 39 :: input => do
    let (value, rest) ← scanBody input.length input
    if verifyMbstr value then .ok (value, rest)
    else .error "invalid byte sequence for encoding \"UTF8\""
  | _ => .error "not an escape string constant"

section Rules

variable {rest : List UInt8}

theorem lexPiece_plain {b : UInt8} (hquote : b ≠ 39) (hbackslash : b ≠ 92) :
    lexPiece (b :: rest) = .ok (.bytes [b], rest) := by
  rw [lexPiece, if_neg hquote, if_neg hbackslash]

theorem lexPiece_octal {a b c : UInt8} (ha : isOctal a) (hb : isOctal b) (hc : isOctal c) :
    lexPiece (92 :: a :: b :: c :: rest) =
      .ok (.bytes [UInt8.ofNat (octalValue [a, b, c])], rest) := by
  simp [lexPiece, lexEscape, ha, hb, hc]

theorem takeHex_append {digits : List UInt8} (hdigits : digits.all isHex) :
    takeHex digits.length (digits ++ rest) = .ok (hexValue digits, rest) := by
  rw [takeHex, List.take_left, List.drop_left, if_pos ⟨rfl, hdigits⟩]

theorem lexUnicode_char {input : List UInt8} {c : Char}
    (hcode : unicodeCode input = .ok (c.toNat, rest)) :
    lexUnicode input = if c.toNat = 0 then .error "invalid Unicode escape value"
      else .ok (.bytes (String.utf8EncodeChar c), rest) := by
  have hvalid : c.toNat < 0xD800 ∨ 0xDFFF < c.toNat ∧ c.toNat < 0x110000 := c.valid
  have hfirst : isSurrogateFirst c.toNat = false := by
    simp only [isSurrogateFirst, Bool.and_eq_false_iff, decide_eq_false_iff_not]
    omega
  have hsecond : isSurrogateSecond c.toNat = false := by
    simp only [isSurrogateSecond, Bool.and_eq_false_iff, decide_eq_false_iff_not]
    omega
  have hadd : lexUnicode input = addUnicode c.toNat rest := by
    rw [lexUnicode, hcode]
    simp only [bind, Except.bind, hfirst, hsecond, Bool.false_eq_true, if_false]
  rw [hadd, addUnicode, Char.ofNat_toNat]
  split_ifs with hrange hzero hzero
  · omega
  · rfl
  · rfl
  · omega

theorem lexPiece_close (hrest : rest.head? ≠ some 39) :
    lexPiece (39 :: rest) = .ok (.close, rest) := by
  rw [lexPiece, if_pos rfl, if_neg hrest]

theorem scanBody_piece {fuel : ℕ} {input text : List UInt8}
    (hpiece : lexPiece input = .ok (.bytes text, rest)) :
    scanBody (fuel + 1) input = (scanBody fuel rest).map fun r ↦ (text ++ r.1, r.2) := by
  rw [scanBody, hpiece]
  simp only [bind, Except.bind, Except.map]

theorem scanBody_close {fuel : ℕ} (hrest : rest.head? ≠ some 39) :
    scanBody (fuel + 1) (39 :: rest) = .ok ([], rest) := by
  rw [scanBody, lexPiece_close hrest]
  rfl

end Rules

theorem scanBody_flatMap {α : Type*} (piece text : α → List UInt8) (items : List α)
    (hpiece : ∀ a ∈ items, ∀ rest, lexPiece (piece a ++ rest) = .ok (.bytes (text a), rest))
    {rest : List UInt8} (hrest : rest.head? ≠ some 39) :
    ∀ fuel, items.length < fuel →
      scanBody fuel (items.flatMap piece ++ 39 :: rest) = .ok (items.flatMap text, rest) := by
  induction items with
  | nil =>
    intro fuel hfuel
    cases fuel with
    | zero => cases hfuel
    | succ fuel => exact scanBody_close hrest
  | cons a items ih =>
    intro fuel hfuel
    cases fuel with
    | zero => cases hfuel
    | succ fuel =>
      have htail := ih (fun b hb ↦ hpiece b (List.mem_cons_of_mem _ hb)) fuel
        (Nat.lt_of_succ_lt_succ hfuel)
      rw [List.flatMap_cons, List.append_assoc,
        scanBody_piece (hpiece a (List.mem_cons_self ..) _), htail]
      rfl

theorem scanBody_append_error {α : Type*} (piece text : α → List UInt8) (items : List α)
    (hpiece : ∀ a ∈ items, ∀ rest, lexPiece (piece a ++ rest) = .ok (.bytes (text a), rest))
    {rest : List UInt8} (herror : ∀ fuel, ∃ message, scanBody fuel rest = .error message) :
    ∀ fuel, ∃ message, scanBody fuel (items.flatMap piece ++ rest) = .error message := by
  induction items with
  | nil => exact herror
  | cons a items ih =>
    intro fuel
    cases fuel with
    | zero => exact ⟨_, rfl⟩
    | succ fuel =>
      obtain ⟨message, htail⟩ := ih (fun b hb ↦ hpiece b (List.mem_cons_of_mem _ hb)) fuel
      refine ⟨message, ?_⟩
      rw [List.flatMap_cons, List.append_assoc,
        scanBody_piece (hpiece a (List.mem_cons_self ..) _), htail]
      rfl

end EscapeString
