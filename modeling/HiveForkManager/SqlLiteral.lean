import HiveForkManager.Jcs
import HiveForkManager.Lib.EscapeString
import HiveForkManager.Lib.Utf8

namespace HiveForkManager

open EscapeString

namespace SqlLiteral

def printableAscii (b : UInt8) : Bool := 0x20 ≤ b && b ≤ 0x7E

def escapeByte (b : UInt8) : Bytes :=
  if b = 92 then ascii "\\134".toList
  else if b = 39 then ascii "\\047".toList
  else if b = 37 then ascii "\\045".toList
  else if b = 95 then ascii "\\137".toList
  else if b = 58 then ascii "\\072".toList
  else [b]

def isprint (code : ℕ) : Bool := 0x20 ≤ code && code ≤ 0x7E

/-- The `switch` of the slow path; its first four cases are not printable. -/
def escapePrintable (code : ℕ) : Bytes :=
  if code = 13 then ascii "\\015".toList
  else if code = 10 then ascii "\\012".toList
  else if code = 11 then ascii "\\013".toList
  else if code = 12 then ascii "\\014".toList
  else if code = 92 then ascii "\\134".toList
  else if code = 39 then ascii "\\047".toList
  else if code = 37 then ascii "\\045".toList
  else if code = 95 then ascii "\\137".toList
  else if code = 58 then ascii "\\072".toList
  else [UInt8.ofNat code]

def toHex (byte : ℕ) : Bytes := [Jcs.hex (byte / 16), Jcs.hex (byte % 16)]

def hexCode (code : ℕ) : Bytes :=
  let top := (if 0xff < code then 1 else 0) + (if 0xffff < code then 1 else 0) +
    (if 0xffffff < code then 1 else 0)
  (List.range (top + 1)).reverse.flatMap fun k ↦ toHex (code / 256 ^ k % 256)

def unicodeEscape (code : ℕ) : Bytes :=
  if 0xffff < code then ascii "\\U".toList ++ padZeros 8 (hexCode code)
  else ascii "\\u".toList ++ padZeros 4 (hexCode code)

/-- A round of the loop of the slow path. The branch of code 0 is followed by the other two. -/
def escapeCode (code : ℕ) : Bytes :=
  (if code = 0 then ascii " ".toList else []) ++
    if 0 < code ∧ code ≤ 0x7F ∧ isprint code then escapePrintable code else unicodeEscape code

def fastLiteral (text : Bytes) : Bytes := ascii "E'".toList ++ text.flatMap escapeByte ++ [39]

def slowLiteral (codes : List ℕ) : Bytes := ascii "E'".toList ++ codes.flatMap escapeCode ++ [39]

/-- The code points of every valid text, as `fc::decodeUtf8` is to give them. -/
def ReadsCodePoints (decodeUtf8 : Bytes → List ℕ) : Prop :=
  ∀ text : String, decodeUtf8 (utf8 text) = text.toList.map Char.toNat

def escapeSql (decodeUtf8 : Bytes → List ℕ) (text : Bytes) : Bytes :=
  if text.isEmpty then ascii "E''".toList
  else if text.all printableAscii then fastLiteral text
  else slowLiteral (decodeUtf8 text)

theorem hexDigit_hex {d : ℕ} (hd : d < 16) :
    hexDigit (Jcs.hex d) = some d := by
  have hall : ∀ d : Fin 16, hexDigit (Jcs.hex d) = some d.val := by decide
  exact hall ⟨d, hd⟩

theorem takeHex_map_hex (digits : List ℕ) (hdigits : ∀ d ∈ digits, d < 16) (rest : Bytes) :
    takeHex digits.length (digits.map Jcs.hex ++ rest) =
      .ok (digits.foldl (fun n d ↦ 16 * n + d) 0, rest) := by
  have hhex : (digits.map Jcs.hex).all isHex = true := by
    rw [List.all_map, List.all_eq_true]
    intro d hd
    simp [isHex, hexDigit_hex (hdigits d hd)]
  have hvalue : ∀ n, (digits.map Jcs.hex).foldl
      (fun n b ↦ 16 * n + (hexDigit b).getD 0) n =
        digits.foldl (fun n d ↦ 16 * n + d) n := by
    induction digits with
    | nil => exact fun _ ↦ rfl
    | cons d digits ih =>
      intro n
      have htail := ih (fun e he ↦ hdigits e (List.mem_cons_of_mem _ he))
        (by rw [List.map_cons, List.all_cons, Bool.and_eq_true] at hhex; exact hhex.2)
      rw [List.map_cons, List.foldl_cons, List.foldl_cons, htail,
        hexDigit_hex (hdigits d (List.mem_cons_self ..))]
      rfl
  calc takeHex digits.length (digits.map Jcs.hex ++ rest)
      = takeHex (digits.map Jcs.hex).length (digits.map Jcs.hex ++ rest) := by
        rw [List.length_map]
    _ = .ok (hexValue (digits.map Jcs.hex), rest) :=
        takeHex_append hhex
    _ = .ok (digits.foldl (fun n d ↦ 16 * n + d) 0, rest) := by
        rw [hexValue, hvalue]

theorem hex_zero : Jcs.hex 0 = 48 := by decide

variable {code : ℕ} {c : Char} {text : String}

theorem unicodeEscape_short (hcode : code ≤ 0xffff) :
    unicodeEscape code =
      92 :: 117 :: [code / 4096, code / 256 % 16, code / 16 % 16, code % 16].map Jcs.hex := by
  have hascii : ascii "\\u".toList = [92, 117] := by decide
  have hhigh : ¬ 0xffff < code := by omega
  have htop : ¬ 0xffffff < code := by omega
  rw [unicodeEscape, if_neg hhigh, hascii]
  by_cases hbyte : 0xff < code
  · have hcode' : hexCode code = toHex (code / 256 % 256) ++ toHex (code % 256) := by
      simp [hexCode, hbyte, hhigh, htop, List.range_succ]
    have h3 : code / 256 % 256 / 16 = code / 4096 := by omega
    have h2 : code / 256 % 256 % 16 = code / 256 % 16 := by omega
    have h1 : code % 256 / 16 = code / 16 % 16 := by omega
    have h0 : code % 256 % 16 = code % 16 := by omega
    rw [hcode', padZeros, toHex, toHex, h3, h2, h1, h0]
    rfl
  · have hcode' : hexCode code = toHex (code % 256) := by
      simp [hexCode, hbyte, hhigh, htop]
    have h3 : code / 4096 = 0 := by omega
    have h2 : code / 256 % 16 = 0 := by omega
    have h1 : code % 256 / 16 = code / 16 % 16 := by omega
    have h0 : code % 256 % 16 = code % 16 := by omega
    rw [hcode', padZeros, toHex, h3, h2, h1, h0]
    simp [hex_zero, List.replicate]

theorem unicodeEscape_long (hlow : 0xffff < code) (hcode : code < 0x110000) :
    unicodeEscape code = 92 :: 85 :: [0, 0, code / 1048576, code / 65536 % 16,
      code / 4096 % 16, code / 256 % 16, code / 16 % 16, code % 16].map Jcs.hex := by
  have hascii : ascii "\\U".toList = [92, 85] := by decide
  have hbyte : 0xff < code := by omega
  have htop : ¬ 0xffffff < code := by omega
  have hcode' : hexCode code =
      toHex (code / 65536 % 256) ++ (toHex (code / 256 % 256) ++ toHex (code % 256)) := by
    simp [hexCode, hbyte, hlow, htop, List.range_succ]
  have h5 : code / 65536 % 256 / 16 = code / 1048576 := by omega
  have h4 : code / 65536 % 256 % 16 = code / 65536 % 16 := by omega
  have h3 : code / 256 % 256 / 16 = code / 4096 % 16 := by omega
  have h2 : code / 256 % 256 % 16 = code / 256 % 16 := by omega
  have h1 : code % 256 / 16 = code / 16 % 16 := by omega
  have h0 : code % 256 % 16 = code % 16 := by omega
  rw [unicodeEscape, if_pos hlow, hascii, hcode', padZeros, toHex, toHex, toHex,
    h5, h4, h3, h2, h1, h0]
  simp [hex_zero, List.replicate]

theorem lexPiece_unicodeEscape (c : Char) (rest : Bytes) :
    lexPiece (unicodeEscape c.toNat ++ rest) =
      if c.toNat = 0 then .error "invalid Unicode escape value"
      else .ok (.bytes (String.utf8EncodeChar c), rest) := by
  have hbound : c.toNat < 0x110000 := by
    have := Utf16.toNat_bounds c
    omega
  by_cases hshort : c.toNat ≤ 0xffff
  · rw [unicodeEscape_short hshort]
    refine lexUnicode_char ?_
    have hdigits := takeHex_map_hex [c.toNat / 4096, c.toNat / 256 % 16,
      c.toNat / 16 % 16, c.toNat % 16] (by simp; omega) rest
    have hvalue : 16 * (16 * (16 * (16 * 0 + c.toNat / 4096) + c.toNat / 256 % 16) +
        c.toNat / 16 % 16) + c.toNat % 16 = c.toNat := by omega
    simp only [List.foldl_cons, List.foldl_nil, hvalue] at hdigits
    exact hdigits
  · rw [unicodeEscape_long (by omega) hbound]
    refine lexUnicode_char ?_
    have hdigits := takeHex_map_hex [0, 0, c.toNat / 1048576, c.toNat / 65536 % 16,
      c.toNat / 4096 % 16, c.toNat / 256 % 16, c.toNat / 16 % 16, c.toNat % 16]
      (by simp; omega) rest
    have hvalue : 16 * (16 * (16 * (16 * (16 * (16 * (16 * (16 * 0 + 0) + 0) +
        c.toNat / 1048576) + c.toNat / 65536 % 16) + c.toNat / 4096 % 16) +
        c.toNat / 256 % 16) + c.toNat / 16 % 16) + c.toNat % 16 = c.toNat := by omega
    simp only [List.foldl_cons, List.foldl_nil, hvalue] at hdigits
    exact hdigits

theorem lexPiece_escapePrintable (hprint : isprint code) (rest : Bytes) :
    lexPiece (escapePrintable code ++ rest) = .ok (.bytes [UInt8.ofNat code], rest) := by
  simp only [isprint, Bool.and_eq_true, decide_eq_true_eq] at hprint
  unfold escapePrintable
  rw [if_neg (by omega), if_neg (by omega), if_neg (by omega), if_neg (by omega)]
  by_cases hbackslash : code = 92
  · rw [if_pos hbackslash, hbackslash]
    exact lexPiece_octal (by decide) (by decide) (by decide)
  by_cases hquote : code = 39
  · rw [if_neg hbackslash, if_pos hquote, hquote]
    exact lexPiece_octal (by decide) (by decide) (by decide)
  by_cases hpercent : code = 37
  · rw [if_neg hbackslash, if_neg hquote, if_pos hpercent, hpercent]
    exact lexPiece_octal (by decide) (by decide) (by decide)
  by_cases hunderscore : code = 95
  · rw [if_neg hbackslash, if_neg hquote, if_neg hpercent, if_pos hunderscore, hunderscore]
    exact lexPiece_octal (by decide) (by decide) (by decide)
  by_cases hcolon : code = 58
  · rw [if_neg hbackslash, if_neg hquote, if_neg hpercent, if_neg hunderscore, if_pos hcolon,
      hcolon]
    exact lexPiece_octal (by decide) (by decide) (by decide)
  rw [if_neg hbackslash, if_neg hquote, if_neg hpercent, if_neg hunderscore, if_neg hcolon]
  have hbyte : (UInt8.ofNat code).toNat = code := by
    rw [UInt8.toNat_ofNat']
    omega
  refine lexPiece_plain (fun h ↦ hquote ?_) (fun h ↦ hbackslash ?_)
  · rw [← hbyte, h]
    rfl
  · rw [← hbyte, h]
    rfl

theorem lexPiece_escapeCode (hc : c.toNat ≠ 0) (rest : Bytes) :
    lexPiece (escapeCode c.toNat ++ rest) = .ok (.bytes (String.utf8EncodeChar c), rest) := by
  rw [escapeCode, if_neg hc, List.nil_append]
  split_ifs with hprint
  · rw [lexPiece_escapePrintable hprint.2.2, Utf8.encodeChar_of_ascii (Nat.lt_succ_of_le hprint.2.1)]
  · rw [lexPiece_unicodeEscape, if_neg hc]

theorem escapeCode_ne_nil (code : ℕ) : escapeCode code ≠ [] := by
  have hprintable : escapePrintable code ≠ [] := by
    unfold escapePrintable
    split_ifs <;> exact List.cons_ne_nil _ _
  have hunicode : unicodeEscape code ≠ [] := by
    unfold unicodeEscape
    split_ifs <;> exact List.append_ne_nil_of_left_ne_nil (by decide) _
  rw [escapeCode]
  refine List.append_ne_nil_of_right_ne_nil _ ?_
  split_ifs
  · exact hprintable
  · exact hunicode

theorem utf8EncodeChar_printable
    (hfast : (String.utf8EncodeChar c).all printableAscii) : isprint c.toNat := by
  obtain ⟨b, hb⟩ := List.exists_mem_of_ne_nil _ (Utf8.encodeChar_ne_nil c)
  have hprint := List.all_eq_true.mp hfast b hb
  rw [printableAscii, Bool.and_eq_true, decide_eq_true_eq, decide_eq_true_eq,
    UInt8.le_iff_toNat_le, UInt8.le_iff_toNat_le] at hprint
  have hlow : (0x20 : UInt8).toNat = 0x20 := rfl
  have hhigh : (0x7E : UInt8).toNat = 0x7E := rfl
  rw [hlow, hhigh] at hprint
  have hcode : c.toNat = b.toNat := Utf8.toNat_eq_of_mem hb (by omega)
  rw [isprint, Bool.and_eq_true, decide_eq_true_eq, decide_eq_true_eq, hcode]
  exact hprint

theorem escapeByte_eq_escapeCode (hprint : isprint code) :
    escapeByte (UInt8.ofNat code) = escapeCode code := by
  have hall : ∀ n : Fin 128, isprint n → escapeByte (UInt8.ofNat n) = escapeCode n := by
    decide +kernel
  have hcode : code < 128 := by
    rw [isprint, Bool.and_eq_true, decide_eq_true_eq, decide_eq_true_eq] at hprint
    omega
  exact hall ⟨code, hcode⟩ hprint

theorem flatMap_escapeByte {text : List Char}
    (hfast : (text.flatMap String.utf8EncodeChar).all printableAscii) :
    (text.flatMap String.utf8EncodeChar).flatMap escapeByte =
      (text.map Char.toNat).flatMap escapeCode := by
  induction text with
  | nil => rfl
  | cons c text ih =>
    rw [List.flatMap_cons, List.all_append, Bool.and_eq_true] at hfast
    have hprint := utf8EncodeChar_printable hfast.1
    have hascii : c.toNat < 0x80 := by
      rw [isprint, Bool.and_eq_true, decide_eq_true_eq, decide_eq_true_eq] at hprint
      omega
    rw [List.flatMap_cons, List.flatMap_append, List.map_cons, List.flatMap_cons, ih hfast.2,
      Utf8.encodeChar_of_ascii hascii, List.flatMap_singleton, escapeByte_eq_escapeCode hprint]

theorem escapeSql_eq_slowLiteral {decodeUtf8 : Bytes → List ℕ}
    (hdecode : ReadsCodePoints decodeUtf8) (text : String) :
    escapeSql decodeUtf8 (utf8 text) = slowLiteral (text.toList.map Char.toNat) := by
  rw [escapeSql]
  split_ifs with hempty hfast
  · have hnil : text.toList = [] := by
      have hlength := Jcs.length_le_utf8 text.toList
      rw [List.isEmpty_iff, utf8] at hempty
      rw [hempty] at hlength
      exact List.eq_nil_of_length_eq_zero (Nat.le_zero.mp hlength)
    rw [slowLiteral, hnil]
    rfl
  · rw [fastLiteral, slowLiteral, utf8, flatMap_escapeByte hfast]
  · rw [hdecode]

theorem length_le_flatMap_escapeCode (codes : List ℕ) :
    codes.length ≤ (codes.flatMap escapeCode).length := by
  induction codes with
  | nil => exact Nat.le_refl _
  | cons code codes ih =>
    have hpos := List.length_pos_of_ne_nil (escapeCode_ne_nil code)
    rw [List.flatMap_cons, List.length_append, List.length_cons]
    omega

theorem zero_notMem_utf8EncodeChar (hc : c.toNat ≠ 0) :
    0 ∉ String.utf8EncodeChar c :=
  fun h ↦ hc (Utf8.toNat_eq_of_mem h (by decide))

theorem toNat_ne_zero_of_mem (hnul : '\x00' ∉ text.toList)
    (hc : c ∈ text.toList) : c.toNat ≠ 0 := by
  intro hzero
  have hc0 : c = '\x00' := Char.toNat_inj.mp hzero
  exact hnul (hc0 ▸ hc)

theorem verifyMbstr_utf8 (hnul : '\x00' ∉ text.toList) :
    verifyMbstr (utf8 text) = true := by
  have hvalid : (utf8 text).toByteArray.validateUTF8 = true :=
    ByteArray.validateUTF8_eq_true_iff.mpr ByteArray.isValidUTF8_utf8Encode
  have hzero : (0 : UInt8) ∉ utf8 text := by
    intro hmem
    obtain ⟨c, hc, hbyte⟩ := List.mem_flatMap.mp hmem
    exact zero_notMem_utf8EncodeChar (toNat_ne_zero_of_mem hnul hc) hbyte
  rw [verifyMbstr, hvalid, Bool.true_and, Bool.not_eq_true', List.contains_eq_mem]
  exact decide_eq_false hzero

theorem slowLiteral_append (codes : List ℕ) (rest : Bytes) :
    slowLiteral codes ++ rest = 69 :: 39 :: (codes.flatMap escapeCode ++ 39 :: rest) := by
  have hopen : ascii "E'".toList = [69, 39] := by decide
  rw [slowLiteral, hopen]
  simp

theorem decodeLiteral_slowLiteral (hnul : '\x00' ∉ text.toList) {rest : Bytes}
    (hrest : rest.head? ≠ some 39) :
    decodeLiteral (slowLiteral (text.toList.map Char.toNat) ++ rest) = .ok (utf8 text, rest) := by
  have hscan : scanBody ((text.toList.map Char.toNat).flatMap escapeCode ++ 39 :: rest).length
      ((text.toList.map Char.toNat).flatMap escapeCode ++ 39 :: rest) = .ok (utf8 text, rest) := by
    rw [List.flatMap_map, utf8]
    refine scanBody_flatMap _ _ _ (fun c hc rest ↦ ?_) hrest _ ?_
    · exact lexPiece_escapeCode (toNat_ne_zero_of_mem hnul hc) rest
    · have hlength := length_le_flatMap_escapeCode (text.toList.map Char.toNat)
      rw [List.flatMap_map, List.length_map] at hlength
      rw [List.length_append, List.length_cons]
      omega
  rw [slowLiteral_append, decodeLiteral, hscan]
  simp only [bind, Except.bind, verifyMbstr_utf8 hnul, if_true]

theorem scanBody_escapeCode_zero (rest : Bytes) :
    ∀ fuel, ∃ message, scanBody fuel (escapeCode 0 ++ rest) = .error message
  | 0 => ⟨_, rfl⟩
  | 1 => ⟨_, scanBody_piece (lexPiece_plain (by decide) (by decide))⟩
  | fuel + 2 => by
    refine ⟨"invalid Unicode escape value", ?_⟩
    have hescape : escapeCode 0 ++ rest = 32 :: (unicodeEscape 0 ++ rest) := by
      rw [escapeCode, if_pos rfl, if_neg (by decide)]
      rfl
    have hpiece := lexPiece_unicodeEscape '\x00' rest
    rw [hescape, scanBody_piece (lexPiece_plain (by decide) (by decide)), scanBody]
    erw [hpiece]
    rfl

/-- The pieces before the first U+0000 are read, its own escape is refused. -/
theorem decodeLiteral_refuses (hnul : '\x00' ∈ text.toList) (rest : Bytes) :
    ∃ message, decodeLiteral (slowLiteral (text.toList.map Char.toNat) ++ rest) =
      .error message := by
  obtain ⟨first, last, htext, hfirst⟩ := List.eq_append_cons_of_mem hnul
  have hbody : (text.toList.map Char.toNat).flatMap escapeCode ++ 39 :: rest =
      first.flatMap (fun c ↦ escapeCode c.toNat) ++
        (escapeCode 0 ++ ((last.map Char.toNat).flatMap escapeCode ++ 39 :: rest)) := by
    rw [htext]
    simp [List.flatMap_map]
  have hpiece : ∀ c ∈ first, ∀ rest, lexPiece (escapeCode c.toNat ++ rest) =
      .ok (.bytes (String.utf8EncodeChar c), rest) := by
    intro c hc rest
    refine lexPiece_escapeCode (fun hzero ↦ ?_) rest
    have hc0 : c = '\x00' := Char.toNat_inj.mp hzero
    exact hfirst (hc0 ▸ hc)
  obtain ⟨message, hscan⟩ := scanBody_append_error _ _ first hpiece
    (scanBody_escapeCode_zero ((last.map Char.toNat).flatMap escapeCode ++ 39 :: rest))
    (first.flatMap (fun c ↦ escapeCode c.toNat) ++
      (escapeCode 0 ++ ((last.map Char.toNat).flatMap escapeCode ++ 39 :: rest))).length
  refine ⟨message, ?_⟩
  rw [slowLiteral_append, decodeLiteral, hbody, hscan]
  rfl

def replaceNul (text : String) : String :=
  String.ofList (text.toList.map fun c ↦ if c = '\x00' then ' ' else c)

theorem replaceNul_eq (hnul : '\x00' ∉ text.toList) : replaceNul text = text := by
  have hmap : (text.toList.map fun c ↦ if c = '\x00' then ' ' else c) = text.toList := by
    refine (List.map_congr_left fun c hc ↦ ?_).trans (List.map_id _)
    have hc0 : c ≠ '\x00' := fun hc0 ↦ hnul (hc0 ▸ hc)
    exact if_neg hc0
  rw [replaceNul, hmap, String.ofList_toList]

/-- Exactly the texts without U+0000 are read back with each U+0000 as a space, the constant ending
at its closing quote whatever follows, and on the fast path the slow path gives a constant of the
same value. -/
theorem escape_sql_faithful {decodeUtf8 : Bytes → List ℕ} (hdecode : ReadsCodePoints decodeUtf8)
    (text : String) :
    (∀ rest : Bytes, rest.head? ≠ some 39 →
      decodeLiteral (escapeSql decodeUtf8 (utf8 text) ++ rest) =
          .ok (utf8 (replaceNul text), rest) ∧
        ((utf8 text).all printableAscii →
          decodeLiteral (fastLiteral (utf8 text) ++ rest) =
            decodeLiteral (slowLiteral (decodeUtf8 (utf8 text)) ++ rest))) ↔
      '\x00' ∉ text.toList := by
  rw [escapeSql_eq_slowLiteral hdecode, hdecode]
  constructor
  · intro hread hnul
    obtain ⟨message, herror⟩ := decodeLiteral_refuses hnul []
    have hok := (hread [] (by decide)).1
    rw [herror] at hok
    cases hok
  · intro hnul rest hrest
    refine ⟨?_, fun hfast ↦ ?_⟩
    · rw [replaceNul_eq hnul]
      exact decodeLiteral_slowLiteral hnul hrest
    · rw [fastLiteral, slowLiteral, utf8, flatMap_escapeByte hfast]

def decodeString (text : Bytes) : List ℕ :=
  ((String.fromUTF8? text.toByteArray).getD "").toList.map Char.toNat

theorem decodeString_readsCodePoints : ReadsCodePoints decodeString := by
  intro text
  have hbytes : (utf8 text).toByteArray = text.toByteArray := String.utf8Encode_toList
  rw [decodeString, hbytes, String.fromUTF8?, dif_pos text.isValidUTF8]
  rfl

theorem quote_and_snowman_faithful :
    decodeLiteral (escapeSql decodeString (utf8 "it's ☃") ++ ascii ")".toList) =
      .ok (utf8 (replaceNul "it's ☃"), ascii ")".toList) :=
  ((escape_sql_faithful decodeString_readsCodePoints "it's ☃").mpr (by decide) _ (by decide)).1

/-- U+0000 becomes a space followed by the escape of code 0, which no server accepts. -/
theorem nul_refused :
    decodeLiteral (escapeSql decodeString (utf8 "a\x00b")) = .error "invalid Unicode escape value" ∧
      replaceNul "a\x00b" = "a b" := by
  constructor
  · rw [escapeSql_eq_slowLiteral decodeString_readsCodePoints]
    decide +kernel
  · decide +kernel

end SqlLiteral

end HiveForkManager
