import HiveForkManager.Jcs

namespace HiveForkManager

open ExceptList Jcs

namespace Variant

def number : Variant → Option ℤ
  | .int64 i => some i
  | .uint64 u => some u
  | _ => none

mutual

def same : Variant → Variant → Prop
  | .null, w => w = .null
  | .bool b, w => w = .bool b
  | .int64 i, w => w.number = some i
  | .uint64 u, w => w.number = some (u : ℤ)
  | .double, _ => False
  | .string s, w => w = .string s
  | .array items, w => ∃ items', w = .array items' ∧ sameItems items items'
  | .object entries, w => ∃ entries', w = .object entries' ∧ entries.length = entries'.length ∧
      sameEntries entries entries'
  | .blob, _ => False

def sameItems : List Variant → List Variant → Prop
  | [], ws => ws = []
  | v :: vs, ws => ∃ w ws', ws = w :: ws' ∧ same v w ∧ sameItems vs ws'

def sameEntries : List (String × Variant) → List (String × Variant) → Prop
  | [], _ => True
  | (k, v) :: es, es' => (∃ w, (k, w) ∈ es' ∧ same v w) ∧ sameEntries es es'

end

mutual

def sorted : Variant → Variant
  | .null => .null
  | .bool b => .bool b
  | .int64 i => if i < 0 then .int64 i else .uint64 i.natAbs
  | .uint64 u => .uint64 u
  | .double => .double
  | .string s => .string s
  | .array items => .array (sortedItems items)
  | .object entries => .object (sortEntries (sortedMembers entries))
  | .blob => .blob

def sortedItems : List Variant → List Variant
  | [] => []
  | v :: vs => sorted v :: sortedItems vs

def sortedMembers : List (String × Variant) → List (String × Variant)
  | [] => []
  | (k, v) :: es => (k, sorted v) :: sortedMembers es

end

mutual

def everyObject (P : List (String × Variant) → Prop) : Variant → Prop
  | .null | .bool _ | .int64 _ | .uint64 _ | .double | .string _ | .blob => True
  | .array items => everyItem P items
  | .object entries => P entries ∧ everyMember P entries

def everyItem (P : List (String × Variant) → Prop) : List Variant → Prop
  | [] => True
  | v :: vs => everyObject P v ∧ everyItem P vs

def everyMember (P : List (String × Variant) → Prop) : List (String × Variant) → Prop
  | [] => True
  | (_, v) :: es => everyObject P v ∧ everyMember P es

end

theorem sameItems_iff {vs ws : List Variant} : sameItems vs ws ↔ List.Forall₂ same vs ws := by
  induction vs generalizing ws with
  | nil => rw [sameItems, List.forall₂_nil_left_iff]
  | cons v vs ih =>
    rw [sameItems, List.forall₂_cons_left_iff]
    simp only [ih]
    grind

theorem sameEntries_iff {es es' : List (String × Variant)} :
    sameEntries es es' ↔ ∀ e ∈ es, ∃ w, (e.1, w) ∈ es' ∧ same e.2 w := by
  induction es with
  | nil => simp [sameEntries]
  | cons e es ih => rw [sameEntries, ih, List.forall_mem_cons]

theorem sortedItems_eq (vs : List Variant) : sortedItems vs = vs.map sorted := by
  induction vs with
  | nil => rfl
  | cons v vs ih => rw [sortedItems, ih, List.map_cons]

theorem sortedMembers_eq (es : List (String × Variant)) :
    sortedMembers es = es.map fun e ↦ (e.1, sorted e.2) := by
  induction es with
  | nil => rfl
  | cons e es ih => rw [sortedMembers, ih, List.map_cons]

theorem sorted_object (entries : List (String × Variant)) :
    sorted (.object entries) = .object ((sortEntries entries).map fun e ↦ (e.1, sorted e.2)) := by
  rw [sorted, sortedMembers_eq, sortEntries_map]

theorem everyItem_iff {P : List (String × Variant) → Prop} {vs : List Variant} :
    everyItem P vs ↔ ∀ v ∈ vs, everyObject P v := by
  induction vs with
  | nil => simp [everyItem]
  | cons v vs ih => rw [everyItem, ih, List.forall_mem_cons]

theorem everyMember_iff {P : List (String × Variant) → Prop} {es : List (String × Variant)} :
    everyMember P es ↔ ∀ e ∈ es, everyObject P e.2 := by
  induction es with
  | nil => simp [everyMember]
  | cons e es ih => rw [everyMember, ih, List.forall_mem_cons]

end Variant

namespace JsonText

def unescape (e : UInt8) : Option UInt8 :=
  if e = 34 then some 34
  else if e = 92 then some 92
  else if e = 47 then some 47
  else if e = 98 then some 8
  else if e = 102 then some 12
  else if e = 110 then some 10
  else if e = 114 then some 13
  else if e = 116 then some 9
  else none

def hexDigit (b : UInt8) : Option ℕ :=
  if 48 ≤ b ∧ b ≤ 57 then some (b.toNat - 48)
  else if 97 ≤ b ∧ b ≤ 102 then some (b.toNat - 87)
  else if 65 ≤ b ∧ b ≤ 70 then some (b.toNat - 55)
  else none

def unicode (a b c d : UInt8) : Option Bytes := do
  let a ← hexDigit a
  let b ← hexDigit b
  let c ← hexDigit c
  let d ← hexDigit d
  let n := ((a * 16 + b) * 16 + c) * 16 + d
  if n.isValidChar then some (String.utf8EncodeChar (Char.ofNat n)) else none

def parseChars : Bytes → Option (Bytes × Bytes)
  | [] => none
  | b :: rest =>
    if b = 34 then some ([], rest)
    else if b = 92 then
      match rest with
      | [] => none
      | e :: rest =>
        if e = 117 then
          match rest with
          | h₁ :: h₂ :: h₃ :: h₄ :: rest => do
            let code ← unicode h₁ h₂ h₃ h₄
            let (s, rest) ← parseChars rest
            some (code ++ s, rest)
          | _ => none
        else do
          let c ← unescape e
          let (s, rest) ← parseChars rest
          some (c :: s, rest)
    else if b < 0x20 then none
    else do
      let (s, rest) ← parseChars rest
      some (b :: s, rest)

def parseString (text : Bytes) : Option (String × Bytes) := do
  let (s, rest) ← parseChars text
  let s ← String.fromUTF8? s.toByteArray
  some (s, rest)

def parseNumber (text : Bytes) : Option (Variant × Bytes) :=
  let negative := text.head? == some 45
  let digits := if negative then text.tail else text
  if (digits.takeWhile isDigit).isEmpty then none
  else
    let n : ℕ := (digits.takeWhile isDigit).foldl (fun n d ↦ 10 * n + (d.toNat - 48)) 0
    some (if negative then .int64 (-(n : ℤ)) else .uint64 n, digits.dropWhile isDigit)

section Lists

variable {α : Type} (p : Bytes → Option (α × Bytes)) (close : UInt8)

def parseMore : ℕ → Bytes → Option (List α × Bytes)
  | 0, _ => none
  | _ + 1, [] => none
  | fuel + 1, b :: rest =>
    if b = close then some ([], rest)
    else if b = 44 then do
      let (x, rest) ← p rest
      let (xs, rest) ← parseMore fuel rest
      some (x :: xs, rest)
    else none

def parseList (text : Bytes) : Option (List α × Bytes) :=
  if text.head? = some close then some ([], text.tail)
  else do
    let (x, rest) ← p text
    let (xs, rest) ← parseMore p close rest.length rest
    some (x :: xs, rest)

end Lists

def parseEntry (p : Bytes → Option (Variant × Bytes)) (text : Bytes) :
    Option ((String × Variant) × Bytes) :=
  if text.head? = some 34 then do
    let (k, rest) ← parseString text.tail
    if rest.head? = some 58 then do
      let (v, rest) ← p rest.tail
      some ((k, v), rest)
    else none
  else none

def parseValue : ℕ → Bytes → Option (Variant × Bytes)
  | 0, _ => none
  | fuel + 1, text =>
    if text.head? = some 34 then do
      let (s, rest) ← parseString text.tail
      some (.string s, rest)
    else if text.head? = some 91 then do
      let (items, rest) ← parseList (parseValue fuel) 93 text.tail
      some (.array items, rest)
    else if text.head? = some 123 then do
      let (entries, rest) ← parseList (parseEntry (parseValue fuel)) 125 text.tail
      some (.object entries, rest)
    else if text.head? = some 110 then
      if text.take 4 = ascii "null".toList then some (.null, text.drop 4) else none
    else if text.head? = some 116 then
      if text.take 4 = ascii "true".toList then some (.bool true, text.drop 4) else none
    else if text.head? = some 102 then
      if text.take 5 = ascii "false".toList then some (.bool false, text.drop 5) else none
    else parseNumber text

def parseJson (text : Bytes) : Option Variant :=
  match parseValue (text.length + 1) text with
  | some (v, []) => some v
  | _ => none

theorem unicode_control : ∀ n < 32,
    unicode 48 48 (hex ((n >>> 4) &&& 0xF)) (hex (n &&& 0xF)) = some [UInt8.ofNat n] := by
  decide +kernel

section Chars

variable {rest s r : Bytes}

theorem parseChars_letter {e c : UInt8} (he : e ≠ 117) (hc : unescape e = some c)
    (h : parseChars rest = some (s, r)) : parseChars ([92, e] ++ rest) = some (c :: s, r) := by
  have hbackslash : ¬(92 : UInt8) = 34 := by decide
  rw [List.cons_append, List.singleton_append, parseChars.eq_def]
  simp only [if_neg hbackslash, if_pos, if_neg he, hc, h, Option.bind_eq_bind, Option.bind_some]

theorem parseChars_code {h₁ h₂ h₃ h₄ : UInt8} {code : Bytes}
    (hcode : unicode h₁ h₂ h₃ h₄ = some code) (h : parseChars rest = some (s, r)) :
    parseChars ([92, 117, h₁, h₂, h₃, h₄] ++ rest) = some (code ++ s, r) := by
  have hbackslash : ¬(92 : UInt8) = 34 := by decide
  simp only [List.cons_append, List.nil_append]
  rw [parseChars.eq_def]
  simp only [if_neg hbackslash, if_pos, hcode, h, Option.bind_eq_bind, Option.bind_some]

theorem parseChars_plain {c : UInt8} (hquote : c ≠ 34) (hbackslash : c ≠ 92) (hc : ¬c < 0x20)
    (h : parseChars rest = some (s, r)) : parseChars ([c] ++ rest) = some (c :: s, r) := by
  rw [List.singleton_append, parseChars.eq_def]
  simp only [if_neg hquote, if_neg hbackslash, if_neg hc, h, Option.bind_eq_bind, Option.bind_some]

theorem parseChars_escapeByte (c : UInt8) (h : parseChars rest = some (s, r)) :
    parseChars (escapeByte c ++ rest) = some (c :: s, r) := by
  unfold escapeByte
  split_ifs with h₁ h₂ h₃ h₄ h₅ h₆ h₇ h₈
  · exact parseChars_letter (by decide) (by rw [h₁]; rfl) h
  · exact parseChars_letter (by decide) (by rw [h₂]; rfl) h
  · exact parseChars_letter (by decide) (by rw [h₃]; rfl) h
  · exact parseChars_letter (by decide) (by rw [h₄]; rfl) h
  · exact parseChars_letter (by decide) (by rw [h₅]; rfl) h
  · exact parseChars_letter (by decide) (by rw [h₆]; rfl) h
  · exact parseChars_letter (by decide) (by rw [h₇]; rfl) h
  · have hcode := unicode_control c.toNat h₈
    rw [UInt8.ofNat_toNat] at hcode
    exact parseChars_code hcode h
  · exact parseChars_plain h₁ h₂ h₈ h

end Chars

theorem parseChars_escaped (s rest : Bytes) :
    parseChars (s.flatMap escapeByte ++ 34 :: rest) = some (s, rest) := by
  induction s with
  | nil =>
    rw [List.flatMap_nil, List.nil_append, parseChars.eq_def]
    exact if_pos rfl
  | cons c s ih =>
    rw [List.flatMap_cons, List.append_assoc]
    exact parseChars_escapeByte c ih

theorem fromUTF8_utf8 (s : String) : String.fromUTF8? (utf8 s).toByteArray = some s := by
  have hbytes : (utf8 s).toByteArray = s.toByteArray := String.utf8Encode_toList
  rw [hbytes, String.fromUTF8?, dif_pos s.isValidUTF8]
  rfl

theorem parseString_jsonString (s : String) (rest : Bytes) :
    parseString (((utf8 s).flatMap escapeByte) ++ 34 :: rest) = some (s, rest) := by
  rw [parseString, parseChars_escaped]
  simp only [Option.bind_eq_bind, Option.bind_some, fromUTF8_utf8]

section Lists

variable {α : Type} {p : Bytes → Option (α × Bytes)} {close : UInt8}

def Reads (p : Bytes → Option (α × Bytes)) (close : UInt8) (x : α) (t : Bytes) : Prop :=
  ∀ b rest, b = 44 ∨ b = close → p (t ++ b :: rest) = some (x, b :: rest)

theorem parseMore_spec (hclose : close ≠ 44) {xs : List α} {ts : List Bytes}
    (h : List.Forall₂ (Reads p close) xs ts) (rest : Bytes) : ∀ fuel, ts.length < fuel →
      parseMore p close fuel (ts.flatMap (44 :: ·) ++ close :: rest) = some (xs, rest) := by
  induction h with
  | nil =>
    intro fuel hfuel
    cases fuel with
    | zero => cases hfuel
    | succ fuel => simp [parseMore]
  | @cons x t xs ts hx _ ih =>
    intro fuel hfuel
    cases fuel with
    | zero => cases hfuel
    | succ fuel =>
      have hnext : p (t ++ (ts.flatMap (44 :: ·) ++ close :: rest)) =
          some (x, ts.flatMap (44 :: ·) ++ close :: rest) := by
        cases ts with
        | nil => exact hx close rest (Or.inr rfl)
        | cons t' ts => exact hx 44 _ (Or.inl rfl)
      rw [List.flatMap_cons, List.cons_append, List.cons_append, List.append_assoc, parseMore,
        if_neg hclose.symm, if_pos rfl, hnext]
      simp only [Option.bind_eq_bind, Option.bind_some]
      rw [ih fuel (Nat.lt_of_succ_lt_succ hfuel)]
      rfl

theorem length_le_flatMap_comma (ts : List Bytes) :
    ts.length ≤ (ts.flatMap (44 :: ·)).length := by
  induction ts with
  | nil => rfl
  | cons t ts ih =>
    rw [List.flatMap_cons, List.length_append, List.length_cons, List.length_cons]
    omega

theorem parseList_spec (hclose : close ≠ 44) (hnone : ∀ rest, p (close :: rest) = none)
    {xs : List α} {ts : List Bytes} (h : List.Forall₂ (Reads p close) xs ts) (rest : Bytes) :
    parseList p close (joinComma ts ++ close :: rest) = some (xs, rest) := by
  cases h with
  | nil => rw [joinComma, List.nil_append, parseList, if_pos List.head?_cons, List.tail_cons]
  | @cons x t xs ts hx hxs =>
    have hnext : p (t ++ (ts.flatMap (44 :: ·) ++ close :: rest)) =
        some (x, ts.flatMap (44 :: ·) ++ close :: rest) := by
      cases ts with
      | nil => exact hx close rest (Or.inr rfl)
      | cons t' ts => exact hx 44 _ (Or.inl rfl)
    have hhead : (t ++ (ts.flatMap (44 :: ·) ++ close :: rest)).head? ≠ some close := by
      intro hhead
      obtain ⟨r, hr⟩ := List.head?_eq_some_iff.mp hhead
      rw [hr, hnone] at hnext
      cases hnext
    rw [joinComma, List.append_assoc, parseList, if_neg hhead, hnext]
    simp only [Option.bind_eq_bind, Option.bind_some]
    rw [parseMore_spec hclose hxs rest]
    · rfl
    · have := length_le_flatMap_comma ts
      rw [List.length_append, List.length_cons]
      omega

end Lists

variable {rest t : Bytes} {close : UInt8}

theorem takeWhile_decimal (n : ℕ) (hrest : ∀ b ∈ rest.head?, isDigit b = false) :
    (decimal n ++ rest).takeWhile isDigit = decimal n ∧
      (decimal n ++ rest).dropWhile isDigit = rest := by
  have hdigits : ∀ b ∈ decimal n, isDigit b = true := fun b ↦ isDigit_of_mem_decimal
  rw [List.takeWhile_append_of_pos hdigits, List.dropWhile_append_of_pos hdigits]
  cases rest with
  | nil => simp
  | cons b rest =>
    have hb := hrest b rfl
    simp [hb]

theorem parseNumber_decimal (n : ℕ) (hrest : ∀ b ∈ rest.head?, isDigit b = false) :
    parseNumber (decimal n ++ rest) = some (.uint64 n, rest) := by
  obtain ⟨htake, hdrop⟩ := takeWhile_decimal n hrest
  obtain ⟨b, hhead, hb⟩ := head?_decimal n rest
  have hsign : ((decimal n ++ rest).head? == some 45) = false := by
    rw [hhead]
    refine beq_eq_false_iff_ne.mpr fun h ↦ ?_
    cases h
    cases hb
  simp only [parseNumber, hsign, Bool.false_eq_true, if_false, htake, hdrop, foldl_decimal,
    List.isEmpty_iff, decimal_ne_nil]

theorem parseNumber_negative (n : ℕ) (hrest : ∀ b ∈ rest.head?, isDigit b = false) :
    parseNumber (45 :: (decimal n ++ rest)) = some (.int64 (-n), rest) := by
  obtain ⟨htake, hdrop⟩ := takeWhile_decimal n hrest
  simp only [parseNumber, List.head?_cons, BEq.rfl, if_true, List.tail_cons, htake, hdrop,
    foldl_decimal, List.isEmpty_iff, decimal_ne_nil, if_false]

theorem parseValue_of_head {text : Bytes} {b : UInt8} (hhead : text.head? = some b)
    (hb : b = 45 ∨ isDigit b = true) (fuel : ℕ) :
    parseValue (fuel + 1) text = parseNumber text := by
  have hne : ∀ c : UInt8, (c = 45 ∨ isDigit c = true) = False → text.head? ≠ some c := by
    rintro c hc h
    obtain rfl : b = c := Option.some.inj (hhead.symm.trans h)
    exact hc ▸ hb
  rw [parseValue, if_neg (hne 34 (by decide)), if_neg (hne 91 (by decide)),
    if_neg (hne 123 (by decide)), if_neg (hne 110 (by decide)), if_neg (hne 116 (by decide)),
    if_neg (hne 102 (by decide))]

theorem parseValue_decimal (n : ℕ) (hrest : ∀ b ∈ rest.head?, isDigit b = false)
    (fuel : ℕ) : parseValue (fuel + 1) (decimal n ++ rest) = some (.uint64 n, rest) := by
  obtain ⟨b, hhead, hb⟩ := head?_decimal n rest
  rw [parseValue_of_head hhead (Or.inr hb), parseNumber_decimal n hrest]

theorem parseValue_signedDecimal (i : ℤ) (hrest : ∀ b ∈ rest.head?, isDigit b = false) (fuel : ℕ) :
    parseValue (fuel + 1) (signedDecimal i ++ rest) = some (Variant.sorted (.int64 i), rest) := by
  rw [signedDecimal, Variant.sorted]
  split
  · rw [List.cons_append, parseValue_of_head rfl (Or.inl rfl), parseNumber_negative _ hrest]
    congr 3
    omega
  · exact parseValue_decimal _ hrest fuel

theorem length_le_joinComma {ts : List Bytes} (h : t ∈ ts) :
    t.length ≤ (joinComma ts).length := by
  cases ts with
  | nil => cases h
  | cons t' ts =>
    rw [joinComma, List.length_append]
    rcases List.mem_cons.mp h with rfl | h
    · exact Nat.le_add_right _ _
    · have hsub : (44 :: t).length ≤ (ts.flatMap (44 :: ·)).length :=
        (List.sublist_flatten_of_mem (List.mem_map_of_mem h)).length_le
      rw [List.length_cons] at hsub
      omega

theorem parseValue_close (fuel : ℕ) (rest : Bytes) : parseValue fuel (93 :: rest) = none := by
  cases fuel <;> rfl

theorem parseEntry_close (p : Bytes → Option (Variant × Bytes)) (rest : Bytes) :
    parseEntry p (125 :: rest) = none := rfl

theorem not_isDigit_of_close {b : UInt8} (hclose : isDigit close = false)
    (hb : b = 44 ∨ b = close) (rest : Bytes) : ∀ c ∈ (b :: rest).head?, isDigit c = false := by
  intro c hc
  cases hc
  rcases hb with rfl | rfl
  · rfl
  · exact hclose

def ReadBack (v : Variant) : Prop :=
  ∀ t, jcsCanonicalize v = .ok t → ∀ fuel rest, t.length < fuel →
    (∀ b ∈ rest.head?, isDigit b = false) → parseValue fuel (t ++ rest) = some (v.sorted, rest)

theorem ReadBack.reads {v : Variant} (h : ReadBack v) (ht : jcsCanonicalize v = .ok t)
    {fuel : ℕ} (hfuel : t.length < fuel) (hclose : isDigit close = false) :
    Reads (parseValue fuel) close v.sorted t :=
  fun _ rest hb ↦ h t ht fuel _ hfuel (not_isDigit_of_close hclose hb rest)

theorem ReadBack.reads_entry {e : String × Variant} (h : ReadBack e.2)
    (ht : canonicalizeEntry e = .ok t) {fuel : ℕ} (hfuel : t.length < fuel)
    (hclose : isDigit close = false) :
    Reads (parseEntry (parseValue fuel)) close (e.1, e.2.sorted) t := by
  obtain ⟨text, htext, ht⟩ := bind_eq_ok.mp ht
  cases ht
  intro b rest hb
  rw [List.length_append, List.length_append] at hfuel
  have hvalue := h.reads htext (Nat.lt_of_le_of_lt (Nat.le_add_left _ _) hfuel) hclose b rest hb
  have hstring := parseString_jsonString e.1 (58 :: (text ++ b :: rest))
  simp only [jsonString, List.append_assoc, List.cons_append, List.nil_append, parseEntry,
    List.head?_cons, if_true, List.tail_cons, hstring, Option.bind_eq_bind, Option.bind_some,
    hvalue]

theorem ReadBack.array {items : List Variant} (ih : ∀ v ∈ items, ReadBack v) :
    ReadBack (.array items) := by
  intro t ht fuel rest hfuel _
  obtain ⟨texts, htexts, rfl⟩ := jcsCanonicalize_array ht
  cases fuel with
  | zero => cases hfuel
  | succ fuel =>
    simp only [List.length_append, List.length_cons, List.length_nil] at hfuel
    have hreads : List.Forall₂ (Reads (parseValue fuel) 93) (items.map Variant.sorted) texts := by
      refine List.forall₂_map_left_iff.mpr
        (forall₂_imp_mem (forall₂_of_mapM_eq_ok htexts) ?_)
      intro v hv text hmem htext
      have hle := length_le_joinComma hmem
      exact (ih v hv).reads htext (by omega) rfl
    have hlist := parseList_spec (by decide) (parseValue_close fuel) hreads rest
    simp only [List.append_assoc, List.cons_append, List.nil_append] at hlist ⊢
    rw [parseValue, if_neg (by simp), if_pos List.head?_cons, List.tail_cons, hlist, Variant.sorted,
      Variant.sortedItems_eq]
    rfl

theorem ReadBack.object {entries : List (String × Variant)} (ih : ∀ e ∈ entries, ReadBack e.2) :
    ReadBack (.object entries) := by
  intro t ht fuel rest hfuel _
  obtain ⟨texts, htexts, rfl⟩ := jcsCanonicalize_object ht
  cases fuel with
  | zero => cases hfuel
  | succ fuel =>
    simp only [List.length_append, List.length_cons, List.length_nil] at hfuel
    have hreads : List.Forall₂ (Reads (parseEntry (parseValue fuel)) 125)
        ((sortEntries entries).map fun e ↦ (e.1, e.2.sorted)) texts := by
      refine List.forall₂_map_left_iff.mpr
        (forall₂_imp_mem (forall₂_of_mapM_eq_ok htexts) ?_)
      intro e he text hmem htext
      have hle := length_le_joinComma hmem
      exact (ih e ((perm_sortEntries entries).mem_iff.mp he)).reads_entry htext (by omega) rfl
    have hlist := parseList_spec (by decide) (parseEntry_close _) hreads rest
    simp only [List.append_assoc, List.cons_append, List.nil_append] at hlist ⊢
    rw [parseValue, if_neg (by simp), if_neg (by simp), if_pos List.head?_cons, List.tail_cons,
      hlist, Variant.sorted_object]
    rfl

theorem readBack (v : Variant) : ReadBack v := by
  induction v using Variant.induct with
  | null =>
    intro t ht fuel rest hfuel _
    cases ht
    cases fuel with
    | zero => cases hfuel
    | succ fuel => rfl
  | bool b =>
    intro t ht fuel rest hfuel _
    cases ht
    cases fuel with
    | zero => cases hfuel
    | succ fuel => cases b <;> rfl
  | int64 i =>
    intro t ht fuel rest hfuel hrest
    rw [jcsCanonicalize] at ht
    split at ht
    · cases ht
      cases fuel with
      | zero => cases hfuel
      | succ fuel => exact parseValue_signedDecimal i hrest fuel
    · cases ht
  | uint64 u =>
    intro t ht fuel rest hfuel hrest
    rw [jcsCanonicalize] at ht
    split at ht
    · cases ht
      cases fuel with
      | zero => cases hfuel
      | succ fuel => exact parseValue_decimal u hrest fuel
    · cases ht
  | double | blob =>
    intro t ht
    rw [jcsCanonicalize] at ht
    cases ht
  | string s =>
    intro t ht fuel rest hfuel _
    rw [jcsCanonicalize] at ht
    cases ht
    cases fuel with
    | zero => cases hfuel
    | succ fuel =>
      have hstring := parseString_jsonString s rest
      simp only [jsonString, List.append_assoc, List.cons_append, List.nil_append, parseValue,
        List.head?_cons, if_true, List.tail_cons, hstring, Option.bind_eq_bind, Option.bind_some,
        Variant.sorted]
  | array items ih => exact .array ih
  | object entries ih => exact .object ih

theorem parseJson_canonical {v : Variant} (ht : jcsCanonicalize v = .ok t) :
    parseJson t = some v.sorted := by
  have hread := readBack v t ht (t.length + 1) [] (Nat.lt_succ_self _) (by simp)
  rw [List.append_nil] at hread
  rw [parseJson, hread]

end JsonText

namespace Variant

variable {v w : Variant} {t u : Bytes}

theorem exists_item {items : List Variant} (h : jcsCanonicalize (.array items) = .ok t)
    (hv : v ∈ items) : ∃ t, jcsCanonicalize v = .ok t := by
  obtain ⟨texts, htexts, -⟩ := jcsCanonicalize_array h
  exact exists_ok_of_mem htexts hv

theorem exists_entry {entries : List (String × Variant)}
    (h : jcsCanonicalize (.object entries) = .ok t) {e : String × Variant} (he : e ∈ entries) :
    ∃ t, jcsCanonicalize e.2 = .ok t := by
  obtain ⟨texts, htexts, -⟩ := jcsCanonicalize_object h
  obtain ⟨t, ht⟩ := exists_ok_of_mem htexts ((perm_sortEntries entries).mem_iff.mpr he)
  obtain ⟨text, htext, -⟩ := bind_eq_ok.mp ht
  exact ⟨text, htext⟩

theorem number_sorted (i : ℤ) : (sorted (.int64 i)).number = some i := by
  rw [sorted]
  split
  · rfl
  · rw [number]
    congr 1
    omega

theorem same_sorted (v : Variant) : ∀ t, jcsCanonicalize v = .ok t → v.same v.sorted := by
  induction v using Variant.induct with
  | null | bool _ | uint64 _ | string _ => exact fun _ _ ↦ rfl
  | int64 i => exact fun _ _ ↦ number_sorted i
  | double | blob =>
    intro t ht
    rw [jcsCanonicalize] at ht
    cases ht
  | array items ih =>
    intro t ht
    refine ⟨items.map sorted, by rw [sorted, sortedItems_eq], sameItems_iff.mpr ?_⟩
    refine List.forall₂_map_right_iff.mpr (List.forall₂_same.mpr fun v hv ↦ ?_)
    obtain ⟨t, ht⟩ := exists_item ht hv
    exact ih v hv t ht
  | object entries ih =>
    intro t ht
    refine ⟨_, sorted_object entries, ?_, sameEntries_iff.mpr fun e he ↦ ⟨e.2.sorted, ?_, ?_⟩⟩
    · rw [List.length_map, (perm_sortEntries entries).length_eq]
    · exact List.mem_map.mpr ⟨e, (perm_sortEntries entries).mem_iff.mpr he, rfl⟩
    · obtain ⟨t, ht⟩ := exists_entry ht he
      exact ih e he t ht

theorem sorted_int64_ne (hw : w.number = none) (i : ℤ) : sorted (.int64 i) ≠ w := by
  intro h
  have := number_sorted i
  rw [h, hw] at this
  cases this

theorem number_inj_sorted {i : ℤ} : w.number = some i ↔ sorted (.int64 i) = w.sorted := by
  cases w with
  | int64 j =>
    refine ⟨fun h ↦ ?_, fun h ↦ ?_⟩
    · rw [Option.some.inj h]
    · rw [number, ← number_sorted j, ← h, number_sorted]
  | uint64 u =>
    refine ⟨fun h ↦ ?_, fun h ↦ ?_⟩
    · rw [← Option.some.inj h, sorted, if_neg (by omega), sorted, Int.natAbs_natCast]
    · rw [← number_sorted i, h]
      rfl
  | null | bool _ | double | string _ | array _ | object _ | blob =>
    exact ⟨nofun, fun h ↦ absurd h (sorted_int64_ne rfl i)⟩

theorem forall₂_same_iff {vs : List Variant} : ∀ {ws : List Variant},
    (∀ v ∈ vs, ∀ w ∈ ws, (v.same w ↔ v.sorted = w.sorted)) →
      (List.Forall₂ same vs ws ↔ vs.map sorted = ws.map sorted) := by
  induction vs with
  | nil =>
    intro ws _
    rw [List.forall₂_nil_left_iff, List.map_nil, eq_comm (a := []), List.map_eq_nil_iff]
  | cons v vs ih =>
    intro ws h
    cases ws with
    | nil => exact ⟨nofun, nofun⟩
    | cons w ws =>
      rw [List.forall₂_cons, List.map_cons, List.map_cons, List.cons.injEq,
        h v List.mem_cons_self w List.mem_cons_self, ih fun v hv w hw ↦
          h v (List.mem_cons_of_mem _ hv) w (List.mem_cons_of_mem _ hw)]

theorem distinctNames_sortedMembers {entries : List (String × Variant)}
    (h : DistinctNames entries) : DistinctNames (sortedMembers entries) := by
  rw [DistinctNames, sortedMembers_eq, List.map_map]
  exact h

theorem sameEntries_iff_perm {es es' : List (String × Variant)} (hes : DistinctNames es)
    (h : ∀ e ∈ es, ∀ e' ∈ es', (e.2.same e'.2 ↔ e.2.sorted = e'.2.sorted)) :
    es.length = es'.length ∧ sameEntries es es' ↔
      (sortedMembers es).Perm (sortedMembers es') := by
  rw [sameEntries_iff]
  refine ⟨fun ⟨hlength, hall⟩ ↦ ?_, fun hperm ↦ ⟨?_, fun e he ↦ ?_⟩⟩
  · have hsub : sortedMembers es ⊆ sortedMembers es' := by
      rw [sortedMembers_eq, sortedMembers_eq]
      intro x hx
      obtain ⟨e, he, rfl⟩ := List.mem_map.mp hx
      obtain ⟨w, hw, hsame⟩ := hall e he
      exact List.mem_map.mpr ⟨_, hw, Prod.ext rfl ((h e he _ hw).mp hsame).symm⟩
    have hnodup : (sortedMembers es).Nodup := (distinctNames_sortedMembers hes).of_map
    refine (List.subperm_of_subset hnodup hsub).perm_of_length_le ?_
    rw [sortedMembers_eq, sortedMembers_eq, List.length_map, List.length_map, hlength]
  · simpa only [sortedMembers_eq, List.length_map] using hperm.length_eq
  · rw [sortedMembers_eq, sortedMembers_eq] at hperm
    obtain ⟨e', he', heq⟩ := List.mem_map.mp (hperm.mem_iff.mp (List.mem_map_of_mem he))
    obtain ⟨hname, hvalue⟩ := Prod.mk.inj heq
    exact ⟨e'.2, hname ▸ he', (h e he e' he').mpr hvalue.symm⟩

theorem same_iff_sorted_eq (v : Variant) : ∀ t w, jcsCanonicalize v = .ok t →
    v.everyObject DistinctNames → w.everyObject DistinctNames →
      (v.same w ↔ v.sorted = w.sorted) := by
  induction v using Variant.induct with
  | null | bool _ | string _ =>
    intro t w _ _ _
    cases w with
    | int64 j => exact ⟨fun h ↦ (by cases h), fun h ↦ absurd h.symm (sorted_int64_ne rfl j)⟩
    | _ => simp [same, sorted, eq_comm]
  | int64 i => exact fun t w _ _ _ ↦ number_inj_sorted
  | uint64 u =>
    intro t w _ _ _
    rw [show sorted (.uint64 u) = sorted (.int64 u) by simp [sorted]]
    exact number_inj_sorted
  | double | blob =>
    intro t w ht
    rw [jcsCanonicalize] at ht
    cases ht
  | array items ih =>
    intro t w ht hv hw
    cases w with
    | int64 j =>
      refine ⟨?_, fun h ↦ absurd h.symm (sorted_int64_ne rfl j)⟩
      rintro ⟨_, h, _⟩
      cases h
    | array items' =>
      have hitems := forall₂_same_iff fun v hmem w hmem' ↦ by
        obtain ⟨t, ht⟩ := exists_item ht hmem
        exact ih v hmem t w ht (everyItem_iff.mp hv v hmem) (everyItem_iff.mp hw w hmem')
      simp [same, sorted, sortedItems_eq, sameItems_iff, hitems]
    | _ => simp [same, sorted]
  | object entries ih =>
    intro t w ht hv hw
    cases w with
    | int64 j =>
      refine ⟨?_, fun h ↦ absurd h.symm (sorted_int64_ne rfl j)⟩
      rintro ⟨_, h, _⟩
      cases h
    | object entries' =>
      have hentries := sameEntries_iff_perm hv.1 fun e hmem e' hmem' ↦ by
        obtain ⟨t, ht⟩ := exists_entry ht hmem
        exact ih e hmem t e'.2 ht (everyMember_iff.mp hv.2 e hmem)
          (everyMember_iff.mp hw.2 e' hmem')
      rw [sorted, sorted, object.injEq, sortEntries_eq_iff (distinctNames_sortedMembers hv.1),
        ← hentries]
      simp [same]
    | _ => simp [same, sorted]

theorem increasing_sorted (v : Variant) (h : v.everyObject DistinctNames) :
    v.sorted.everyObject Increasing := by
  induction v using Variant.induct with
  | null | bool _ | uint64 _ | double | string _ | blob => trivial
  | int64 i =>
    rw [sorted]
    split <;> trivial
  | array items ih =>
    rw [sorted, sortedItems_eq]
    refine everyItem_iff.mpr (List.forall_mem_map.mpr fun v hv ↦ ?_)
    exact ih v hv (everyItem_iff.mp h v hv)
  | object entries ih =>
    refine ⟨increasing_sortEntries (distinctNames_sortedMembers h.1), everyMember_iff.mpr ?_⟩
    intro e he
    have he := (perm_sortEntries _).mem_iff.mp he
    rw [sortedMembers_eq] at he
    obtain ⟨e₀, he₀, rfl⟩ := List.mem_map.mp he
    exact ih e₀ he₀ (everyMember_iff.mp h.2 e₀ he₀)

theorem jcsCanonicalize_sorted (v : Variant) : ∀ t, jcsCanonicalize v = .ok t →
    jcsCanonicalize v.sorted = .ok t := by
  induction v using Variant.induct with
  | null | bool _ | uint64 _ | double | string _ | blob => exact fun t ht ↦ ht
  | int64 i =>
    intro t ht
    rw [sorted]
    split
    · exact ht
    · next hi =>
      rw [jcsCanonicalize] at ht
      rw [jcsCanonicalize]
      split at ht
      · rw [signedDecimal, if_neg hi] at ht
        rw [if_pos (by omega)]
        exact ht
      · cases ht
  | array items ih =>
    intro t ht
    obtain ⟨texts, htexts, rfl⟩ := jcsCanonicalize_array ht
    have hsorted : items.mapM (jcsCanonicalize ∘ sorted) = .ok texts :=
      mapM_eq_ok_of_imp ih htexts
    rw [sorted, sortedItems_eq, jcsCanonicalize_array_eq, List.mapM_map, hsorted]
    rfl
  | object entries ih =>
    intro t ht
    obtain ⟨texts, htexts, rfl⟩ := jcsCanonicalize_object ht
    rw [sorted_object, jcsCanonicalize_object_eq, sortEntries_map, sortEntries_sortEntries,
      List.mapM_map, mapM_eq_ok_of_imp (fun e he t ht ↦ ?_) htexts]
    · rfl
    · obtain ⟨text, htext, ht⟩ := bind_eq_ok.mp ht
      have he := (perm_sortEntries entries).mem_iff.mp he
      rw [Function.comp_apply, canonicalizeEntry, ih e he text htext]
      exact ht

/-- Canonical texts are equal exactly for equal values, and a text is read back as the value, with
the member names of each object in increasing order. -/
theorem canonical_text (v w : Variant) (t u : Bytes) (hv : v.everyObject DistinctNames)
    (hw : w.everyObject DistinctNames) (ht : jcsCanonicalize v = .ok t)
    (hu : jcsCanonicalize w = .ok u) :
    (t = u ↔ v.same w) ∧
      ∃ v', JsonText.parseJson t = some v' ∧ v.same v' ∧ v'.everyObject Increasing := by
  have hparse := JsonText.parseJson_canonical ht
  refine ⟨?_, v.sorted, hparse, same_sorted v t ht, increasing_sorted v hv⟩
  rw [same_iff_sorted_eq v t w ht hv hw]
  refine ⟨fun heq ↦ ?_, fun heq ↦ ?_⟩
  · have hparse' := JsonText.parseJson_canonical hu
    rw [← heq, hparse] at hparse'
    exact Option.some.inj hparse'
  · have ht' := jcsCanonicalize_sorted v t ht
    rw [heq, jcsCanonicalize_sorted w u hu] at ht'
    exact (Except.ok.inj ht').symm

def unsortedExample : Variant := .object [("ﬁ", .int64 1), ("𝄞", .array [.null])]

def sortedExample : Variant := .object [("𝄞", .array [.null]), ("ﬁ", .uint64 1)]

def exampleText : Bytes :=
  [123] ++ joinComma [jsonString "𝄞" ++ [58] ++ ascii "[null]".toList,
    jsonString "ﬁ" ++ [58] ++ ascii "1".toList] ++ [125]

/-- The members in another order and a number of the other kind; the name outside of the basic
plane comes first. -/
theorem canonical_text_members : jcsCanonicalize unsortedExample = .ok exampleText ∧
    jcsCanonicalize sortedExample = .ok exampleText ∧ unsortedExample.same sortedExample := by
  have htext : jcsCanonicalize unsortedExample = .ok exampleText := by decide +kernel
  have htext' : jcsCanonicalize sortedExample = .ok exampleText := by decide +kernel
  have hnames : unsortedExample.everyObject DistinctNames :=
    ⟨by decide +kernel, trivial, ⟨trivial, trivial⟩, trivial⟩
  have hnames' : sortedExample.everyObject DistinctNames :=
    ⟨by decide +kernel, ⟨trivial, trivial⟩, trivial, trivial⟩
  exact ⟨htext, htext', (canonical_text _ _ _ _ hnames hnames' htext htext').1.mp rfl⟩

end Variant

end HiveForkManager
