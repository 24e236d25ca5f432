import HiveForkManager.LogFile
import HiveForkManager.Schema
import HiveForkManager.Lib.ExceptList
import HiveForkManager.Lib.Utf16

namespace HiveForkManager

/-- `fc::variant`; a string is valid UTF-8. -/
inductive Variant where
  | null
  | bool (b : Bool)
  | int64 (i : ℤ)
  | uint64 (u : ℕ)
  | double
  | string (s : String)
  | array (items : List Variant)
  | object (entries : List (String × Variant))
  | blob

def utf8 (s : String) : Bytes := s.toList.flatMap String.utf8EncodeChar

namespace Jcs

def leadByte (c : UInt8) : ℕ × ℕ :=
  if c.toNat < 0x80 then (c.toNat, 1)
  else if c.toNat >>> 5 = 0x6 then (c.toNat &&& 0x1F, 2)
  else if c.toNat >>> 4 = 0xE then (c.toNat &&& 0x0F, 3)
  else (c.toNat &&& 0x07, 4)

def pushUnits (cp : ℕ) : List ℕ :=
  if cp ≤ 0xFFFF then [cp]
  else [0xD800 + ((cp - 0x10000) >>> 10), 0xDC00 + ((cp - 0x10000) &&& 0x3FF)]

/-- The loop of `utf8_to_utf16`; a round consumes at least one byte. -/
def utf16Loop : ℕ → Bytes → List ℕ
  | 0, _ => []
  | _ + 1, [] => []
  | fuel + 1, c :: rest =>
    let (lead, len) := leadByte c
    let cp := (rest.take (len - 1)).foldl (fun cp b ↦ (cp <<< 6) ||| (b.toNat &&& 0x3F)) lead
    pushUnits cp ++ utf16Loop fuel (rest.drop (len - 1))

def utf8ToUtf16 (s : Bytes) : List ℕ := utf16Loop s.length s

def hex (n : ℕ) : UInt8 := (ascii "0123456789abcdef".toList).getD n 0

/-- A byte of a string as `append_json_string` writes it. -/
def escapeByte (c : UInt8) : Bytes :=
  if c = 34 then [92, 34]
  else if c = 92 then [92, 92]
  else if c = 8 then [92, 98]
  else if c = 12 then [92, 102]
  else if c = 10 then [92, 110]
  else if c = 13 then [92, 114]
  else if c = 9 then [92, 116]
  else if c < 0x20 then
    [92, 117, 48, 48, hex ((c.toNat >>> 4) &&& 0xF), hex (c.toNat &&& 0xF)]
  else [c]

def jsonString (s : String) : Bytes := [34] ++ (utf8 s).flatMap escapeByte ++ [34]

/-- The order of `std::sort`; entries have distinct keys, so it is of no matter which sort it is. -/
def keyLe {α : Type} (a b : String × α) : Prop :=
  ¬ utf8ToUtf16 (utf8 b.1) < utf8ToUtf16 (utf8 a.1)

instance {α : Type} : DecidableRel (keyLe (α := α)) :=
  fun a b ↦ inferInstanceAs (Decidable (¬ utf8ToUtf16 (utf8 b.1) < utf8ToUtf16 (utf8 a.1)))

def sortEntries {α : Type} (entries : List (String × α)) : List (String × α) :=
  entries.insertionSort keyLe

def joinComma : List Bytes → Bytes
  | [] => []
  | t :: ts => t ++ ts.flatMap (44 :: ·)

def maxSafeInt : ℤ := 9007199254740991

def outOfRange (i : ℤ) : Error :=
  .assertFailure ("L2 JCS: integer " ++ toString i ++
    " is outside the safe range +-(2^53-1); carry large values as strings")

mutual

def jcsCanonicalize : Variant → Except Error Bytes
  | .null => .ok (ascii "null".toList)
  | .bool b => .ok (ascii (if b then "true".toList else "false".toList))
  | .int64 i =>
    if -maxSafeInt ≤ i ∧ i ≤ maxSafeInt then .ok (signedDecimal i) else .error (outOfRange i)
  | .uint64 u => if (u : ℤ) ≤ maxSafeInt then .ok (decimal u) else .error (outOfRange u)
  | .double => .error (.assertFailure ("L2 JCS: floating-point numbers are not allowed in " ++
      "signed L2 transaction bodies; carry decimals as strings"))
  | .string s => .ok (jsonString s)
  | .array items => do
    let texts ← canonicalizeItems items
    return [91] ++ joinComma texts ++ [93]
  | .object entries => do
    let texts ← (sortEntries (canonicalizeEntries entries)).mapM fun e ↦ do
      let text ← e.2
      return jsonString e.1 ++ [58] ++ text
    return [123] ++ joinComma texts ++ [125]
  | .blob => .error (.assertFailure "L2 JCS: unsupported JSON value type 8")

def canonicalizeItems : List Variant → Except Error (List Bytes)
  | [] => .ok []
  | v :: vs => do
    let text ← jcsCanonicalize v
    let texts ← canonicalizeItems vs
    return text :: texts

def canonicalizeEntries : List (String × Variant) → List (String × Except Error Bytes)
  | [] => []
  | (k, v) :: es => (k, jcsCanonicalize v) :: canonicalizeEntries es

end

theorem and_mask (n k : ℕ) : n &&& (2 ^ k - 1) = n % 2 ^ k := Nat.and_two_pow_sub_one_eq_mod n k

theorem continuation_eq (cp : ℕ) (b : UInt8) :
    (cp <<< 6) ||| (b.toNat &&& 0x3F) = cp * 64 + b.toNat % 64 := by
  have hmask : b.toNat &&& 0x3F = b.toNat % 64 := and_mask _ 6
  have hlt : b.toNat % 64 < 2 ^ 6 := Nat.mod_lt _ (by decide)
  rw [hmask, ← Nat.shiftLeft_add_eq_or_of_lt hlt, Nat.shiftLeft_eq]

theorem pushUnits_eq (cp : ℕ) : pushUnits cp = Utf16.units cp := by
  have hmask : (cp - 0x10000) &&& 0x3FF = (cp - 0x10000) % 1024 := and_mask _ 10
  rw [pushUnits, Utf16.units, Nat.shiftRight_eq_div_pow, hmask]

theorem leadByte_eq (n : ℕ) (hn : n < 256) : leadByte (UInt8.ofNat n) =
    if n < 0x80 then (n, 1) else if n / 32 = 6 then (n % 32, 2)
    else if n / 16 = 14 then (n % 16, 3) else (n % 8, 4) := by
  have htoNat : (UInt8.ofNat n).toNat = n := by
    rw [UInt8.toNat_ofNat']
    exact Nat.mod_eq_of_lt hn
  have h5 : n &&& 0x1F = n % 32 := and_mask _ 5
  have h4 : n &&& 0x0F = n % 16 := and_mask _ 4
  have h3 : n &&& 0x07 = n % 8 := and_mask _ 3
  rw [leadByte, htoNat, Nat.shiftRight_eq_div_pow, Nat.shiftRight_eq_div_pow, h5, h4, h3]

theorem utf16Loop_encodeChar (fuel : ℕ) (c : Char) (rest : Bytes) :
    utf16Loop (fuel + 1) (String.utf8EncodeChar c ++ rest) =
      Utf16.units c.toNat ++ utf16Loop fuel rest := by
  have hc := Utf16.toNat_bounds c
  have hval : c.val.toNat = c.toNat := rfl
  unfold String.utf8EncodeChar
  simp only [hval]
  have hbyte : ∀ n, (UInt8.ofNat n).toNat = n % 256 := fun n ↦ UInt8.toNat_ofNat'
  split
  · simp only [List.cons_append, List.nil_append, utf16Loop]
    rw [leadByte_eq _ (by omega), if_pos (by omega)]
    simp [pushUnits_eq]
  split
  · simp only [List.cons_append, List.nil_append, utf16Loop]
    rw [leadByte_eq _ (by omega), if_neg (by omega), if_pos (by omega)]
    simp only [List.take_succ_cons, List.take_zero, List.foldl_cons, List.foldl_nil,
      continuation_eq, List.drop_succ_cons, List.drop_zero, pushUnits_eq, hbyte]
    congr 2
    omega
  split
  · simp only [List.cons_append, List.nil_append, utf16Loop]
    rw [leadByte_eq _ (by omega), if_neg (by omega), if_neg (by omega), if_pos (by omega)]
    simp only [List.take_succ_cons, List.take_zero, List.foldl_cons, List.foldl_nil,
      continuation_eq, List.drop_succ_cons, List.drop_zero, pushUnits_eq, hbyte]
    congr 2
    omega
  · simp only [List.cons_append, List.nil_append, utf16Loop]
    rw [leadByte_eq _ (by omega), if_neg (by omega), if_neg (by omega), if_neg (by omega)]
    simp only [List.take_succ_cons, List.take_zero, List.foldl_cons, List.foldl_nil,
      continuation_eq, List.drop_succ_cons, List.drop_zero, pushUnits_eq, hbyte]
    congr 2
    omega

theorem utf16Loop_eq (text : List Char) : ∀ fuel, text.length ≤ fuel →
    utf16Loop fuel (text.flatMap String.utf8EncodeChar) = Utf16.ofChars text := by
  induction text with
  | nil =>
    intro fuel _
    cases fuel <;> rfl
  | cons c text ih =>
    intro fuel hfuel
    cases fuel with
    | zero => cases hfuel
    | succ fuel =>
      rw [List.flatMap_cons, utf16Loop_encodeChar, ih fuel (Nat.le_of_succ_le_succ hfuel)]
      rfl

theorem length_le_utf8 (text : List Char) :
    text.length ≤ (text.flatMap String.utf8EncodeChar).length := by
  induction text with
  | nil => rfl
  | cons c text ih =>
    rw [List.flatMap_cons, List.length_append, List.length_cons, String.length_utf8EncodeChar]
    have := c.utf8Size_pos
    omega

theorem utf8ToUtf16_utf8 (s : String) : utf8ToUtf16 (utf8 s) = Utf16.ofChars s.toList :=
  utf16Loop_eq _ _ (length_le_utf8 _)

section Sorting

variable {α β : Type}

theorem keyLe_iff (a b : String × α) :
    keyLe a b ↔ Utf16.ofChars a.1.toList ≤ Utf16.ofChars b.1.toList := by
  rw [keyLe, utf8ToUtf16_utf8, utf8ToUtf16_utf8, not_lt]

theorem sortEntries_map (f : α → β) (entries : List (String × α)) :
    sortEntries (entries.map fun e ↦ (e.1, f e.2)) =
      (sortEntries entries).map fun e ↦ (e.1, f e.2) :=
  (List.map_insertionSort keyLe keyLe (fun e : String × α ↦ (e.1, f e.2)) entries
    fun _ _ _ _ ↦ Iff.rfl).symm

instance : Std.Total (keyLe (α := α)) :=
  ⟨fun a b ↦ by
    rw [keyLe_iff, keyLe_iff]
    exact le_total _ _⟩

instance : IsTrans (String × α) keyLe :=
  ⟨fun a b c hab hbc ↦ by
    rw [keyLe_iff] at hab hbc ⊢
    exact hab.trans hbc⟩

theorem perm_sortEntries (entries : List (String × α)) : (sortEntries entries).Perm entries :=
  List.perm_insertionSort _ _

theorem sortEntries_sortEntries (entries : List (String × α)) :
    sortEntries (sortEntries entries) = sortEntries entries :=
  (List.pairwise_insertionSort keyLe entries).insertionSort_eq

def Increasing (entries : List (String × α)) : Prop :=
  entries.Pairwise fun a b ↦ Utf16.ofChars a.1.toList < Utf16.ofChars b.1.toList

def DistinctNames (entries : List (String × α)) : Prop := (entries.map Prod.fst).Nodup

instance (entries : List (String × α)) : Decidable (DistinctNames entries) :=
  inferInstanceAs (Decidable (entries.map Prod.fst).Nodup)

theorem increasing_sortEntries {entries : List (String × α)} (h : DistinctNames entries) :
    Increasing (sortEntries entries) := by
  have hnames : ((sortEntries entries).map Prod.fst).Nodup :=
    ((perm_sortEntries entries).map Prod.fst).nodup_iff.mpr h
  refine (List.pairwise_insertionSort keyLe entries).imp₂ (fun a b hle hne ↦ ?_)
    (List.pairwise_map.mp hnames)
  rw [keyLe_iff] at hle
  refine lt_of_le_of_ne hle fun heq ↦ hne ?_
  exact String.toList_inj.mp (Utf16.ofChars_injective heq)

theorem sortEntries_eq_iff {entries entries' : List (String × α)} (h : DistinctNames entries) :
    sortEntries entries = sortEntries entries' ↔ entries.Perm entries' := by
  refine ⟨fun heq ↦ ?_, fun hperm ↦ ?_⟩
  · exact (perm_sortEntries entries).symm.trans (heq ▸ perm_sortEntries entries')
  · have h' : DistinctNames entries' := (hperm.map Prod.fst).nodup_iff.mp h
    have hperm' := ((perm_sortEntries entries).trans hperm).trans (perm_sortEntries entries').symm
    exact hperm'.eq_of_pairwise (fun a b _ _ hab hba ↦ absurd hab hba.asymm)
      (increasing_sortEntries h) (increasing_sortEntries h')

end Sorting

theorem canonicalizeItems_eq (items : List Variant) :
    canonicalizeItems items = items.mapM jcsCanonicalize := by
  induction items with
  | nil => rfl
  | cons v vs ih => rw [canonicalizeItems, ih, List.mapM_cons]

theorem canonicalizeEntries_eq (entries : List (String × Variant)) :
    canonicalizeEntries entries = entries.map fun e ↦ (e.1, jcsCanonicalize e.2) := by
  induction entries with
  | nil => rfl
  | cons e es ih => rw [canonicalizeEntries, ih, List.map_cons]

def canonicalizeEntry (e : String × Variant) : Except Error Bytes := do
  let text ← jcsCanonicalize e.2
  return jsonString e.1 ++ [58] ++ text

theorem jcsCanonicalize_array_eq (items : List Variant) : jcsCanonicalize (.array items) = do
    let texts ← items.mapM jcsCanonicalize
    return [91] ++ joinComma texts ++ [93] := by
  rw [jcsCanonicalize, canonicalizeItems_eq]

theorem jcsCanonicalize_object_eq (entries : List (String × Variant)) :
    jcsCanonicalize (.object entries) = do
      let texts ← (sortEntries entries).mapM canonicalizeEntry
      return [123] ++ joinComma texts ++ [125] := by
  rw [jcsCanonicalize, canonicalizeEntries_eq, sortEntries_map, List.mapM_map]
  rfl

theorem jcsCanonicalize_array {items : List Variant} {t : Bytes}
    (h : jcsCanonicalize (.array items) = .ok t) :
    ∃ texts, items.mapM jcsCanonicalize = .ok texts ∧ t = [91] ++ joinComma texts ++ [93] := by
  rw [jcsCanonicalize_array_eq] at h
  obtain ⟨texts, htexts, h⟩ := ExceptList.bind_eq_ok.mp h
  exact ⟨texts, htexts, (Except.ok.inj h).symm⟩

theorem jcsCanonicalize_object {entries : List (String × Variant)} {t : Bytes}
    (h : jcsCanonicalize (.object entries) = .ok t) :
    ∃ texts, (sortEntries entries).mapM canonicalizeEntry = .ok texts ∧
      t = [123] ++ joinComma texts ++ [125] := by
  rw [jcsCanonicalize_object_eq] at h
  obtain ⟨texts, htexts, h⟩ := ExceptList.bind_eq_ok.mp h
  exact ⟨texts, htexts, (Except.ok.inj h).symm⟩

end Jcs

theorem Variant.induct {P : Variant → Prop} (null : P .null) (bool : ∀ b, P (.bool b))
    (int64 : ∀ i, P (.int64 i)) (uint64 : ∀ u, P (.uint64 u)) (double : P .double)
    (string : ∀ s, P (.string s)) (array : ∀ items, (∀ v ∈ items, P v) → P (.array items))
    (object : ∀ entries, (∀ e ∈ entries, P e.2) → P (.object entries)) (blob : P .blob) :
    ∀ v, P v :=
  @Variant.rec P (fun items ↦ ∀ v ∈ items, P v) (fun entries ↦ ∀ e ∈ entries, P e.2)
    (fun e ↦ P e.2) null bool int64 uint64 double string array object blob
    nofun (fun _ _ hv hvs ↦ List.forall_mem_cons.mpr ⟨hv, hvs⟩)
    nofun (fun _ _ he hes ↦ List.forall_mem_cons.mpr ⟨he, hes⟩) (fun _ _ hv ↦ hv)

end HiveForkManager
