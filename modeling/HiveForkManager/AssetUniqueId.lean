import HiveForkManager.LogFile

namespace HiveForkManager

namespace AssetUniqueId

/-- The conversions of `asset_symbol_type`; for precision 0 they invert each other. -/
structure SymbolLibrary where
  decimals : BitVec 32 → ℕ
  toNai : BitVec 32 → BitVec 32
  /-- `from_nai( nai, 0 )`. -/
  fromNai : BitVec 32 → BitVec 32
  fromNai_toNai : ∀ assetNum, decimals assetNum = 0 → fromNai (toNai assetNum) = assetNum

/-- The digits of a number, the lowest first; `none` where the loop writes behind the end of the
buffer. -/
def fillBuffer : ℕ → ℕ → Option Bytes
  | _, 0 => some []
  | 0, _ + 1 => none
  | room + 1, n + 1 => do
    let rest ← fillBuffer room ((n + 1) / 10)
    some (UInt8.ofNat (48 + (n + 1) % 10) :: rest)

def u128ToString (n : BitVec 128) : Option Bytes :=
  if n = 0 then some [48] else (fillBuffer 40 n.toNat).map List.reverse

def stringToU128 (str : Bytes) : Except String (BitVec 128) :=
  match str with
  | [] => .error "string_to_u128: unexpected input"
  | c :: _ =>
    if isDigit c then .ok ((str.takeWhile isDigit).foldl
      (fun result c ↦ result * 10 + BitVec.ofNat 128 (c.toNat - 48)) 0)
    else .error "string_to_u128: unexpected input"

/-- `numeric_in` of PostgreSQL on a text of digits. -/
def numericIn (text : Bytes) : Except String ℕ :=
  if !text.isEmpty && text.all isDigit then
    .ok (text.foldl (fun n d ↦ 10 * n + (d.toNat - 48)) 0)
  else .error "invalid input syntax for type numeric"

/-- `numeric_out` of a number without fraction. -/
def numericOut (n : ℕ) : Bytes := decimal n

def numericToU128 (num : ℕ) : Except String (BitVec 128) := stringToU128 (numericOut num)

def toOperationId (id : BitVec 128) : BitVec 64 := (id >>> 64).setWidth 64

def toNai (id : BitVec 128) : BitVec 32 := ((id >>> 32) &&& 0xFFFFFFFF).setWidth 32

def toSubsequentNo (id : BitVec 128) : BitVec 32 := (id &&& 0xFFFFFFFF).setWidth 32

def fullId (operationId : BitVec 64) (nai : BitVec 32) (subsequentNo : BitVec 64) : BitVec 128 :=
  (operationId.setWidth 128 <<< 64) ||| (nai.setWidth 128 <<< 32) ||| subsequentNo.signExtend 128

def generateAssetUniqueId (L : SymbolLibrary) (assetSymbol operationId subsequentNo : BitVec 64) :
    Except String ℕ :=
  let assetNum := assetSymbol.setWidth 32
  if operationId.toInt < 0 then .error "operation_id must be non-negative"
  else if subsequentNo.toInt < 0 ∨ 4294967295 < subsequentNo.toInt then
    .error "subsequent_no must be between 0 and 4294967295 (uint32_t range)"
  else if L.decimals assetNum ≠ 0 then
    .error "generate_asset_unique_id only supports precision 0 assets"
  else match u128ToString (fullId operationId (L.toNai assetNum) subsequentNo) with
    | some text => numericIn text
    | none => .error "stack buffer overflow"

def assetUniqueIdToOperationId (id : ℕ) : Except String (BitVec 64) := do
  let id ← numericToU128 id
  return toOperationId id

def assetUniqueIdToAssetSymbol (L : SymbolLibrary) (id : ℕ) : Except String (BitVec 64) := do
  let id ← numericToU128 id
  return (L.fromNai (toNai id)).setWidth 64

def assetUniqueIdToSubsequentNo (id : ℕ) : Except String (BitVec 64) := do
  let id ← numericToU128 id
  return (toSubsequentNo id).setWidth 64

theorem fillBuffer_eq {room n : ℕ} (hn : n < 10 ^ room) :
    fillBuffer room n = some ((Nat.digits 10 n).map fun d ↦ UInt8.ofNat (48 + d)) := by
  induction room generalizing n with
  | zero =>
    obtain rfl : n = 0 := by simpa using hn
    rfl
  | succ room ih =>
    cases n with
    | zero => rfl
    | succ n =>
      have hdiv : (n + 1) / 10 < 10 ^ room := by
        rw [Nat.div_lt_iff_lt_mul (by decide), ← Nat.pow_succ]
        exact hn
      rw [fillBuffer, ih hdiv, Nat.digits_def' (by decide) (Nat.succ_pos n), List.map_cons]
      rfl

theorem u128ToString_eq (n : BitVec 128) : u128ToString n = some (decimal n.toNat) := by
  have hn : n.toNat < 10 ^ 40 := n.isLt.trans (by decide)
  unfold u128ToString decimal
  by_cases h : n = 0
  · rw [if_pos h, if_pos (by rw [h]; rfl)]
  · have h' : n.toNat ≠ 0 := fun h' ↦ h (BitVec.eq_of_toNat_eq h')
    rw [if_neg h, if_neg h', fillBuffer_eq hn]
    rfl

theorem foldl_u128 (digits : Bytes) (a : ℕ) :
    digits.foldl (fun result c ↦ result * 10 + BitVec.ofNat 128 (c.toNat - 48))
        (BitVec.ofNat 128 a) =
      BitVec.ofNat 128 (digits.foldl (fun n d ↦ 10 * n + (d.toNat - 48)) a) := by
  induction digits generalizing a with
  | nil => rfl
  | cons d digits ih =>
    rw [List.foldl_cons, List.foldl_cons, ← ih]
    congr 1
    rw [BitVec.ofNat_add, BitVec.ofNat_mul, BitVec.mul_comm]
    rfl

theorem stringToU128_decimal (n : ℕ) : stringToU128 (decimal n) = .ok (BitVec.ofNat 128 n) := by
  have hall : (decimal n).takeWhile isDigit = decimal n :=
    List.takeWhile_eq_self_iff.2 fun b hb ↦ isDigit_of_mem_decimal hb
  have hfold := foldl_u128 (decimal n) 0
  rw [foldl_decimal] at hfold
  unfold stringToU128
  cases htext : decimal n with
  | nil => exact absurd htext (decimal_ne_nil n)
  | cons c text =>
    have hc : isDigit c = true := isDigit_of_mem_decimal (n := n) (htext ▸ List.mem_cons_self)
    rw [htext] at hall hfold
    dsimp only
    rw [if_pos hc, hall]
    exact congrArg Except.ok hfold

theorem numericIn_decimal (n : ℕ) : numericIn (decimal n) = .ok n := by
  have hall : (decimal n).all isDigit = true :=
    List.all_eq_true.2 fun b hb ↦ isDigit_of_mem_decimal hb
  have hne : (decimal n).isEmpty = false := List.isEmpty_eq_false_iff.2 (decimal_ne_nil n)
  simp only [numericIn, hall, hne, foldl_decimal]
  rfl

theorem numericToU128_toNat (id : BitVec 128) : numericToU128 id.toNat = .ok id := by
  rw [numericToU128, numericOut, stringToU128_decimal, BitVec.ofNat_toNat, BitVec.setWidth_eq]

section Bits

variable {operationId subsequentNo : BitVec 64} {nai : BitVec 32}

theorem toNat_mask (id : BitVec 128) : (id &&& 0xFFFFFFFF).toNat = id.toNat % 2 ^ 32 := by
  rw [BitVec.toNat_and]
  exact Nat.and_two_pow_sub_one_eq_mod id.toNat 32

theorem toNat_fullId (hno : subsequentNo.toNat < 2 ^ 32) :
    (fullId operationId nai subsequentNo).toNat =
      operationId.toNat * 2 ^ 64 + nai.toNat * 2 ^ 32 + subsequentNo.toNat := by
  have hop := operationId.isLt
  have hnai := nai.isLt
  have hmsb : subsequentNo.msb = false := BitVec.msb_eq_false_iff_two_mul_lt.2 (by omega)
  have hhigh : (operationId.setWidth 128 <<< 64).toNat = operationId.toNat <<< 64 := by
    rw [BitVec.toNat_shiftLeft, BitVec.toNat_setWidth, Nat.shiftLeft_eq, Nat.shiftLeft_eq]
    omega
  have hmiddle : (nai.setWidth 128 <<< 32).toNat = nai.toNat <<< 32 := by
    rw [BitVec.toNat_shiftLeft, BitVec.toNat_setWidth, Nat.shiftLeft_eq, Nat.shiftLeft_eq]
    omega
  have hlow : (subsequentNo.signExtend 128).toNat = subsequentNo.toNat := by
    rw [BitVec.signExtend_eq_setWidth_of_msb_false hmsb, BitVec.toNat_setWidth]
    omega
  rw [fullId, BitVec.toNat_or, BitVec.toNat_or, hhigh, hmiddle, hlow, Nat.or_assoc,
    ← Nat.shiftLeft_add_eq_or_of_lt hno, ← Nat.shiftLeft_add_eq_or_of_lt, Nat.shiftLeft_eq,
    Nat.shiftLeft_eq, Nat.add_assoc]
  rw [Nat.shiftLeft_eq]
  omega

theorem toOperationId_fullId (hno : subsequentNo.toNat < 2 ^ 32) :
    toOperationId (fullId operationId nai subsequentNo) = operationId := by
  apply BitVec.eq_of_toNat_eq
  have hnai := nai.isLt
  have hop := operationId.isLt
  rw [toOperationId, BitVec.toNat_setWidth, BitVec.toNat_ushiftRight, toNat_fullId hno,
    Nat.shiftRight_eq_div_pow]
  omega

theorem toNai_fullId (hno : subsequentNo.toNat < 2 ^ 32) :
    toNai (fullId operationId nai subsequentNo) = nai := by
  apply BitVec.eq_of_toNat_eq
  have hnai := nai.isLt
  rw [toNai, BitVec.toNat_setWidth, toNat_mask, BitVec.toNat_ushiftRight, toNat_fullId hno,
    Nat.shiftRight_eq_div_pow]
  omega

theorem toSubsequentNo_fullId (hno : subsequentNo.toNat < 2 ^ 32) :
    (toSubsequentNo (fullId operationId nai subsequentNo)).setWidth 64 = subsequentNo := by
  apply BitVec.eq_of_toNat_eq
  rw [BitVec.toNat_setWidth, toSubsequentNo, BitVec.toNat_setWidth, toNat_mask, toNat_fullId hno]
  omega

theorem generate_ok {L : SymbolLibrary} {assetSymbol : BitVec 64} {id : ℕ}
    (h : generateAssetUniqueId L assetSymbol operationId subsequentNo = .ok id) :
    subsequentNo.toNat < 2 ^ 32 ∧ L.decimals (assetSymbol.setWidth 32) = 0 ∧
      id = (fullId operationId (L.toNai (assetSymbol.setWidth 32)) subsequentNo).toNat := by
  simp only [generateAssetUniqueId, u128ToString_eq, numericIn_decimal] at h
  split_ifs at h with hop hno hdecimals
  refine ⟨?_, not_not.1 hdecimals, (Except.ok.inj h).symm⟩
  have hlt := subsequentNo.isLt
  rw [BitVec.toInt_eq_toNat_cond] at hno
  split_ifs at hno <;> omega

theorem extract_fullId (L : SymbolLibrary) {symbol : BitVec 32} (hdecimals : L.decimals symbol = 0)
    (hno : subsequentNo.toNat < 2 ^ 32) :
    let id := (fullId operationId (L.toNai symbol) subsequentNo).toNat
    assetUniqueIdToOperationId id = .ok operationId ∧
      assetUniqueIdToAssetSymbol L id = .ok (symbol.setWidth 64) ∧
      assetUniqueIdToSubsequentNo id = .ok subsequentNo := by
  refine ⟨?_, ?_, ?_⟩
  · rw [assetUniqueIdToOperationId, numericToU128_toNat]
    exact congrArg Except.ok (toOperationId_fullId hno)
  · rw [assetUniqueIdToAssetSymbol, numericToU128_toNat]
    refine congrArg Except.ok (congrArg (BitVec.setWidth 64) ?_)
    rw [toNai_fullId hno, L.fromNai_toNai symbol hdecimals]
  · rw [assetUniqueIdToSubsequentNo, numericToU128_toNat]
    exact congrArg Except.ok (toSubsequentNo_fullId hno)

end Bits

/-- The extractors give back what an id was made from, so different inputs have different ids; and
every 128-bit number is read back from its text, which fits into the buffer. -/
theorem asset_id_reversible (L : SymbolLibrary) :
    (∀ (symbol : BitVec 32) (operationId subsequentNo : BitVec 64) (id : ℕ),
      generateAssetUniqueId L (symbol.setWidth 64) operationId subsequentNo = .ok id →
      assetUniqueIdToOperationId id = .ok operationId ∧
        assetUniqueIdToAssetSymbol L id = .ok (symbol.setWidth 64) ∧
        assetUniqueIdToSubsequentNo id = .ok subsequentNo ∧
        ∀ (symbol' : BitVec 32) (operationId' subsequentNo' : BitVec 64),
          generateAssetUniqueId L (symbol'.setWidth 64) operationId' subsequentNo' = .ok id →
          symbol' = symbol ∧ operationId' = operationId ∧ subsequentNo' = subsequentNo) ∧
    ∀ n : BitVec 128, ∃ text, u128ToString n = some text ∧ text.length ≤ 40 ∧
      stringToU128 text = .ok n := by
  have hsymbol : ∀ symbol : BitVec 32, (symbol.setWidth 64).setWidth 32 = symbol := fun symbol ↦ by
    rw [BitVec.setWidth_setWidth_of_le _ (by decide), BitVec.setWidth_eq]
  have hextract : ∀ (symbol : BitVec 32) (operationId subsequentNo : BitVec 64) (id : ℕ),
      generateAssetUniqueId L (symbol.setWidth 64) operationId subsequentNo = .ok id →
      assetUniqueIdToOperationId id = .ok operationId ∧
        assetUniqueIdToAssetSymbol L id = .ok (symbol.setWidth 64) ∧
        assetUniqueIdToSubsequentNo id = .ok subsequentNo := by
    intro symbol operationId subsequentNo id h
    obtain ⟨hno, hdecimals, rfl⟩ := generate_ok h
    rw [hsymbol] at hdecimals ⊢
    exact extract_fullId L hdecimals hno
  refine ⟨fun symbol operationId subsequentNo id h ↦ ?_, fun n ↦ ?_⟩
  · obtain ⟨hop, hsym, hno⟩ := hextract symbol operationId subsequentNo id h
    refine ⟨hop, hsym, hno, fun symbol' operationId' subsequentNo' h' ↦ ?_⟩
    obtain ⟨hop', hsym', hno'⟩ := hextract symbol' operationId' subsequentNo' id h'
    refine ⟨?_, Except.ok.inj (hop'.symm.trans hop), Except.ok.inj (hno'.symm.trans hno)⟩
    rw [← hsymbol symbol', ← hsymbol symbol, Except.ok.inj (hsym'.symm.trans hsym)]
  · refine ⟨decimal n.toNat, u128ToString_eq n, ?_, ?_⟩
    · exact decimal_length_le (by decide) (n.isLt.trans (by decide))
    · rw [stringToU128_decimal, BitVec.ofNat_toNat, BitVec.setWidth_eq]

def dammTable : List (List (Fin 10)) :=
  [[0, 3, 1, 7, 5, 9, 8, 6, 4, 2], [7, 0, 9, 2, 1, 5, 4, 8, 6, 3], [4, 2, 0, 6, 8, 7, 1, 3, 5, 9],
    [1, 7, 5, 0, 9, 8, 3, 4, 2, 6], [6, 1, 2, 3, 0, 4, 5, 9, 7, 8], [3, 6, 7, 4, 2, 0, 9, 5, 8, 1],
    [5, 8, 6, 9, 7, 2, 0, 1, 3, 4], [8, 9, 4, 5, 3, 6, 2, 0, 1, 7], [9, 4, 3, 8, 6, 1, 7, 2, 0, 5],
    [2, 5, 8, 1, 4, 3, 6, 7, 9, 0]]

/-- The check digit of the eight data digits of a NAI. -/
def dammChecksum (data : ℕ) : Fin 10 :=
  (List.range 8).reverse.foldl
    (fun check i ↦ (dammTable.getD check []).getD (data / 10 ^ i % 10) 0) 0

/-- The conversions of hive for SMT symbols: the data digits above bit 5, bit 4 set, the precision
in the low bits. A multiple of 32 is no symbol. -/
def smtSymbols : SymbolLibrary where
  decimals assetNum := if assetNum.toNat % 32 = 0 then 15 else assetNum.toNat % 16
  toNai assetNum :=
    BitVec.ofNat 32 (assetNum.toNat / 32 * 10 + dammChecksum (assetNum.toNat / 32))
  fromNai nai := BitVec.ofNat 32 (nai.toNat / 10 * 32 + 16)
  fromNai_toNai assetNum h := by
    have hcheck := (dammChecksum (assetNum.toNat / 32)).isLt
    have hnum := assetNum.isLt
    apply BitVec.eq_of_toNat_eq
    have hnai : assetNum.toNat / 32 * 10 + dammChecksum (assetNum.toNat / 32) < 2 ^ 32 := by omega
    rw [BitVec.toNat_ofNat, BitVec.toNat_ofNat, Nat.mod_eq_of_lt hnai]
    split at h <;> omega

theorem real_nai_reversible :
    smtSymbols.toNai 1432240400 = 447575128 ∧
      generateAssetUniqueId smtSymbols 1432240400 0x7FFFFFFFFFFFFFFF 0xFFFFFFFF =
        .ok (0x7FFFFFFFFFFFFFFF * 2 ^ 64 + 447575128 * 2 ^ 32 + 0xFFFFFFFF) ∧
      assetUniqueIdToAssetSymbol smtSymbols
        (0x7FFFFFFFFFFFFFFF * 2 ^ 64 + 447575128 * 2 ^ 32 + 0xFFFFFFFF) = .ok 1432240400 := by
  have hnai : smtSymbols.toNai 1432240400 = 447575128 := by decide
  have hok : generateAssetUniqueId smtSymbols 1432240400 0x7FFFFFFFFFFFFFFF 0xFFFFFFFF =
      .ok (0x7FFFFFFFFFFFFFFF * 2 ^ 64 + 447575128 * 2 ^ 32 + 0xFFFFFFFF) := by
    simp only [generateAssetUniqueId, u128ToString_eq, numericIn_decimal]
    rfl
  exact ⟨hnai, hok, ((asset_id_reversible smtSymbols).1 1432240400 _ _ _ hok).2.1⟩

end AssetUniqueId

end HiveForkManager
