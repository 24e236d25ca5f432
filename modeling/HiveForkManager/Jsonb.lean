import HiveForkManager.LogFile
import HiveForkManager.Lib.ExceptList

namespace HiveForkManager.OperationJsonb

inductive IntType where
  | int16
  | int64
  | uint8
  | uint16
  | uint32
  | uint64
  deriving DecidableEq, Repr

def IntType.width : IntType → ℕ
  | int16 | uint16 => 16
  | int64 | uint64 => 64
  | uint8 => 8
  | uint32 => 32

def IntType.isSigned : IntType → Bool
  | int16 | int64 => true
  | _ => false

inductive TextType where
  | fixedString
  | jsonString
  | publicKey
  | timePointSec
  deriving DecidableEq, Repr

mutual

inductive MemberType where
  | bool
  | int (type : IntType)
  | string
  | text (type : TextType)
  /-- `std::vector<char>`. -/
  | blob
  /-- `fc::array`, `fc::sha256` and `fc::ripemd160`. -/
  | bytes (size : ℕ)
  | asset
  | legacyHiveAsset
  | vector (elem : MemberType)
  | flatSet (elem : MemberType)
  | flatSetEx (elem : MemberType)
  | flatMap (key value : MemberType)
  | pair (first second : MemberType)
  | struct (members : Members)
  | staticVariant (name : Bytes) (members : Members) (others : Alternatives)

inductive Members where
  | nil
  | member (name : Bytes) (type : MemberType) (rest : Members)
  | optional (name : Bytes) (type : MemberType) (rest : Members)

inductive Alternatives where
  | nil
  | cons (name : Bytes) (members : Members) (rest : Alternatives)

end

structure Asset (Symbol : Type) where
  amount : BitVec 64
  symbol : Symbol
  deriving DecidableEq

/-- What is used of the libraries. Their text conversions invert each other, and the unsigned
conversion reads a negative numeral modulo 2^64. -/
structure Library where
  Text : TextType → Type
  Symbol : Type
  LegacyHiveAsset : Type
  emptyText : ∀ type, Text type
  emptyAsset : Asset Symbol
  emptyLegacyHiveAsset : LegacyHiveAsset
  legacyEnabled : Bool
  maxPositiveValue : ℤ
  maxNegativeValue : ℤ
  toText : ∀ {type}, Text type → Bytes
  fromText : ∀ type, Bytes → Option (Text type)
  fromText_toText : ∀ {type} (x : Text type), 0 ∉ toText x → fromText type (toText x) = some x
  toHex : Bytes → Bytes
  fromHex : Bytes → ℕ → Option Bytes
  fromHex_toHex : ∀ data, fromHex (toHex data) data.length = some data
  toHex_length : ∀ data, (toHex data).length = 2 * data.length
  toHex_ne_nul : ∀ data, 0 ∉ toHex data
  numeral : ℤ → Bytes
  stringToUint64 : Bytes → Option ℕ
  stringToUint64_numeral : ∀ z : ℤ, -2 ^ 63 ≤ z → z < 2 ^ 64 →
    stringToUint64 (numeral z) = some (z % 2 ^ 64).toNat
  lexicalCast : Bytes → Option (BitVec 64)
  lexicalCast_numeral : ∀ x : BitVec 64, lexicalCast (numeral x.toInt) = some x
  numeral_ne_nul : ∀ z, 0 ∉ numeral z
  decimals : Symbol → BitVec 8
  toNaiString : Symbol → Bytes
  fromNaiString : Bytes → BitVec 8 → Option Symbol
  fromNaiString_toNaiString : ∀ s, fromNaiString (toNaiString s) (decimals s) = some s
  toNaiString_ne_nul : ∀ s, 0 ∉ toNaiString s
  toLegacyString : Asset Symbol → Bytes
  fromLegacyString : Bytes → Option (Asset Symbol)
  fromLegacyString_toLegacyString : ∀ a : Asset Symbol, 0 ≤ a.amount.toInt →
    fromLegacyString (toLegacyString a) = some a
  toLegacyString_ne_nul : ∀ a, 0 ∉ toLegacyString a
  toAsset : LegacyHiveAsset → Asset Symbol
  fromAsset : Asset Symbol → Option LegacyHiveAsset
  fromAsset_toAsset : ∀ x, fromAsset (toAsset x) = some x

mutual

def MemberType.Val (L : Library) : MemberType → Type
  | .bool => Bool
  | .int type => BitVec type.width
  | .string => Bytes
  | .text type => L.Text type
  | .blob => Bytes
  | .bytes size => { data : Bytes // data.length = size }
  | .asset => Asset L.Symbol
  | .legacyHiveAsset => L.LegacyHiveAsset
  | .vector elem => List (elem.Val L)
  | .flatSet elem => List (elem.Val L)
  | .flatSetEx elem => List (elem.Val L)
  | .flatMap key value => List (key.Val L × value.Val L)
  | .pair first second => first.Val L × second.Val L
  | .struct members => members.Val L
  | .staticVariant _ members others => members.Val L ⊕ others.Val L

def Members.Val (L : Library) : Members → Type
  | .nil => Unit
  | .member _ type rest => type.Val L × rest.Val L
  | .optional _ type rest => Option (type.Val L) × rest.Val L

def Alternatives.Val (L : Library) : Alternatives → Type
  | .nil => Empty
  | .cons _ members rest => members.Val L ⊕ rest.Val L

end

mutual

def MemberType.empty (L : Library) : (type : MemberType) → type.Val L
  | .bool => false
  | .int type => (0 : BitVec type.width)
  | .string => ([] : Bytes)
  | .text type => L.emptyText type
  | .blob => ([] : Bytes)
  | .bytes size => ⟨List.replicate size 0, List.length_replicate⟩
  | .asset => L.emptyAsset
  | .legacyHiveAsset => L.emptyLegacyHiveAsset
  | .vector elem => ([] : List (elem.Val L))
  | .flatSet elem => ([] : List (elem.Val L))
  | .flatSetEx elem => ([] : List (elem.Val L))
  | .flatMap key value => ([] : List (key.Val L × value.Val L))
  | .pair first second => (first.empty L, second.empty L)
  | .struct members => members.empty L
  | .staticVariant _ members _ => .inl (members.empty L)

def Members.empty (L : Library) : (members : Members) → members.Val L
  | .nil => ()
  | .member _ type rest => (type.empty L, rest.empty L)
  | .optional _ _ rest => (none, rest.empty L)

end

inductive Jsonb where
  | null
  | bool (value : Bool)
  | numeric (value : ℤ)
  | string (value : Bytes)
  | array (elems : List Jsonb)
  | object (pairs : List (Bytes × Jsonb))

/-- The part of `JsonbParseState` for an object: the last key may be without a value. -/
structure ObjectState where
  pairs : List (Bytes × Jsonb)
  key : Option Bytes

def truncateNul (text : Bytes) : Bytes := text.takeWhile (· ≠ 0)

def pushString (value : Bytes) : Jsonb := .string (truncateNul value)

namespace ObjectState

def begin : ObjectState := ⟨[], none⟩

/-- `WJB_KEY` overwrites a key that got no value. -/
def pushKey (key : Bytes) (s : ObjectState) : ObjectState :=
  { s with key := some (truncateNul key) }

def pushValue (value : Jsonb) (s : ObjectState) : ObjectState :=
  match s.key with
  | none => s
  | some key => ⟨s.pairs ++ [(key, value)], none⟩

/-- `uniqueifyJsonbObject`: of equal keys the last one stays. The order of the keys is not kept
here. -/
def uniqueify : List (Bytes × Jsonb) → List (Bytes × Jsonb)
  | [] => []
  | p :: pairs =>
    if p.1 ∈ pairs.map Prod.fst then uniqueify pairs else p :: uniqueify pairs

def finish (s : ObjectState) : Jsonb := .object (uniqueify s.pairs)

end ObjectState

variable (L : Library)

/-- `push_uint64_to_jsonb` and `push_int64_to_jsonb`. -/
def pushInt64 (fits : Bool) (z : ℤ) : Jsonb :=
  if fits then .numeric z else pushString (L.numeral z)

def IntType.value (type : IntType) (x : BitVec type.width) : ℤ :=
  if type.isSigned then x.toInt else x.toNat

def IntType.toJsonb (type : IntType) (z : ℤ) : Jsonb :=
  match type with
  | .int64 => pushInt64 L (decide (z ≤ L.maxPositiveValue) && decide (z ≥ L.maxNegativeValue)) z
  | .uint64 => pushInt64 L (decide (z ≤ L.maxPositiveValue)) z
  | _ => .numeric z

def ascii (text : String) : Bytes := text.toList.map fun c ↦ UInt8.ofNat c.toNat

def assetToJsonb (a : Asset L.Symbol) : Jsonb :=
  if L.legacyEnabled then pushString (L.toLegacyString a)
  else
    ObjectState.finish <| ObjectState.begin
      |>.pushKey (ascii "amount") |>.pushValue (pushString (L.numeral a.amount.toInt))
      |>.pushKey (ascii "precision") |>.pushValue (.numeric (L.decimals a.symbol).toNat)
      |>.pushKey (ascii "nai") |>.pushValue (pushString (L.toNaiString a.symbol))

def variantToJsonb (name : Bytes) (value : Jsonb) : Jsonb :=
  ObjectState.finish <| ObjectState.begin
    |>.pushKey (ascii "type") |>.pushValue (pushString name)
    |>.pushKey (ascii "value") |>.pushValue value

mutual

def MemberType.toJsonb : (type : MemberType) → type.Val L → Jsonb
  | .bool, v => .bool v
  | .int type, v => type.toJsonb L (type.value v)
  | .string, v => pushString v
  | .text _, v => pushString (L.toText v)
  | .blob, v => pushString (L.toHex v)
  | .bytes _, v => pushString (L.toHex v.1)
  | .asset, v => assetToJsonb L v
  | .legacyHiveAsset, v => assetToJsonb L (L.toAsset v)
  | .vector elem, v => .array (v.map fun x ↦ elem.toJsonb x)
  | .flatSet elem, v => .array (v.map fun x ↦ elem.toJsonb x)
  | .flatSetEx elem, v => .array (v.map fun x ↦ elem.toJsonb x)
  | .flatMap key value, v => .array (v.map fun x ↦ .array [key.toJsonb x.1, value.toJsonb x.2])
  | .pair first second, v => .array [first.toJsonb v.1, second.toJsonb v.2]
  | .struct members, v => (members.push v .begin).finish
  | .staticVariant name members others, v =>
    match v with
    | .inl m => variantToJsonb name (members.push m .begin).finish
    | .inr o => others.toJsonb o

/-- `member_to_jsonb_visitor`: an optional member that is not valid pushes its key only. -/
def Members.push : (members : Members) → members.Val L → ObjectState → ObjectState
  | .nil, _, s => s
  | .member name type rest, v, s => rest.push v.2 ((s.pushKey name).pushValue (type.toJsonb v.1))
  | .optional name type rest, v, s =>
    match v.1 with
    | none => rest.push v.2 (s.pushKey name)
    | some x => rest.push v.2 ((s.pushKey name).pushValue (type.toJsonb x))

def Alternatives.toJsonb : (alternatives : Alternatives) → alternatives.Val L → Jsonb
  | .nil, v => nomatch v
  | .cons name members rest, v =>
    match v with
    | .inl m => variantToJsonb name (members.push m .begin).finish
    | .inr o => rest.toJsonb o

end

inductive ConversionError where
  /-- The expression or the message of a failed `FC_ASSERT`. -/
  | assertFailure (text : String)
  | invalidArg (message : String)
  | invalidObjectName (tag : Bytes)
  /-- A text conversion of the libraries fails. -/
  | badText (text : Bytes)
  deriving DecidableEq, Repr

def orBadText {α : Type} (text : Bytes) : Option α → Except ConversionError α
  | none => .error (.badText text)
  | some x => .ok x

def expectString : Jsonb → Except ConversionError Bytes
  | .string value => .ok value
  | _ => .error (.assertFailure "json.type == jbvString")

def expectArray : Jsonb → Except ConversionError (List Jsonb)
  | .array elems => .ok elems
  | .object _ => .error (.assertFailure "JsonContainerIsArray(json.val.binary.data)")
  | _ => .error (.assertFailure "json.type == jbvBinary")

def expectObject : Jsonb → Except ConversionError (List (Bytes × Jsonb))
  | .object pairs => .ok pairs
  | .array _ => .error (.assertFailure "JsonContainerIsObject(json.val.binary.data)")
  | _ => .error (.assertFailure "json.type == jbvBinary")

def lookup (key : Bytes) (pairs : List (Bytes × Jsonb)) : Option Jsonb :=
  (pairs.find? (fun p ↦ decide (p.1 = key))).map Prod.snd

def numericToUint64 (z : ℤ) : Except ConversionError ℕ :=
  orBadText (L.numeral z) (L.stringToUint64 (L.numeral z))

/-- `set_member` of a number; only the ones of 64 bits may be strings. -/
def IntType.fromJsonb (type : IntType) : Jsonb → Except ConversionError (BitVec type.width)
  | .numeric z => BitVec.ofNat type.width <$> numericToUint64 L z
  | .string text =>
    if type.width = 64 then BitVec.ofNat type.width <$> orBadText text (L.stringToUint64 text)
    else .error (.assertFailure "json.type == jbvNumeric")
  | _ =>
    if type.width = 64 then .error (.invalidArg "Must be numeric or string type")
    else .error (.assertFailure "json.type == jbvNumeric")

def blobFromJsonb (json : Jsonb) : Except ConversionError Bytes := do
  let text ← expectString json
  orBadText text (L.fromHex text (text.length / 2))

/-- `memcpy` into a member that is zero, of at most its size. -/
def copyInto (size : ℕ) (data : Bytes) : { data : Bytes // data.length = size } :=
  ⟨(data ++ List.replicate size 0).take size, by simp⟩

def precisionFromJsonb (precision : ℤ) : Except ConversionError (BitVec 8) :=
  IntType.fromJsonb L .uint8 (.numeric precision)

def assetFromJsonb (json : Jsonb) : Except ConversionError (Asset L.Symbol) :=
  if L.legacyEnabled then do
    let text ← expectString json
    orBadText text (L.fromLegacyString text)
  else do
    let pairs ← expectObject json
    match lookup (ascii "amount") pairs, lookup (ascii "precision") pairs,
        lookup (ascii "nai") pairs with
    | some (.string amount), some (.numeric precision), some (.string nai) =>
      let precisionInt ← precisionFromJsonb L precision
      let amountInt ← orBadText amount (L.lexicalCast amount)
      if amountInt.toInt < 0 then .error (.assertFailure "Asset amount cannot be negative")
      else do
        let symbol ← orBadText nai (L.fromNaiString nai precisionInt)
        .ok ⟨amountInt, symbol⟩
    | some (.string _), some (.numeric _), _ => .error (.assertFailure "nai.type == jbvString")
    | some (.string _), _, _ => .error (.assertFailure "precision.type == jbvNumeric")
    | _, _, _ => .error (.assertFailure "amount.type == jbvString")

/-- `insert` of a sorted container without equal elements. -/
def insertBy {α : Type} (less : α → α → Bool) (x : α) : List α → List α
  | [] => [x]
  | y :: ys =>
    if less y x then y :: insertBy less x ys else if less x y then x :: y :: ys else y :: ys

def expectPair (json : Jsonb) : Except ConversionError (Jsonb × Jsonb) := do
  let elems ← expectArray json
  match elems with
  | [first, second] => .ok (first, second)
  | _ => .error (.assertFailure "elementCount == 2")

def expectType : Option Jsonb → Except ConversionError Bytes
  | some (.string tag) => .ok tag
  | _ => .error (.assertFailure "type.type == jbvString")

def expectValue : Option Jsonb → Except ConversionError (List (Bytes × Jsonb))
  | some (.object pairs) => .ok pairs
  | some (.array _) => .error (.assertFailure "JsonContainerIsObject(value.val.binary.data)")
  | _ => .error (.assertFailure "value.type == jbvBinary")

/-- `member_from_jsonb_visitor`: a member that is not found is left as it is. -/
def setFound {α : Type} (old : α) (set : Jsonb → Except ConversionError α) :
    Option Jsonb → Except ConversionError α
  | none => .ok old
  | some value => set value

def setOptional {α : Type} (set : Jsonb → Except ConversionError α) :
    Jsonb → Except ConversionError (Option α)
  | .null => .ok none
  | json => some <$> set json

abbrev Less := (type : MemberType) → type.Val L → type.Val L → Bool

variable {L} (less : Less L)

mutual

def MemberType.fromJsonb : (type : MemberType) → Jsonb → Except ConversionError (type.Val L)
  | .bool, json =>
    match json with
    | .bool value => .ok value
    | _ => .error (.assertFailure "json.type == jbvBool")
  | .int type, json => type.fromJsonb L json
  | .string, json => expectString json
  | .text type, json => do
    let text ← expectString json
    orBadText text (L.fromText type text)
  | .blob, json => blobFromJsonb L json
  | .bytes size, json => do
    let text ← expectString json
    if text = [] then .ok (MemberType.empty L (.bytes size))
    else copyInto size <$> blobFromJsonb L json
  | .asset, json => assetFromJsonb L json
  | .legacyHiveAsset, json => do
    let a ← assetFromJsonb L json
    orBadText [] (L.fromAsset a)
  | .vector elem, json => do
    let elems ← expectArray json
    elems.mapM fun x ↦ elem.fromJsonb x
  | .flatSet elem, json => do
    let elems ← expectArray json
    elems.foldlM (fun set x ↦ do
      let v ← elem.fromJsonb x
      .ok (insertBy (less elem) v set)) []
  | .flatSetEx elem, json => do
    let elems ← expectArray json
    elems.foldlM (fun set x ↦ do
      let v ← elem.fromJsonb x
      if set.getLast?.all (fun last ↦ less elem last v) then .ok (insertBy (less elem) v set)
      else .error (.assertFailure "Items should be unique and sorted")) []
  | .flatMap key value, json => do
    let elems ← expectArray json
    elems.foldlM (fun map x ↦ do
      let (k, v) ← expectPair x
      let k ← key.fromJsonb k
      let v ← value.fromJsonb v
      .ok (insertBy (fun x y ↦ less key x.1 y.1) (k, v) map)) []
  | .pair first second, json => do
    let (a, b) ← expectPair json
    let a ← first.fromJsonb a
    let b ← second.fromJsonb b
    .ok (a, b)
  | .struct members, json => do
    let pairs ← expectObject json
    members.fromJsonb pairs
  | .staticVariant name members others, json => do
    let pairs ← expectObject json
    let tag ← expectType (lookup (ascii "type") pairs)
    let value ← expectValue (lookup (ascii "value") pairs)
    match others.fromJsonb tag value with
    | some v => Sum.inr <$> v
    | none =>
      if name = tag then Sum.inl <$> members.fromJsonb value
      else .error (.invalidObjectName tag)

def Members.fromJsonb :
    (members : Members) → List (Bytes × Jsonb) → Except ConversionError (members.Val L)
  | .nil, _ => .ok ()
  | .member name type rest, pairs => do
    let v ← setFound (type.empty L) (fun value ↦ type.fromJsonb value) (lookup name pairs)
    let vs ← rest.fromJsonb pairs
    .ok (v, vs)
  | .optional name type rest, pairs => do
    let v ← setFound none (setOptional fun value ↦ type.fromJsonb value) (lookup name pairs)
    let vs ← rest.fromJsonb pairs
    .ok (v, vs)

def Alternatives.fromJsonb : (alternatives : Alternatives) → Bytes → List (Bytes × Jsonb) →
    Option (Except ConversionError (alternatives.Val L))
  | .nil, _, _ => none
  | .cons name members rest, tag, value =>
    match rest.fromJsonb tag value with
    | some v => some (Sum.inr <$> v)
    | none => if name = tag then some (Sum.inl <$> members.fromJsonb value) else none

end

section Operations

variable {name : Bytes} {members : Members} {others : Alternatives}

/-- `operation_to_jsonb_value`: an operation is a static variant of structs. -/
def operationToJsonbValue (op : (MemberType.staticVariant name members others).Val L) : Jsonb :=
  MemberType.toJsonb L _ op

def operationFromJsonbValue (json : Jsonb) :
    Except ConversionError ((MemberType.staticVariant name members others).Val L) :=
  MemberType.fromJsonb less _ json

end Operations

def Members.names : Members → List Bytes
  | .nil => []
  | .member name _ rest | .optional name _ rest => name :: rest.names

def Alternatives.names : Alternatives → List Bytes
  | .nil => []
  | .cons name _ rest => name :: rest.names

mutual

/-- The members of a struct and the types of a static variant have distinct names, which are C
strings. -/
def MemberType.WellFormed : MemberType → Prop
  | .vector elem | .flatSet elem | .flatSetEx elem => elem.WellFormed
  | .flatMap first second | .pair first second => first.WellFormed ∧ second.WellFormed
  | .struct members => members.WellFormed
  | .staticVariant name members others =>
    (0 ∉ name ∧ name ∉ others.names) ∧ members.WellFormed ∧ others.WellFormed
  | _ => True

def Members.WellFormed : Members → Prop
  | .nil => True
  | .member name type rest | .optional name type rest =>
    (0 ∉ name ∧ name ∉ rest.names) ∧ type.WellFormed ∧ rest.WellFormed

def Alternatives.WellFormed : Alternatives → Prop
  | .nil => True
  | .cons name members rest =>
    (0 ∉ name ∧ name ∉ rest.names) ∧ members.WellFormed ∧ rest.WellFormed

end

mutual

def MemberType.Valid : (type : MemberType) → type.Val L → Prop
  | .string, v => (0 : UInt8) ∉ (show Bytes from v)
  | .text _, v => 0 ∉ L.toText v
  | .asset, v => 0 ≤ (show Asset L.Symbol from v).amount.toInt
  | .legacyHiveAsset, v => 0 ≤ (L.toAsset v).amount.toInt
  | .vector elem, v => ∀ x ∈ (show List (elem.Val L) from v), elem.Valid x
  | .flatSet elem, v | .flatSetEx elem, v =>
    (show List (elem.Val L) from v).Pairwise (fun x y ↦ less elem x y = true) ∧
      ∀ x ∈ (show List (elem.Val L) from v), elem.Valid x
  | .flatMap key value, v =>
    (show List (key.Val L × value.Val L) from v).Pairwise
        (fun x y ↦ less key x.1 y.1 = true) ∧
      ∀ x ∈ (show List (key.Val L × value.Val L) from v), key.Valid x.1 ∧ value.Valid x.2
  | .pair first second, v => first.Valid v.1 ∧ second.Valid v.2
  | .struct members, v => members.Valid v
  | .staticVariant _ members others, v =>
    match v with
    | .inl m => members.Valid m
    | .inr o => others.Valid o
  | _, _ => True

def Members.Valid : (members : Members) → members.Val L → Prop
  | .nil, _ => True
  | .member _ type rest, v => type.Valid v.1 ∧ rest.Valid v.2
  | .optional _ type rest, v =>
    (match v.1 with
      | none => True
      | some x => type.Valid x) ∧ rest.Valid v.2

def Alternatives.Valid : (alternatives : Alternatives) → alternatives.Val L → Prop
  | .nil, _ => True
  | .cons _ members rest, v =>
    match v with
    | .inl m => members.Valid m
    | .inr o => rest.Valid o

end

end HiveForkManager.OperationJsonb
