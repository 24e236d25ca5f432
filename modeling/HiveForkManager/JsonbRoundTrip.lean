import HiveForkManager.Jsonb

namespace HiveForkManager.OperationJsonb

open ExceptList

variable {L : Library} {less : Less L}

theorem truncateNul_eq {text : Bytes} (h : 0 ∉ text) : truncateNul text = text := by
  rw [truncateNul, List.takeWhile_eq_self_iff]
  intro b hb
  exact decide_eq_true fun heq ↦ h (heq ▸ hb)

theorem pushString_eq {text : Bytes} (h : 0 ∉ text) : pushString text = .string text := by
  rw [pushString, truncateNul_eq h]

theorem IntType.value_mem (type : IntType) (x : BitVec type.width) :
    -2 ^ 63 ≤ type.value x ∧ type.value x < 2 ^ 64 := by
  have hlow := BitVec.le_toInt x
  have hhigh := BitVec.toInt_lt (x := x)
  have hnat := x.isLt
  cases type <;> simp only [IntType.value, isSigned, width] at * <;> simp <;> omega

theorem IntType.ofNat_value (type : IntType) (x : BitVec type.width) :
    BitVec.ofNat type.width (type.value x % 2 ^ 64).toNat = x := by
  have hmod : ∀ z : ℤ, BitVec.ofNat type.width (z % 2 ^ 64).toNat = BitVec.ofInt type.width z := by
    intro z
    apply BitVec.eq_of_toNat_eq
    rw [BitVec.toNat_ofNat, BitVec.toNat_ofInt]
    cases type <;> simp only [width] <;> omega
  rw [hmod, value]
  split
  · exact BitVec.ofInt_toInt
  · rw [BitVec.ofInt_natCast, BitVec.ofNat_toNat, BitVec.setWidth_eq]

theorem stringToUint64_value (type : IntType) (x : BitVec type.width) :
    L.stringToUint64 (L.numeral (type.value x)) = some (type.value x % 2 ^ 64).toNat :=
  L.stringToUint64_numeral _ (type.value_mem x).1 (type.value_mem x).2

theorem IntType.fromJsonb_numeric (type : IntType) (x : BitVec type.width) :
    type.fromJsonb L (.numeric (type.value x)) = .ok x := by
  rw [IntType.fromJsonb, numericToUint64, stringToUint64_value]
  exact congrArg Except.ok (type.ofNat_value x)

theorem IntType.fromJsonb_pushInt64 {type : IntType} (h : type.width = 64) (fits : Bool)
    (x : BitVec type.width) : type.fromJsonb L (pushInt64 L fits (type.value x)) = .ok x := by
  rw [pushInt64]
  split
  · exact type.fromJsonb_numeric x
  · rw [pushString_eq (L.numeral_ne_nul _), IntType.fromJsonb, if_pos h, stringToUint64_value]
    exact congrArg Except.ok (type.ofNat_value x)

theorem IntType.fromJsonb_toJsonb (type : IntType) (x : BitVec type.width) :
    type.fromJsonb L (type.toJsonb L (type.value x)) = .ok x := by
  cases type with
  | int64 => exact fromJsonb_pushInt64 rfl _ x
  | uint64 => exact fromJsonb_pushInt64 rfl _ x
  | int16 => exact fromJsonb_numeric _ x
  | uint8 => exact fromJsonb_numeric _ x
  | uint16 => exact fromJsonb_numeric _ x
  | uint32 => exact fromJsonb_numeric _ x

theorem blobFromJsonb_toHex (data : Bytes) :
    blobFromJsonb L (pushString (L.toHex data)) = .ok data := by
  rw [blobFromJsonb, pushString_eq (L.toHex_ne_nul data)]
  change orBadText _ (L.fromHex (L.toHex data) ((L.toHex data).length / 2)) = _
  rw [L.toHex_length, Nat.mul_div_cancel_left _ two_pos, L.fromHex_toHex]
  rfl

theorem copyInto_eq {size : ℕ} (data : { data : Bytes // data.length = size }) :
    copyInto size data.1 = data := by
  apply Subtype.ext
  rw [copyInto]
  exact List.take_left' data.2

theorem lookup_cons (key name : Bytes) (value : Jsonb) (pairs : List (Bytes × Jsonb)) :
    lookup key ((name, value) :: pairs) = if name = key then some value else lookup key pairs := by
  rw [lookup, List.find?_cons]
  by_cases h : name = key <;> simp [h, lookup]

theorem lookup_eq_none {key : Bytes} {pairs : List (Bytes × Jsonb)}
    (h : key ∉ pairs.map Prod.fst) : lookup key pairs = none := by
  rw [lookup, Option.map_eq_none_iff, List.find?_eq_none]
  intro p hp heq
  exact h (List.mem_map.mpr ⟨p, hp, of_decide_eq_true heq⟩)

theorem uniqueify_eq {pairs : List (Bytes × Jsonb)} (h : (pairs.map Prod.fst).Nodup) :
    ObjectState.uniqueify pairs = pairs := by
  induction pairs with
  | nil => rfl
  | cons p pairs ih =>
    obtain ⟨hp, hpairs⟩ := List.nodup_cons.mp h
    rw [ObjectState.uniqueify, if_neg hp, ih hpairs]

theorem pushKey_pushValue {key : Bytes} (h : 0 ∉ key) (value : Jsonb) (s : ObjectState) :
    (s.pushKey key).pushValue value = ⟨s.pairs ++ [(key, value)], none⟩ := by
  rw [ObjectState.pushKey, truncateNul_eq h]
  rfl

theorem finish_eq {s : ObjectState} (h : (s.pairs.map Prod.fst).Nodup) :
    s.finish = .object s.pairs := by
  rw [ObjectState.finish, uniqueify_eq h]

variable {name : Bytes} {α : Type}

theorem variantToJsonb_eq (h : 0 ∉ name) (value : Jsonb) :
    variantToJsonb name value =
      .object [(ascii "type", .string name), (ascii "value", value)] := by
  rw [variantToJsonb, pushString_eq h, pushKey_pushValue (by decide), pushKey_pushValue (by decide)]
  refine finish_eq ?_
  change [ascii "type", ascii "value"].Nodup
  decide

theorem assetToJsonb_eq (a : Asset L.Symbol) (h : L.legacyEnabled = false) :
    assetToJsonb L a = .object [(ascii "amount", .string (L.numeral a.amount.toInt)),
      (ascii "precision", .numeric (L.decimals a.symbol).toNat),
      (ascii "nai", .string (L.toNaiString a.symbol))] := by
  rw [assetToJsonb, h, if_neg Bool.false_ne_true, pushString_eq (L.numeral_ne_nul _),
    pushString_eq (L.toNaiString_ne_nul _), pushKey_pushValue (by decide),
    pushKey_pushValue (by decide), pushKey_pushValue (by decide)]
  refine finish_eq ?_
  change [ascii "amount", ascii "precision", ascii "nai"].Nodup
  decide

theorem assetFromJsonb_toJsonb {a : Asset L.Symbol} (ha : 0 ≤ a.amount.toInt) :
    assetFromJsonb L (assetToJsonb L a) = .ok a := by
  cases hlegacy : L.legacyEnabled with
  | true =>
    rw [assetFromJsonb, assetToJsonb, hlegacy, if_pos rfl, if_pos rfl,
      pushString_eq (L.toLegacyString_ne_nul a)]
    change orBadText _ (L.fromLegacyString (L.toLegacyString a)) = _
    rw [L.fromLegacyString_toLegacyString a ha]
    rfl
  | false =>
    have hprecision : precisionFromJsonb L (L.decimals a.symbol).toNat =
      .ok (L.decimals a.symbol) := IntType.fromJsonb_numeric .uint8 (L.decimals a.symbol)
    obtain ⟨pairs, hpairs⟩ : ∃ pairs, pairs =
      [(ascii "amount", .string (L.numeral a.amount.toInt)),
        (ascii "precision", .numeric (L.decimals a.symbol).toNat),
        (ascii "nai", Jsonb.string (L.toNaiString a.symbol))] := ⟨_, rfl⟩
    have hamount : lookup (ascii "amount") pairs = some (.string (L.numeral a.amount.toInt)) := by
      rw [hpairs, lookup_cons, if_pos rfl]
    have hdecimals : lookup (ascii "precision") pairs =
        some (.numeric (L.decimals a.symbol).toNat) := by
      rw [hpairs, lookup_cons, if_neg (by decide), lookup_cons, if_pos rfl]
    have hnai : lookup (ascii "nai") pairs = some (.string (L.toNaiString a.symbol)) := by
      rw [hpairs, lookup_cons, if_neg (by decide), lookup_cons, if_neg (by decide), lookup_cons,
        if_pos rfl]
    rw [assetToJsonb_eq a hlegacy, ← hpairs, assetFromJsonb, hlegacy, if_neg Bool.false_ne_true,
      expectObject, ok_bind, hamount, hdecimals, hnai]
    simp only [hprecision, L.lexicalCast_numeral, orBadText, ok_bind, not_lt.mpr ha, if_false,
      L.fromNaiString_toNaiString]

theorem insertBy_of_forall {less : α → α → Bool} {x : α} {l : List α}
    (h : ∀ y ∈ l, less y x = true) : insertBy less x l = l ++ [x] := by
  induction l with
  | nil => rfl
  | cons y l ih =>
    rw [insertBy, if_pos (h y List.mem_cons_self), ih fun z hz ↦ h z (List.mem_cons_of_mem _ hz)]
    rfl

theorem foldlM_sorted {R : α → α → Prop} {toJson : α → Jsonb}
    {step : List α → Jsonb → Except ConversionError (List α)} {l : List α} (front : List α)
    (hstep : ∀ x ∈ l, ∀ set, (∀ y ∈ set, R y x) → step set (toJson x) = .ok (set ++ [x]))
    (hl : (front ++ l).Pairwise R) : (l.map toJson).foldlM step front = .ok (front ++ l) := by
  induction l generalizing front with
  | nil =>
    rw [List.append_nil]
    rfl
  | cons x l ih =>
    have hx := hstep x List.mem_cons_self front fun y hy ↦
      (List.pairwise_append.mp hl).2.2 y hy x List.mem_cons_self
    rw [List.map_cons, List.foldlM_cons, hx]
    refine (ih (front ++ [x]) (fun z hz ↦ hstep z (List.mem_cons_of_mem _ hz)) ?_).trans ?_
    · simpa using hl
    · simp

theorem mapM_map_ok {toJson : α → Jsonb} {read : Jsonb → Except ConversionError α}
    {l : List α} (h : ∀ x ∈ l, read (toJson x) = .ok x) : (l.map toJson).mapM read = .ok l := by
  induction l with
  | nil => rfl
  | cons x l ih =>
    rw [List.map_cons, List.mapM_cons, h x List.mem_cons_self,
      ih fun y hy ↦ h y (List.mem_cons_of_mem _ hy)]
    rfl

theorem pushInt64_ne_null (fits : Bool) (z : ℤ) : pushInt64 L fits z ≠ .null := by
  rw [pushInt64]
  split <;> rintro ⟨⟩

theorem assetToJsonb_ne_null (a : Asset L.Symbol) : assetToJsonb L a ≠ .null := by
  rw [assetToJsonb]
  split <;> rintro ⟨⟩

theorem Alternatives.toJsonb_ne_null :
    (alternatives : Alternatives) → (v : alternatives.Val L) → alternatives.toJsonb L v ≠ .null
  | .nil, v => nomatch v
  | .cons name members rest, v => by
    cases v with
    | inl m => rintro ⟨⟩
    | inr o => exact rest.toJsonb_ne_null o

theorem MemberType.toJsonb_ne_null (type : MemberType) (v : type.Val L) :
    type.toJsonb L v ≠ .null := by
  cases type with
  | int type => cases type <;> first | exact pushInt64_ne_null _ _ | rintro ⟨⟩
  | asset => exact assetToJsonb_ne_null _
  | legacyHiveAsset => exact assetToJsonb_ne_null _
  | staticVariant name members others =>
    cases v with
    | inl m => rintro ⟨⟩
    | inr o => exact others.toJsonb_ne_null o
  | _ => rintro ⟨⟩

def Members.pairs : (members : Members) → members.Val L → List (Bytes × Jsonb)
  | .nil, _ => []
  | .member name type rest, v => (name, type.toJsonb L v.1) :: rest.pairs v.2
  | .optional name type rest, v =>
    match v.1 with
    | none => rest.pairs v.2
    | some x => (name, type.toJsonb L x) :: rest.pairs v.2

theorem Members.pairs_push : (members : Members) → members.WellFormed → (v : members.Val L) →
    (s : ObjectState) → (members.push L v s).pairs = s.pairs ++ members.pairs v
  | .nil, _, _, s => (List.append_nil s.pairs).symm
  | .member name type rest, h, v, s => by
    rw [Members.push, rest.pairs_push h.2.2, pushKey_pushValue h.1.1, List.append_assoc]
    rfl
  | .optional name type rest, h, (none, vs), s => rest.pairs_push h.2.2 vs (s.pushKey name)
  | .optional name type rest, h, (some x, vs), s => by
    change (rest.push L vs ((s.pushKey name).pushValue (type.toJsonb L x))).pairs = _
    rw [rest.pairs_push h.2.2, pushKey_pushValue h.1.1, List.append_assoc]
    rfl

theorem Members.keys_pairs : (members : Members) → (v : members.Val L) →
    ((members.pairs v).map Prod.fst).Sublist members.names
  | .nil, _ => .slnil
  | .member _ _ rest, v => (rest.keys_pairs v.2).cons_cons _
  | .optional _ _ rest, (none, vs) => (rest.keys_pairs vs).cons _
  | .optional _ _ rest, (some _, vs) => (rest.keys_pairs vs).cons_cons _

theorem Members.names_nodup : (members : Members) → members.WellFormed → members.names.Nodup
  | .nil, _ => List.nodup_nil
  | .member _ _ rest, h => List.nodup_cons.mpr ⟨h.1.2, rest.names_nodup h.2.2⟩
  | .optional _ _ rest, h => List.nodup_cons.mpr ⟨h.1.2, rest.names_nodup h.2.2⟩

theorem Members.finish_push (members : Members) (h : members.WellFormed) (v : members.Val L) :
    (members.push L v .begin).finish = .object (members.pairs v) := by
  have hpairs : (members.push L v .begin).pairs = members.pairs v := members.pairs_push h v .begin
  rw [finish_eq, hpairs]
  rw [hpairs]
  exact (members.names_nodup h).sublist (members.keys_pairs v)

theorem Members.lookup_pairs_of_not_mem {members : Members} (v : members.Val L)
    (h : name ∉ members.names) : lookup name (members.pairs v) = none :=
  lookup_eq_none fun hmem ↦ h ((members.keys_pairs v).subset hmem)

theorem Alternatives.fromJsonb_eq_none : (alternatives : Alternatives) → {tag : Bytes} →
    tag ∉ alternatives.names → (value : List (Bytes × Jsonb)) →
    alternatives.fromJsonb less tag value = none
  | .nil, _, _, _ => rfl
  | .cons name members rest, tag, h, value => by
    obtain ⟨hne, hrest⟩ := List.ne_and_not_mem_of_not_mem_cons h
    rw [Alternatives.fromJsonb, rest.fromJsonb_eq_none hrest value]
    exact if_neg (Ne.symm hne)

theorem setOptional_of_ne_null {set : Jsonb → Except ConversionError α} {json : Jsonb}
    (h : json ≠ .null) : setOptional set json = some <$> set json := by
  cases json <;> first | rfl | exact absurd rfl h

theorem fixedFromJsonb_toHex {size : ℕ} (v : { data : Bytes // data.length = size }) :
    MemberType.fromJsonb less (.bytes size) (pushString (L.toHex v.1)) = .ok v := by
  rw [MemberType.fromJsonb, pushString_eq (L.toHex_ne_nul _), expectString, ok_bind,
    ← pushString_eq (L.toHex_ne_nul _), blobFromJsonb_toHex]
  split
  case isTrue hnil =>
    have hlength := L.toHex_length v.1
    rw [hnil] at hlength
    have hzero : v.1 = [] := List.length_eq_zero_iff.mp (by simpa using hlength.symm)
    refine congrArg Except.ok (Subtype.ext ?_)
    have hsize : size = 0 := by rw [← v.2, hzero]; rfl
    subst hsize
    exact hzero.symm
  case isFalse => exact congrArg Except.ok (copyInto_eq v)

theorem fromJsonb_staticVariant {members : Members} {others : Alternatives}
    (tag : Bytes) (pairs : List (Bytes × Jsonb)) :
    MemberType.fromJsonb less (.staticVariant name members others)
        (.object [(ascii "type", .string tag), (ascii "value", .object pairs)]) =
      match others.fromJsonb less tag pairs with
      | some v => Sum.inr <$> v
      | none =>
        if name = tag then Sum.inl <$> members.fromJsonb less pairs
        else .error (.invalidObjectName tag) := by
  have htype : lookup (ascii "type") [(ascii "type", .string tag), (ascii "value", .object pairs)] =
      some (.string tag) := by
    rw [lookup_cons, if_pos rfl]
  have hvalue : lookup (ascii "value")
      [(ascii "type", .string tag), (ascii "value", .object pairs)] = some (.object pairs) := by
    rw [lookup_cons, if_neg (by decide), lookup_cons, if_pos rfl]
  rw [MemberType.fromJsonb, expectObject, ok_bind, htype, hvalue]
  rfl

mutual

theorem MemberType.fromJsonb_toJsonb : (type : MemberType) → type.WellFormed →
    (v : type.Val L) → type.Valid less v → type.fromJsonb less (type.toJsonb L v) = .ok v
  | .bool, _, _, _ => rfl
  | .int type, _, v, _ => type.fromJsonb_toJsonb v
  | .string, _, v, hv => by
    rw [MemberType.toJsonb, pushString_eq hv]
    rfl
  | .text type, _, v, hv => by
    rw [MemberType.toJsonb, pushString_eq hv]
    change orBadText _ (L.fromText type (L.toText v)) = _
    rw [L.fromText_toText v hv]
    rfl
  | .blob, _, v, _ => blobFromJsonb_toHex v
  | .bytes size, _, v, _ => fixedFromJsonb_toHex v
  | .asset, _, _, hv => assetFromJsonb_toJsonb hv
  | .legacyHiveAsset, _, v, hv => by
    rw [MemberType.toJsonb, MemberType.fromJsonb, assetFromJsonb_toJsonb hv, ok_bind]
    exact congrArg (orBadText []) (L.fromAsset_toAsset v)
  | .vector elem, h, v, hv => mapM_map_ok fun x hx ↦ elem.fromJsonb_toJsonb h x (hv x hx)
  | .flatSet elem, h, v, hv => by
    refine foldlM_sorted [] (fun x hx set hset ↦ ?_) hv.1
    rw [elem.fromJsonb_toJsonb h x (hv.2 x hx), ok_bind, insertBy_of_forall hset]
    rfl
  | .flatSetEx elem, h, v, hv => by
    refine foldlM_sorted [] (fun x hx set hset ↦ ?_) hv.1
    have hlast : set.getLast?.all (fun last ↦ less elem last x) = true := by
      cases hlast : set.getLast? with
      | none => rfl
      | some last => exact hset last (List.mem_of_getLast? hlast)
    rw [elem.fromJsonb_toJsonb h x (hv.2 x hx), ok_bind, if_pos hlast, insertBy_of_forall hset]
    rfl
  | .flatMap key value, h, v, hv => by
    refine foldlM_sorted [] (fun x hx map hmap ↦ ?_) hv.1
    obtain ⟨hkey, hvalue⟩ := hv.2 x hx
    change (do
      let k ← key.fromJsonb less (key.toJsonb L x.1)
      let v ← value.fromJsonb less (value.toJsonb L x.2)
      .ok (insertBy (fun (x y : key.Val L × value.Val L) ↦ less key x.1 y.1) (k, v) map)) = _
    rw [key.fromJsonb_toJsonb h.1 x.1 hkey, value.fromJsonb_toJsonb h.2 x.2 hvalue, ok_bind,
      ok_bind, insertBy_of_forall hmap]
  | .pair first second, h, v, hv => by
    change (do
      let a ← first.fromJsonb less (first.toJsonb L v.1)
      let b ← second.fromJsonb less (second.toJsonb L v.2)
      .ok (a, b)) = _
    rw [first.fromJsonb_toJsonb h.1 v.1 hv.1, second.fromJsonb_toJsonb h.2 v.2 hv.2]
    rfl
  | .struct members, h, v, hv => by
    rw [MemberType.toJsonb, members.finish_push h v]
    exact members.fromJsonb_of_lookup h v hv _ fun _ _ ↦ rfl
  | .staticVariant name members others, h, .inl m, hv => by
    change MemberType.fromJsonb less _ (variantToJsonb name (members.push L m .begin).finish) = _
    rw [variantToJsonb_eq h.1.1, members.finish_push h.2.1, fromJsonb_staticVariant,
      others.fromJsonb_eq_none h.1.2]
    dsimp only
    rw [if_pos rfl, members.fromJsonb_of_lookup h.2.1 m hv _ fun _ _ ↦ rfl]
    rfl
  | .staticVariant name members others, h, .inr o, hv => by
    obtain ⟨tag, pairs, hto, hfrom⟩ := others.fromJsonb_toJsonb h.2.2 o hv
    change MemberType.fromJsonb less _ (others.toJsonb L o) = _
    rw [hto, fromJsonb_staticVariant, hfrom]
    rfl

theorem Members.fromJsonb_of_lookup : (members : Members) → members.WellFormed →
    (v : members.Val L) → members.Valid less v → (pairs : List (Bytes × Jsonb)) →
    (∀ name ∈ members.names, lookup name pairs = lookup name (members.pairs v)) →
    members.fromJsonb less pairs = .ok v
  | .nil, _, _, _, _, _ => rfl
  | .member name type rest, h, v, hv, pairs, hpairs => by
    have hhead : lookup name pairs = some (type.toJsonb L v.1) := by
      rw [hpairs name List.mem_cons_self, Members.pairs, lookup_cons, if_pos rfl]
    have hrest := rest.fromJsonb_of_lookup h.2.2 v.2 hv.2 pairs fun n hn ↦ by
      have hne : name ≠ n := fun heq ↦ h.1.2 (heq ▸ hn)
      rw [hpairs n (List.mem_cons_of_mem _ hn), Members.pairs, lookup_cons, if_neg hne]
    rw [Members.fromJsonb, hhead, setFound, type.fromJsonb_toJsonb h.2.1 v.1 hv.1, hrest]
    rfl
  | .optional name type rest, h, (none, vs), hv, pairs, hpairs => by
    have hhead : lookup name pairs = none :=
      (hpairs name List.mem_cons_self).trans (rest.lookup_pairs_of_not_mem vs h.1.2)
    have hrest := rest.fromJsonb_of_lookup h.2.2 vs hv.2 pairs fun n hn ↦
      hpairs n (List.mem_cons_of_mem _ hn)
    rw [Members.fromJsonb, hhead, hrest]
    rfl
  | .optional name type rest, h, (some x, vs), hv, pairs, hpairs => by
    have hlookup : ∀ n, lookup n ((Members.optional name type rest).pairs (some x, vs)) =
        if name = n then some (type.toJsonb L x) else lookup n (rest.pairs vs) := fun n ↦
      lookup_cons n name _ _
    have hhead : lookup name pairs = some (type.toJsonb L x) := by
      rw [hpairs name List.mem_cons_self, hlookup, if_pos rfl]
    have hrest := rest.fromJsonb_of_lookup h.2.2 vs hv.2 pairs fun n hn ↦ by
      have hne : name ≠ n := fun heq ↦ h.1.2 (heq ▸ hn)
      rw [hpairs n (List.mem_cons_of_mem _ hn), hlookup, if_neg hne]
    rw [Members.fromJsonb, hhead, setFound, setOptional_of_ne_null (type.toJsonb_ne_null x),
      type.fromJsonb_toJsonb h.2.1 x hv.1, hrest]
    rfl

theorem Alternatives.fromJsonb_toJsonb : (alternatives : Alternatives) →
    alternatives.WellFormed → (v : alternatives.Val L) → alternatives.Valid less v →
    ∃ tag pairs, alternatives.toJsonb L v =
        .object [(ascii "type", .string tag), (ascii "value", .object pairs)] ∧
      alternatives.fromJsonb less tag pairs = some (.ok v)
  | .nil, _, v, _ => nomatch v
  | .cons name members rest, h, .inl m, hv => by
    refine ⟨name, members.pairs m, ?_, ?_⟩
    · change variantToJsonb name (members.push L m .begin).finish = _
      rw [variantToJsonb_eq h.1.1, members.finish_push h.2.1]
    · rw [Alternatives.fromJsonb, rest.fromJsonb_eq_none h.1.2]
      dsimp only
      rw [if_pos rfl, members.fromJsonb_of_lookup h.2.1 m hv _ fun _ _ ↦ rfl]
      rfl
  | .cons name members rest, h, .inr o, hv => by
    obtain ⟨tag, pairs, hto, hfrom⟩ := rest.fromJsonb_toJsonb h.2.2 o hv
    refine ⟨tag, pairs, hto, ?_⟩
    rw [Alternatives.fromJsonb, hfrom]
    rfl

end

theorem operation_jsonb_round_trip {name : Bytes} {members : Members} {others : Alternatives}
    (h : (MemberType.staticVariant name members others).WellFormed)
    (op : (MemberType.staticVariant name members others).Val L)
    (hop : MemberType.Valid less _ op) :
    operationFromJsonbValue less (operationToJsonbValue op) = .ok op :=
  MemberType.fromJsonb_toJsonb _ h op hop

def readDigits (text : Bytes) : ℕ := text.foldl (fun n d ↦ 10 * n + (d.toNat - 48)) 0

def readNumeral (text : Bytes) : ℤ :=
  if text.head? = some 45 then -(readDigits text.tail : ℤ) else readDigits text

theorem readNumeral_signedDecimal (z : ℤ) : readNumeral (signedDecimal z) = z := by
  by_cases hz : z < 0
  · rw [signedDecimal, if_pos hz, readNumeral, List.head?_cons, if_pos rfl, List.tail_cons,
      readDigits, foldl_decimal]
    omega
  · have hhead : (decimal z.natAbs).head? ≠ some 45 := by
      obtain ⟨b, hb, hdigit⟩ := head?_decimal z.natAbs []
      rw [List.append_nil] at hb
      rw [hb]
      rintro ⟨⟩
      cases hdigit
    rw [signedDecimal, if_neg hz, readNumeral, if_neg hhead, readDigits, foldl_decimal]
    omega

theorem signedDecimal_ne_nul (z : ℤ) : 0 ∉ signedDecimal z := fun h ↦
  ne_zero_of_mem_signedDecimal h rfl

def hexDigit (d : UInt8) : UInt8 := if d < 10 then 48 + d else 87 + d

def hexValue (c : UInt8) : UInt8 := if c < 58 then c - 48 else c - 87

def hexText (data : Bytes) : Bytes := data.flatMap fun b ↦ [hexDigit (b / 16), hexDigit (b % 16)]

def readHex : Bytes → Bytes
  | high :: low :: text => (hexValue high * 16 + hexValue low) :: readHex text
  | _ => []

theorem hexValue_hexDigit (b : UInt8) :
    hexValue (hexDigit (b / 16)) * 16 + hexValue (hexDigit (b % 16)) = b ∧
      hexDigit (b / 16) ≠ 0 ∧ hexDigit (b % 16) ≠ 0 := by
  have hall : ∀ n : Fin 256, hexValue (hexDigit (UInt8.ofNat n / 16)) * 16 +
      hexValue (hexDigit (UInt8.ofNat n % 16)) = UInt8.ofNat n ∧
      hexDigit (UInt8.ofNat n / 16) ≠ 0 ∧ hexDigit (UInt8.ofNat n % 16) ≠ 0 := by
    decide +kernel
  have hb := hall ⟨b.toNat, b.toNat_lt⟩
  rwa [UInt8.ofNat_toNat] at hb

theorem readHex_hexText (data : Bytes) : readHex (hexText data) = data := by
  induction data with
  | nil => rfl
  | cons b data ih =>
    change (hexValue (hexDigit (b / 16)) * 16 + hexValue (hexDigit (b % 16))) ::
      readHex (hexText data) = _
    rw [(hexValue_hexDigit b).1, ih]

/-- The texts of the libraries for one symbol; `legacy` is the mode of assets. -/
def plainLibrary (legacy : Bool) : Library where
  Text _ := Bytes
  Symbol := Unit
  LegacyHiveAsset := BitVec 64
  emptyText _ := []
  emptyAsset := ⟨0, ()⟩
  emptyLegacyHiveAsset := 0
  legacyEnabled := legacy
  maxPositiveValue := 0xffffffff
  maxNegativeValue := -0x80000000
  toText x := x
  fromText _ text := some text
  fromText_toText _ _ := rfl
  toHex := hexText
  fromHex text size := some ((readHex text).take size)
  fromHex_toHex data := by rw [readHex_hexText, List.take_length]
  toHex_length data := by
    induction data with
    | nil => rfl
    | cons b data ih => rw [List.length_cons, mul_add, ← ih]; rfl
  toHex_ne_nul data h := by
    obtain ⟨b, -, hb⟩ := List.mem_flatMap.mp h
    have hne := (hexValue_hexDigit b).2
    simp only [List.mem_cons, List.not_mem_nil, or_false] at hb
    exact hb.elim (fun h ↦ hne.1 h.symm) fun h ↦ hne.2 h.symm
  numeral := signedDecimal
  stringToUint64 text := some (readNumeral text % 2 ^ 64).toNat
  stringToUint64_numeral z _ _ := by rw [readNumeral_signedDecimal]
  lexicalCast text := some (BitVec.ofInt 64 (readNumeral text))
  lexicalCast_numeral x := by rw [readNumeral_signedDecimal, BitVec.ofInt_toInt]
  numeral_ne_nul := signedDecimal_ne_nul
  decimals _ := 3
  toNaiString _ := ascii "@@000000021"
  fromNaiString _ _ := some ()
  fromNaiString_toNaiString _ := rfl
  toNaiString_ne_nul _ := by decide
  toLegacyString a := signedDecimal a.amount.toInt ++ ascii " HIVE"
  fromLegacyString text := some ⟨BitVec.ofInt 64 (readNumeral (text.take (text.length - 5))), ()⟩
  fromLegacyString_toLegacyString a _ := by
    rw [List.length_append, show (ascii " HIVE").length = 5 from rfl, Nat.add_sub_cancel,
      List.take_left', readNumeral_signedDecimal, BitVec.ofInt_toInt]
    rfl
  toLegacyString_ne_nul a h := by
    rcases List.mem_append.mp h with h | h
    · exact signedDecimal_ne_nul _ h
    · exact absurd h (by decide)
  toAsset amount := ⟨amount, ()⟩
  fromAsset a := some a.amount
  fromAsset_toAsset _ := rfl

def lessInts : Less (plainLibrary false)
  | .int type, x, y => decide (type.value x < type.value y)
  | _, _, _ => false

def voteMembers : Members :=
  .member (ascii "voter") (.text .fixedString) <| .member (ascii "weight") (.int .int16) <|
  .optional (ascii "memo") .string <| .optional (ascii "limit") (.int .uint64) .nil

def mixedMembers : Members :=
  .member (ascii "amount") .asset <| .member (ascii "ids") (.flatSetEx (.int .int64)) <|
  .member (ascii "limits") (.flatMap (.int .uint8) (.pair .bool .blob)) <|
  .member (ascii "votes") (.vector (.struct voteMembers)) .nil

/-- An operation with an absent and a present optional member, a negative number, one above the
numbers that jsonb gets as numeric, a set, a map and an asset. -/
def mixedOperation : MemberType.Val (plainLibrary false)
    (.staticVariant (ascii "vote_operation") voteMembers
      (.cons (ascii "mixed_operation") mixedMembers .nil)) :=
  .inr (.inl (⟨250, ()⟩, [-7#64, 9007199254740993#64], [(1#8, (true, [0, 255]))],
    [(ascii "alice", -3#16, none, some 18446744073709551615#64, ())], ()))

theorem mixedOperation_round_trip :
    operationFromJsonbValue lessInts (operationToJsonbValue mixedOperation) =
      .ok mixedOperation := by
  have hvote : voteMembers.WellFormed := by
    simp only [voteMembers, Members.WellFormed, MemberType.WellFormed, Members.names, and_true,
      true_and]
    decide
  have hmixed : mixedMembers.WellFormed := by
    simp only [mixedMembers, Members.WellFormed, MemberType.WellFormed, Members.names, hvote,
      and_true, true_and]
    decide
  have hoperation : (MemberType.staticVariant (ascii "vote_operation") voteMembers
      (.cons (ascii "mixed_operation") mixedMembers .nil)).WellFormed :=
    ⟨by decide, hvote, by decide, hmixed, trivial⟩
  have hamount : (0 : ℤ) ≤ (250 : BitVec 64).toInt := by decide
  have hvoter : (0 : UInt8) ∉ ascii "alice" := by decide
  refine operation_jsonb_round_trip hoperation mixedOperation ?_
  refine ⟨hamount, ⟨?_, fun _ _ ↦ trivial⟩, ⟨?_, fun _ _ ↦ ⟨trivial, trivial, trivial⟩⟩, ?_,
    trivial⟩
  · decide
  · decide
  · intro vote hvote
    obtain rfl := List.mem_singleton.mp hvote
    exact ⟨hvoter, trivial, trivial, trivial, trivial⟩

end HiveForkManager.OperationJsonb
