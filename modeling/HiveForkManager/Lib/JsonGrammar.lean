import HiveForkManager.Lib.Utf16

namespace JsonGrammar

inductive Token where
  | punct (c : Char)
  | word (text : List Char)
  | string (units : List ℕ)
  deriving DecidableEq, Repr

def isWhitespace (c : Char) : Bool := c = ' ' || c = '\t' || c = '\n' || c = '\r'

def isPunct (c : Char) : Bool :=
  c = '[' || c = ']' || c = '\x7b' || c = '\x7d' || c = ':' || c = ','

def hexDigit (c : Char) : Option ℕ :=
  if '0' ≤ c ∧ c ≤ '9' then some (c.toNat - 48)
  else if 'a' ≤ c ∧ c ≤ 'f' then some (c.toNat - 87)
  else if 'A' ≤ c ∧ c ≤ 'F' then some (c.toNat - 55)
  else none

def hexUnit (a b c d : Char) : Option ℕ := do
  let a ← hexDigit a
  let b ← hexDigit b
  let c ← hexDigit c
  let d ← hexDigit d
  return ((a * 16 + b) * 16 + c) * 16 + d

def shortEscape (c : Char) : Option ℕ :=
  if c = '"' then some 34 else if c = '\\' then some 92 else if c = '/' then some 47
  else if c = 'b' then some 8 else if c = 'f' then some 12 else if c = 'n' then some 10
  else if c = 'r' then some 13 else if c = 't' then some 9 else none

/-- Outside strings with the word read so far, or inside a string with its code units. -/
inductive Mode where
  | outside (word : List Char)
  | inside (units : List ℕ)

def wordToken (word : List Char) : List Token := if word = [] then [] else [.word word]

def lex : Mode → List Char → Option (List Token)
  | .outside word, [] => some (wordToken word)
  | .outside word, c :: rest =>
    if isWhitespace c then (lex (.outside []) rest).map (wordToken word ++ ·)
    else if isPunct c then (lex (.outside []) rest).map (wordToken word ++ .punct c :: ·)
    else if c = '"' then (lex (.inside []) rest).map (wordToken word ++ ·)
    else lex (.outside (word ++ [c])) rest
  | .inside _, [] => none
  | .inside units, c :: rest =>
    if c = '"' then (lex (.outside []) rest).map (.string units :: ·)
    else if c = '\\' then
      match rest with
      | [] => none
      | k :: rest =>
        if k = 'u' then
          match rest with
          | a :: b :: d :: e :: rest =>
            (hexUnit a b d e).bind fun unit ↦ lex (.inside (units ++ [unit])) rest
          | _ => none
        else (shortEscape k).bind fun unit ↦ lex (.inside (units ++ [unit])) rest
    else if c.toNat < 0x20 then none
    else lex (.inside (units ++ Utf16.units c.toNat)) rest

section Lex

variable {units : List ℕ} {rest : List Char}

theorem lex_unicodeEscape (a b d e : Char) :
    lex (.inside units) ('\\' :: 'u' :: a :: b :: d :: e :: rest) =
      (hexUnit a b d e).bind fun unit ↦ lex (.inside (units ++ [unit])) rest := by
  rw [lex.eq_def]
  rfl

theorem lex_shortEscape {k : Char} (hk : k ≠ 'u') : lex (.inside units) ('\\' :: k :: rest) =
    (shortEscape k).bind fun unit ↦ lex (.inside (units ++ [unit])) rest := by
  rw [lex.eq_def]
  exact if_neg hk

theorem lex_character {c : Char} (hquote : c ≠ '"') (hback : c ≠ '\\')
    (hcontrol : ¬ c.toNat < 0x20) :
    lex (.inside units) (c :: rest) = lex (.inside (units ++ Utf16.units c.toNat)) rest := by
  rw [lex.eq_def]
  dsimp only
  rw [if_neg hquote, if_neg hback, if_neg hcontrol]

theorem lex_quote :
    lex (.inside units) ('"' :: rest) = (lex (.outside []) rest).map (.string units :: ·) := by
  rw [lex.eq_def]
  rfl

end Lex

inductive Tree where
  | null
  | bool (b : Bool)
  | number (text : List Char)
  | string (units : List ℕ)
  | array (elements : List Tree)
  | object (members : List (List ℕ × Tree))

/-- The places in a number: `-`, the integer part, the fraction and the exponent. -/
inductive NumberState where
  | start | minus | zero | digits | dot | fraction | exponent | sign | exponentDigits
  deriving DecidableEq

def isDigit (c : Char) : Bool := '0' ≤ c && c ≤ '9'

def numberStep : NumberState → Char → Option NumberState
  | .start, c => if c = '-' then some .minus else if c = '0' then some .zero
    else if isDigit c then some .digits else none
  | .minus, c => if c = '0' then some .zero else if isDigit c then some .digits else none
  | .zero, c => if c = '.' then some .dot else if c = 'e' ∨ c = 'E' then some .exponent else none
  | .digits, c => if isDigit c then some .digits else if c = '.' then some .dot
    else if c = 'e' ∨ c = 'E' then some .exponent else none
  | .dot, c => if isDigit c then some .fraction else none
  | .fraction, c => if isDigit c then some .fraction
    else if c = 'e' ∨ c = 'E' then some .exponent else none
  | .exponent, c => if c = '+' ∨ c = '-' then some .sign
    else if isDigit c then some .exponentDigits else none
  | .sign, c => if isDigit c then some .exponentDigits else none
  | .exponentDigits, c => if isDigit c then some .exponentDigits else none

def isNumber (text : List Char) : Bool :=
  match text.foldlM numberStep .start with
  | some .zero | some .digits | some .fraction | some .exponentDigits => true
  | _ => false

def wordValue (text : List Char) : Option Tree :=
  if text = "null".toList then some .null
  else if text = "true".toList then some (.bool true)
  else if text = "false".toList then some (.bool false)
  else if isNumber text then some (.number text)
  else none

/-- An array or an object with what stands before the value that is being read. -/
inductive Frame where
  | array (elements : List Tree)
  | object (members : List (List ℕ × Tree)) (name : List ℕ)

inductive Position where
  | value
  | firstElement
  | firstMember
  | member (members : List (List ℕ × Tree))
  | colon (members : List (List ℕ × Tree)) (name : List ℕ)
  | after (tree : Tree)

def openValue (stack : List Frame) : Token → Option (List Frame × Position)
  | .punct c => if c = '[' then some (stack, .firstElement)
    else if c = '\x7b' then some (stack, .firstMember) else none
  | .word text => (wordValue text).map fun tree ↦ (stack, .after tree)
  | .string units => some (stack, .after (.string units))

def step : List Frame × Position → Token → Option (List Frame × Position)
  | (stack, .value), token => openValue stack token
  | (stack, .firstElement), token =>
    if token = .punct ']' then some (stack, .after (.array []))
    else openValue (.array [] :: stack) token
  | (stack, .firstMember), .punct c =>
    if c = '\x7d' then some (stack, .after (.object [])) else none
  | (stack, .firstMember), .string name => some (stack, .colon [] name)
  | (_, .firstMember), .word _ => none
  | (stack, .member members), .string name => some (stack, .colon members name)
  | (_, .member _), _ => none
  | (stack, .colon members name), token =>
    if token = .punct ':' then some (.object members name :: stack, .value) else none
  | (.array elements :: stack, .after tree), token =>
    if token = .punct ',' then some (.array (elements ++ [tree]) :: stack, .value)
    else if token = .punct ']' then some (stack, .after (.array (elements ++ [tree])))
    else none
  | (.object members name :: stack, .after tree), token =>
    if token = .punct ',' then some (stack, .member (members ++ [(name, tree)]))
    else if token = .punct '\x7d' then some (stack, .after (.object (members ++ [(name, tree)])))
    else none
  | ([], .after _), _ => none

def finished : List Frame × Position → Option Tree
  | ([], .after tree) => some tree
  | _ => none

def parseTokens (tokens : List Token) : Option Tree :=
  (tokens.foldlM step ([], .value)).bind finished

def parse (text : List Char) : Option Tree := (lex (.outside []) text).bind parseTokens

example : (parse "[1.5e3, \x7b\"a\\u0041\": null\x7d]".toList).isSome = true := by decide +kernel

section MapStrings

variable (f : List ℕ → List ℕ)

def Token.mapStrings : Token → Token
  | .string units => .string (f units)
  | token => token

mutual

def Tree.mapStrings : Tree → Tree
  | .null => .null
  | .bool b => .bool b
  | .number text => .number text
  | .string units => .string (f units)
  | .array elements => .array (mapElements elements)
  | .object members => .object (mapMembers members)

def mapElements : List Tree → List Tree
  | [] => []
  | tree :: elements => tree.mapStrings :: mapElements elements

def mapMembers : List (List ℕ × Tree) → List (List ℕ × Tree)
  | [] => []
  | (name, tree) :: members => (f name, tree.mapStrings) :: mapMembers members

end

theorem mapElements_append (xs ys : List Tree) :
    mapElements f (xs ++ ys) = mapElements f xs ++ mapElements f ys := by
  induction xs with
  | nil => rfl
  | cons x xs ih => rw [List.cons_append, mapElements, mapElements, ih, List.cons_append]

theorem mapMembers_append (xs ys : List (List ℕ × Tree)) :
    mapMembers f (xs ++ ys) = mapMembers f xs ++ mapMembers f ys := by
  induction xs with
  | nil => rfl
  | cons x xs ih => rw [List.cons_append, mapMembers, mapMembers, ih, List.cons_append]

def Frame.mapStrings : Frame → Frame
  | .array elements => .array (mapElements f elements)
  | .object members name => .object (mapMembers f members) (f name)

def Position.mapStrings : Position → Position
  | .value => .value
  | .firstElement => .firstElement
  | .firstMember => .firstMember
  | .member members => .member (mapMembers f members)
  | .colon members name => .colon (mapMembers f members) (f name)
  | .after tree => .after (tree.mapStrings f)

def mapState (s : List Frame × Position) : List Frame × Position :=
  (s.1.map (Frame.mapStrings f), s.2.mapStrings f)

theorem mapStrings_eq_punct (token : Token) (c : Char) :
    token.mapStrings f = .punct c ↔ token = .punct c := by
  cases token <;> simp [Token.mapStrings]

theorem wordValue_mapStrings {text : List Char} {tree : Tree} (h : wordValue text = some tree) :
    tree.mapStrings f = tree := by
  unfold wordValue at h
  split_ifs at h <;> obtain rfl := Option.some.inj h <;> rfl

theorem openValue_mapStrings (stack : List Frame) (token : Token) :
    openValue (stack.map (Frame.mapStrings f)) (token.mapStrings f) =
      (openValue stack token).map (mapState f) := by
  cases token with
  | punct c =>
    simp only [openValue, Token.mapStrings]
    split_ifs <;> rfl
  | string units => rfl
  | word text =>
    simp only [openValue, Token.mapStrings]
    cases htree : wordValue text with
    | none => rfl
    | some tree => simp [mapState, Position.mapStrings, wordValue_mapStrings f htree]

theorem step_mapStrings (s : List Frame × Position) (token : Token) :
    step (mapState f s) (token.mapStrings f) = (step s token).map (mapState f) := by
  obtain ⟨stack, position⟩ := s
  cases position with
  | value => exact openValue_mapStrings f stack token
  | firstElement =>
    simp only [step, mapState, Position.mapStrings, mapStrings_eq_punct]
    split_ifs
    · rfl
    · exact openValue_mapStrings f (.array [] :: stack) token
  | firstMember =>
    cases token with
    | punct c =>
      simp only [step, mapState, Position.mapStrings, Token.mapStrings]
      split_ifs <;> rfl
    | word text => rfl
    | string units => rfl
  | member members => cases token <;> rfl
  | colon members name =>
    simp only [step, mapState, Position.mapStrings, mapStrings_eq_punct]
    split_ifs <;> rfl
  | after tree =>
    cases stack with
    | nil => rfl
    | cons frame stack =>
      cases frame with
      | array elements =>
        simp only [step, mapState, Position.mapStrings, List.map_cons, Frame.mapStrings,
          mapStrings_eq_punct]
        split_ifs <;> simp [mapState, Position.mapStrings, Frame.mapStrings, Tree.mapStrings,
          mapElements_append, mapElements]
      | object members name =>
        simp only [step, mapState, Position.mapStrings, List.map_cons, Frame.mapStrings,
          mapStrings_eq_punct]
        split_ifs <;> simp [mapState, Position.mapStrings, Tree.mapStrings,
          mapMembers_append, mapMembers]

theorem parseTokens_mapStrings (tokens : List Token) :
    parseTokens (tokens.map (Token.mapStrings f)) =
      (parseTokens tokens).map (Tree.mapStrings f) := by
  have hrun : ∀ s, (tokens.map (Token.mapStrings f)).foldlM step (mapState f s) =
      (tokens.foldlM step s).map (mapState f) := by
    induction tokens with
    | nil => exact fun s ↦ rfl
    | cons token tokens ih =>
      intro s
      rw [List.map_cons, List.foldlM_cons, List.foldlM_cons, step_mapStrings]
      cases step s token with
      | none => rfl
      | some s' => exact ih s'
  have hstart : (tokens.map (Token.mapStrings f)).foldlM step ([], .value) =
      (tokens.foldlM step ([], .value)).map (mapState f) := hrun ([], .value)
  rw [parseTokens, parseTokens, hstart]
  cases tokens.foldlM step ([], .value) with
  | none => rfl
  | some s =>
    obtain ⟨stack, position⟩ := s
    cases stack <;> cases position <;> rfl

end MapStrings

end JsonGrammar
