import Mathlib

namespace HiveForkManager

namespace IndexText

def isSpace (c : Char) : Bool := c = ' ' || (9 ≤ c.toNat && c.toNat ≤ 13)

/-- A `\w` of the regular expression, for ASCII. -/
def isWord (c : Char) : Bool := c.isAlphanum || c = '_'

def skipSpaces : List Char → Option (List Char)
  | [] => none
  | c :: rest => if isSpace c then some (rest.dropWhile isSpace) else none

def matchText : List Char → List Char → Option (List Char)
  | [], text => some text
  | _ :: _, [] => none
  | k :: ks, c :: text => if c.toLower = k then matchText ks text else none

def takeWord (text : List Char) : Option (List Char × List Char) :=
  if text.takeWhile isWord = [] then none
  else some (text.takeWhile isWord, text.dropWhile isWord)

structure Match where
  index : List Char
  schema : List Char
  table : List Char
  rest : List Char
  deriving DecidableEq

def optional (group : List Char → Option (List Char)) (text : List Char) : List Char :=
  (group text).getD text

/-- The regular expression up to the table. What follows it never decides about a match. -/
def matchCommand (command : List Char) : Option Match := do
  let text ← matchText "create".toList (command.dropWhile isSpace)
  let text ← skipSpaces text
  let text := optional (fun text ↦ (matchText "unique".toList text).bind skipSpaces) text
  let text ← matchText "index".toList text
  let text ← skipSpaces text
  let text := optional (fun text ↦ (matchText "if not exists".toList text).bind skipSpaces) text
  let (index, text) ← takeWord text
  let text ← skipSpaces text
  let text ← matchText "on".toList text
  let text ← skipSpaces text
  let (schema, text) ← takeWord text
  let text ← matchText ".".toList text
  let (table, text) ← takeWord text
  return ⟨index, schema, table, text⟩

/-- `regexp_replace` of `\s+` by one blank, after white space or not. -/
def collapse : Bool → List Char → List Char
  | _, [] => []
  | afterSpace, c :: rest =>
    if isSpace c then if afterSpace then collapse true rest else ' ' :: collapse true rest
    else c :: collapse false rest

structure ParsedCommand where
  tableName : List Char
  indexName : List Char
  canonicalizedCommand : List Char
  deriving DecidableEq

section Lower

variable (lower : Char → Char)

def canonicalize (command : List Char) : List Char := (collapse false command).map lower

def parseCreateIndexCommand (command : List Char) : Option ParsedCommand :=
  (matchCommand command).map fun m ↦
    ⟨m.schema ++ '.' :: m.table, m.index, canonicalize lower command⟩

end Lower

def firstPart (name : List Char) : List Char := name.takeWhile fun c ↦ c ≠ '.'

/-- The schema and the name that the check in `pg_indexes` looks for. -/
def ParsedCommand.checked (p : ParsedCommand) : List Char × List Char :=
  (firstPart p.tableName, p.indexName)

/-- A string constant or a quoted identifier is given by its delimiter; a doubled delimiter is two
of them without white space between. -/
inductive Lexeme where
  | word (text : List Char)
  | quoted (delimiter : Char) (text : List Char)
  | symbol (c : Char)
  deriving DecidableEq, Repr

structure Item where
  spaced : Bool
  lexeme : Lexeme
  deriving DecidableEq, Repr

/-- Outside quotes with the word read so far, and whether the item before was a string constant. -/
inductive Mode where
  | outside (spaced afterConstant : Bool) (word : List Char)
  | quoted (delimiter : Char) (spaced : Bool) (text : List Char)

def flush (spaced : Bool) (word : List Char) : List Item :=
  if word = [] then [] else [⟨spaced, .word word⟩]

def startsComment (c : Char) (rest : List Char) : Bool :=
  (c = '-' && rest.head? = some '-') || (c = '/' && rest.head? = some '*')

/-- The items of a command in plain ASCII. Comments, dollar signs, backslashes and constants that
continue after white space are not read. -/
def lex : Mode → List Char → Option (List Item)
  | .outside spaced _ word, [] => some (flush spaced word)
  | .outside spaced afterConstant word, c :: rest =>
    if isSpace c then
      (lex (.outside true (afterConstant && word.isEmpty) []) rest).map (flush spaced word ++ ·)
    else if c = '\'' ∨ c = '"' then
      if c = '\'' ∧ afterConstant ∧ spaced ∧ word = [] then none
      else (lex (.quoted c (spaced && word.isEmpty) []) rest).map (flush spaced word ++ ·)
    else if isWord c then lex (.outside spaced afterConstant (word ++ [c])) rest
    else if c = '$' ∨ c = '\\' ∨ 0x80 ≤ c.toNat ∨ startsComment c rest then none
    else (lex (.outside false false []) rest).map
      (flush spaced word ++ ⟨spaced && word.isEmpty, .symbol c⟩ :: ·)
  | .quoted _ _ _, [] => none
  | .quoted delimiter spaced text, c :: rest =>
    if c = delimiter then
      (lex (.outside false (decide (delimiter = '\'')) []) rest).map
        (⟨spaced, .quoted delimiter text⟩ :: ·)
    else if c = '\\' ∨ 0x80 ≤ c.toNat then none
    else lex (.quoted delimiter spaced (text ++ [c])) rest

def itemsOf (command : List Char) : Option (List Item) := lex (.outside false false []) command

def identifier (word : List Char) : List Char := (word.map Char.toLower).take 63

def isKeyword (keyword : String) : Lexeme → Bool
  | .word text => text.map Char.toLower = keyword.toList
  | _ => false

def dropKeyword (keyword : String) : List Lexeme → List Lexeme
  | [] => []
  | l :: rest => if isKeyword keyword l then rest else l :: rest

def dropIfNotExists : List Lexeme → List Lexeme
  | i :: n :: e :: rest =>
    if isKeyword "if" i && isKeyword "not" n && isKeyword "exists" e then rest
    else i :: n :: e :: rest
  | lexemes => lexemes

structure CreatedIndex where
  schema : List Char
  table : List Char
  index : List Char
  deriving DecidableEq, Repr

def relationOf : List Lexeme → Option (List Char × List Char)
  | .word schema :: .symbol '.' :: .word table :: rest =>
    if rest.head? = some (.symbol '.') then none else some (identifier schema, identifier table)
  | _ => none

/-- The name and the relation of `CREATE [UNIQUE] INDEX [CONCURRENTLY] [IF NOT EXISTS] name ON`. -/
def namedIndexOf : List Lexeme → Option CreatedIndex
  | .word name :: on :: rest =>
    if isKeyword "on" on ∧ ¬ isKeyword "on" (.word name) then
      (relationOf (dropKeyword "only" rest)).map fun r ↦ ⟨r.1, r.2, identifier name⟩
    else none
  | _ => none

def createdIndex : List Lexeme → Option CreatedIndex
  | create :: rest =>
    if isKeyword "create" create then
      match dropKeyword "unique" rest with
      | index :: rest =>
        if isKeyword "index" index then
          namedIndexOf (dropIfNotExists (dropKeyword "concurrently" rest))
        else none
      | [] => none
    else none
  | [] => none

def Lexeme.lower : Lexeme → Lexeme
  | .word text => .word (text.map Char.toLower)
  | l => l

def Item.lower (i : Item) : Item := ⟨i.spaced, i.lexeme.lower⟩

variable {spaced : Bool} {rest text text' schema : List Char} {lexemes : List Lexeme} {l : Lexeme}
variable {m : Match}

section Characters

variable {c : Char}

theorem ascii_forall {P : Char → Prop} (h : ∀ n : Fin 128, P (Char.ofNat n))
    (hc : c.toNat < 0x80) : P c := by
  have hn := h ⟨c.toNat, hc⟩
  rwa [Char.ofNat_toNat] at hn

theorem toLower_eq_of_not_word (hc : isWord c = false) : c.toLower = c := by
  rw [isWord, Bool.or_eq_false_iff, Char.isAlphanum, Bool.or_eq_false_iff, Char.isAlpha,
    Bool.or_eq_false_iff] at hc
  exact dif_neg (of_decide_eq_false hc.1.1.1)

theorem isWord_lt (hc : isWord c = true) : c.toNat < 0x80 := by
  have hval : c.val.toNat = c.toNat := rfl
  simp only [isWord, Char.isAlphanum, Char.isAlpha, Char.isUpper, Char.isLower, Char.isDigit,
    Bool.or_eq_true, Bool.and_eq_true, decide_eq_true_eq, ge_iff_le, UInt32.le_iff_toNat_le,
    hval] at hc
  have hZ : 'Z'.val.toNat = 90 := rfl
  have hz : 'z'.val.toNat = 122 := rfl
  have h9 : '9'.val.toNat = 57 := rfl
  rcases hc with ((hupper | hlower) | hdigit) | rfl
  · omega
  · omega
  · omega
  · decide

theorem isWord_toLower (hc : isWord c = true) : isWord c.toLower = true :=
  ascii_forall (P := fun c ↦ isWord c = true → isWord c.toLower = true) (by decide +kernel)
    (isWord_lt hc) hc

theorem eq_of_toLower {k : Char} (hk : isWord k = false) (h : c.toLower = k) : c = k := by
  cases hc : isWord c with
  | true =>
    rw [← h, isWord_toLower hc] at hk
    cases hk
  | false => exact (toLower_eq_of_not_word hc).symm.trans h

theorem isSpace_of_isWord (hc : isWord c = true) : isSpace c = false :=
  ascii_forall (P := fun c ↦ isWord c = true → isSpace c = false) (by decide +kernel)
    (isWord_lt hc) hc

theorem not_quote_of_isWord (hc : isWord c = true) : ¬ (c = '\'' ∨ c = '"') := by
  rintro (rfl | rfl) <;> exact absurd hc (by decide)

end Characters

section Norm

variable {lower : Char → Char} (hlower : ∀ c : Char, c.toNat < 0x80 → lower c = c.toLower)

variable {afterSpace spaced afterConstant : Bool} {word rest : List Char} {c : Char}
  {more : List Item}

end Norm

def Reads (text : List Char) (lexemes : List Lexeme) : Prop :=
  ∃ spaced afterConstant items, lex (.outside spaced afterConstant []) text = some items ∧
    items.map Item.lexeme = lexemes

theorem Reads.dropSpaces (h : Reads text lexemes) :
    Reads (text.dropWhile isSpace) lexemes := by
  induction text with
  | nil => exact h
  | cons c rest ih =>
    cases hc : isSpace c with
    | false =>
      rw [List.dropWhile_cons_of_neg (Bool.eq_false_iff.mp hc)]
      exact h
    | true =>
      rw [List.dropWhile_cons_of_pos hc]
      obtain ⟨spaced, afterConstant, items, hlex, rfl⟩ := h
      rw [lex, if_pos hc] at hlex
      obtain ⟨more, hmore, rfl⟩ := Option.map_eq_some_iff.mp hlex
      exact ih ⟨true, _, more, hmore, rfl⟩

theorem Reads.skipSpaces
    (h : Reads text lexemes) (hskip : skipSpaces text = some text') : Reads text' lexemes := by
  cases text with
  | nil => cases hskip
  | cons c rest =>
    rw [IndexText.skipSpaces] at hskip
    split_ifs at hskip with hc
    obtain rfl := Option.some.inj hskip
    have hdrop := h.dropSpaces
    rwa [List.dropWhile_cons_of_pos hc] at hdrop

theorem lex_word_end {afterConstant : Bool} {word : List Char} {items : List Item}
    (hword : word ≠ []) (hrest : ∀ c, rest.head? = some c → isWord c = false)
    (h : lex (.outside spaced afterConstant word) rest = some items) :
    ∃ more, items = ⟨spaced, .word word⟩ :: more ∧
      lex (.outside false false []) rest = some more := by
  have hflush : flush spaced word = [⟨spaced, .word word⟩] := if_neg hword
  have hempty : word.isEmpty = false := List.isEmpty_eq_false_iff.mpr hword
  cases rest with
  | nil =>
    rw [lex] at h
    obtain rfl := Option.some.inj h
    exact ⟨[], hflush, rfl⟩
  | cons c rest =>
    have hc := hrest c rfl
    rw [lex, hempty, hflush] at h
    rw [lex]
    by_cases hspace : isSpace c = true
    · rw [if_pos hspace] at h ⊢
      obtain ⟨more, hmore, rfl⟩ := Option.map_eq_some_iff.mp h
      rw [Bool.and_false] at hmore
      refine ⟨more, rfl, ?_⟩
      rw [Bool.false_and, hmore]
      rfl
    rw [if_neg hspace] at h ⊢
    by_cases hquote : c = '\'' ∨ c = '"'
    · rw [if_pos hquote] at h ⊢
      rw [if_neg fun hcontinued ↦ hword hcontinued.2.2.2] at h
      rw [if_neg fun hcontinued ↦ Bool.false_ne_true hcontinued.2.1]
      obtain ⟨more, hmore, rfl⟩ := Option.map_eq_some_iff.mp h
      rw [Bool.and_false] at hmore
      refine ⟨more, rfl, ?_⟩
      rw [Bool.false_and, hmore]
      rfl
    rw [if_neg hquote, if_neg (Bool.eq_false_iff.mp hc)] at h ⊢
    split_ifs at h ⊢ with hplain
    obtain ⟨more, hmore, rfl⟩ := Option.map_eq_some_iff.mp h
    rw [Bool.and_false]
    refine ⟨⟨false, .symbol c⟩ :: more, rfl, ?_⟩
    rw [Bool.false_and, hmore]
    rfl

theorem lex_word {afterConstant : Bool} {front : List Char}
    (hfront : ∀ c ∈ front, isWord c = true) : ∀ word : List Char,
    lex (.outside spaced afterConstant word) (front ++ rest) =
      lex (.outside spaced afterConstant (word ++ front)) rest := by
  induction front with
  | nil =>
    intro word
    rw [List.nil_append, List.append_nil]
  | cons c front ih =>
    intro word
    have hc := hfront c (List.mem_cons_self ..)
    rw [List.cons_append, lex, if_neg (Bool.eq_false_iff.mp (isSpace_of_isWord hc)),
      if_neg (not_quote_of_isWord hc), if_pos hc,
      ih fun d hd ↦ hfront d (List.mem_cons_of_mem _ hd), List.append_assoc]
    rfl

theorem Reads.word {word : List Char} (hword : word ≠ [])
    (hall : ∀ c ∈ word, isWord c = true) (hrest : ∀ c, rest.head? = some c → isWord c = false)
    (h : Reads (word ++ rest) lexemes) :
    ∃ more, lexemes = .word word :: more ∧ Reads rest more := by
  obtain ⟨spaced, afterConstant, items, hlex, rfl⟩ := h
  rw [lex_word hall, List.nil_append] at hlex
  obtain ⟨more, rfl, hmore⟩ := lex_word_end hword hrest hlex
  exact ⟨more.map Item.lexeme, rfl, false, false, more, hmore, rfl⟩

theorem head?_dropWhile {p : Char → Bool} (text : List Char) :
    ∀ c, (text.dropWhile p).head? = some c → p c = false := by
  induction text with
  | nil =>
    intro c hc
    cases hc
  | cons d text ih =>
    intro c hc
    cases hd : p d with
    | true =>
      rw [List.dropWhile_cons_of_pos hd] at hc
      exact ih c hc
    | false =>
      rw [List.dropWhile_cons_of_neg (Bool.eq_false_iff.mp hd)] at hc
      obtain rfl := Option.some.inj hc
      exact hd

theorem takeWord_eq_some {word : List Char} (h : takeWord text = some (word, rest)) :
    text = word ++ rest ∧ (word ≠ [] ∧ ∀ c ∈ word, isWord c = true) ∧
      ∀ c, rest.head? = some c → isWord c = false := by
  rw [takeWord] at h
  split_ifs at h with hnil
  obtain ⟨rfl, rfl⟩ := Prod.mk.inj (Option.some.inj h)
  exact ⟨List.takeWhile_append_dropWhile.symm, ⟨hnil, fun c hc ↦ List.mem_takeWhile_imp hc⟩,
    head?_dropWhile text⟩

theorem Reads.takeWord {word : List Char}
    (h : Reads text lexemes) (htake : takeWord text = some (word, rest)) :
    ∃ more, lexemes = .word word :: more ∧ Reads rest more := by
  obtain ⟨rfl, ⟨hnil, hword⟩, hrest⟩ := takeWord_eq_some htake
  exact Reads.word hnil hword hrest h

theorem matchText_eq_some {keyword : List Char} : ∀ {text rest : List Char},
    matchText keyword text = some rest →
      ∃ front, text = front ++ rest ∧ front.map Char.toLower = keyword := by
  induction keyword with
  | nil =>
    intro text rest h
    obtain rfl := Option.some.inj h
    exact ⟨[], rfl, rfl⟩
  | cons k keyword ih =>
    intro text rest h
    cases text with
    | nil => cases h
    | cons c text =>
      rw [matchText] at h
      split_ifs at h with hc
      obtain ⟨front, rfl, rfl⟩ := ih h
      exact ⟨c :: front, rfl, by rw [List.map_cons, hc]⟩

theorem isWord_of_toLower {c : Char} (hc : isWord c.toLower = true) : isWord c = true := by
  cases hword : isWord c with
  | true => rfl
  | false =>
    rw [toLower_eq_of_not_word hword] at hc
    rw [hc] at hword
    cases hword

theorem Reads.keyword {keyword : String} (hkeyword : keyword.toList ≠ [])
    (hall : keyword.toList.all isWord = true) {rest' : List Char}
    (h : Reads text lexemes)
    (hmatch : matchText keyword.toList text = some rest)
    (hskip : IndexText.skipSpaces rest = some rest') :
    ∃ l more, lexemes = l :: more ∧ isKeyword keyword l = true ∧ Reads rest' more := by
  obtain ⟨front, rfl, hfront⟩ := matchText_eq_some hmatch
  have hne : front ≠ [] := by
    rintro rfl
    exact hkeyword hfront.symm
  have hword : ∀ c ∈ front, isWord c = true := by
    intro c hc
    refine isWord_of_toLower (List.all_eq_true.mp hall _ ?_)
    rw [← hfront]
    exact List.mem_map_of_mem hc
  have hhead : ∀ c, rest.head? = some c → isWord c = false := by
    intro c hc
    cases rest with
    | nil => cases hc
    | cons d rest =>
      obtain rfl := Option.some.inj hc
      rw [IndexText.skipSpaces] at hskip
      split_ifs at hskip with hspace
      cases hd : isWord d with
      | false => rfl
      | true =>
        rw [isSpace_of_isWord hd] at hspace
        cases hspace
  obtain ⟨more, rfl, hmore⟩ := Reads.word hne hword hhead h
  exact ⟨_, more, rfl, decide_eq_true hfront, hmore.skipSpaces hskip⟩

theorem Reads.dot (h : Reads text lexemes) (hmatch : matchText ".".toList text = some rest) :
    ∃ more, lexemes = .symbol '.' :: more ∧ Reads rest more := by
  obtain ⟨front, rfl, hfront⟩ := matchText_eq_some hmatch
  obtain ⟨c, rfl, hc⟩ := List.map_eq_singleton_iff.mp hfront
  obtain rfl : c = '.' := eq_of_toLower (by decide) hc
  obtain ⟨spaced, afterConstant, items, hlex, rfl⟩ := h
  rw [List.singleton_append, lex, if_neg (by decide), if_neg (by decide),
    if_neg (by decide)] at hlex
  split_ifs at hlex
  obtain ⟨more, hmore, rfl⟩ := Option.map_eq_some_iff.mp hlex
  exact ⟨more.map Item.lexeme, rfl, false, false, more, hmore, rfl⟩

theorem matchText_append (front back : List Char) : ∀ text : List Char,
    matchText (front ++ back) text = (matchText front text).bind (matchText back) := by
  induction front with
  | nil => exact fun _ ↦ rfl
  | cons k front ih =>
    intro text
    cases text with
    | nil => rfl
    | cons c text =>
      rw [List.cons_append, matchText, matchText, ih]
      split_ifs <;> rfl

theorem skipSpaces_blank {k : Char} {ks rest' : List Char} (hk : isWord k = true)
    (hblank : matchText " ".toList text = some rest)
    (hnext : matchText (k :: ks) rest = some rest') :
    skipSpaces text = some rest := by
  obtain ⟨front, rfl, hfront⟩ := matchText_eq_some hblank
  obtain ⟨b, rfl, hb⟩ := List.map_eq_singleton_iff.mp hfront
  obtain rfl : b = ' ' := eq_of_toLower (by decide) hb
  have hdrop : rest.dropWhile isSpace = rest := by
    cases rest with
    | nil => rfl
    | cons c rest =>
      rw [matchText] at hnext
      split_ifs at hnext with hc
      have hword : isWord c = true := isWord_of_toLower (by rw [hc]; exact hk)
      rw [List.dropWhile_cons_of_neg (Bool.eq_false_iff.mp (isSpace_of_isWord hword))]
  rw [List.singleton_append, IndexText.skipSpaces, if_pos (by decide), hdrop]

theorem isKeyword_ne {keyword other : String} (hne : keyword.toList ≠ other.toList)
    (h : isKeyword keyword l = true) : isKeyword other l = false := by
  cases l with
  | word text =>
    refine decide_eq_false fun hother ↦ hne ?_
    exact (of_decide_eq_true h).symm.trans hother
  | quoted delimiter text => cases h
  | symbol c => cases h

theorem optional_eq (group : List Char → Option (List Char)) (text : List Char) :
    optional group text = text ∨ group text = some (optional group text) := by
  cases h : group text with
  | none => exact Or.inl (by rw [optional, h, Option.getD_none])
  | some rest => exact Or.inr (by rw [optional, h, Option.getD_some])

theorem Reads.optionalIfNotExists (h : Reads text lexemes) :
    let text' := optional (fun text ↦
      (matchText "if not exists".toList text).bind IndexText.skipSpaces) text
    text' = text ∨ ∃ i n e more, lexemes = i :: n :: e :: more ∧ isKeyword "if" i = true ∧
      isKeyword "not" n = true ∧ isKeyword "exists" e = true ∧ Reads text' more := by
  intro text'
  refine (optional_eq _ text).imp_right fun hgroup ↦ ?_
  obtain ⟨last, hmatch, hskip⟩ := Option.bind_eq_some_iff.mp hgroup
  have hsplit : "if not exists".toList = "if".toList ++ (" ".toList ++ ("not".toList ++
      (" ".toList ++ "exists".toList))) := by decide
  rw [hsplit, matchText_append] at hmatch
  obtain ⟨t₁, hif, hmatch⟩ := Option.bind_eq_some_iff.mp hmatch
  rw [matchText_append] at hmatch
  obtain ⟨t₂, hblank, hmatch⟩ := Option.bind_eq_some_iff.mp hmatch
  rw [matchText_append] at hmatch
  obtain ⟨t₃, hnot, hmatch⟩ := Option.bind_eq_some_iff.mp hmatch
  rw [matchText_append] at hmatch
  obtain ⟨t₄, hblank', hexists⟩ := Option.bind_eq_some_iff.mp hmatch
  have hskip₁ : IndexText.skipSpaces t₁ = some t₂ :=
    skipSpaces_blank (k := 'n') (by decide) hblank hnot
  have hskip₃ : IndexText.skipSpaces t₃ = some t₄ :=
    skipSpaces_blank (k := 'e') (by decide) hblank' hexists
  obtain ⟨i, more₁, rfl, hi, h₁⟩ := h.keyword (by decide) (by decide) hif hskip₁
  obtain ⟨n, more₂, rfl, hn, h₂⟩ := h₁.keyword (by decide) (by decide) hnot hskip₃
  obtain ⟨e, more₃, rfl, he, h₃⟩ := h₂.keyword (by decide) (by decide) hexists hskip
  exact ⟨i, n, e, more₃, rfl, hi, hn, he, h₃⟩

theorem dropKeyword_of_neg {keyword : String} (h : isKeyword keyword l = false)
    (rest : List Lexeme) : dropKeyword keyword (l :: rest) = l :: rest :=
  if_neg (Bool.eq_false_iff.mp h)

theorem dropIfNotExists_of_second {n : Lexeme} (hn : isKeyword "not" n = false)
    (rest : List Lexeme) : dropIfNotExists (l :: n :: rest) = l :: n :: rest := by
  cases rest with
  | nil => rfl
  | cons e rest => rw [dropIfNotExists, hn, Bool.and_false, Bool.false_and, if_neg (by decide)]

theorem Reads.indexName {index t₁ t₂ : List Char} (h : Reads text lexemes)
    (hname : IndexText.takeWord (optional (fun text ↦
      (matchText "if not exists".toList text).bind IndexText.skipSpaces) text) =
        some (index, text'))
    (hskip : IndexText.skipSpaces text' = some t₁) (hon : matchText "on".toList t₁ = some t₂)
    (hskip' : IndexText.skipSpaces t₂ = some rest)
    (hconcurrently : isKeyword "concurrently" (.word index) = false) :
    ∃ on more, dropIfNotExists (dropKeyword "concurrently" lexemes) = .word index :: on :: more ∧
      isKeyword "on" on = true ∧ Reads rest more := by
  rcases h.optionalIfNotExists with hnone | ⟨i, n, e, more, rfl, hi, hn, he, hread⟩
  · rw [hnone] at hname
    obtain ⟨more, rfl, hread⟩ := h.takeWord hname
    obtain ⟨on, more, rfl, hon, hread⟩ := (hread.skipSpaces hskip).keyword (by decide) (by decide)
      hon hskip'
    refine ⟨on, more, ?_, hon, hread⟩
    rw [dropKeyword_of_neg hconcurrently,
      dropIfNotExists_of_second (isKeyword_ne (by decide) hon)]
  · obtain ⟨more, rfl, hafter⟩ := hread.takeWord hname
    obtain ⟨on, more, rfl, hon, hrest⟩ := (hafter.skipSpaces hskip).keyword (by decide) (by decide)
      hon hskip'
    refine ⟨on, more, ?_, hon, hrest⟩
    rw [dropKeyword_of_neg (isKeyword_ne (by decide) hi), dropIfNotExists, hi, hn, he]
    rfl

end IndexText

end HiveForkManager
