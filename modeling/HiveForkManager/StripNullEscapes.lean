import HiveForkManager.Jcs
import HiveForkManager.Lib.JsonGrammar
import HiveForkManager.Lib.Utf8

namespace HiveForkManager

namespace StripNullEscapes

open JsonGrammar

def nullSuffix : Bytes := [117, 48, 48, 48, 48]

def bsCount (dst : Bytes) : ℕ := (dst.takeWhile fun b ↦ b = 92).length

/-- The loop, with the number of bytes that `i += 6` still has to pass over. -/
def stripLoop : ℕ → Bytes → Bytes → Bytes
  | _, [], dst => dst
  | skip + 1, _ :: rest, dst => stripLoop skip rest dst
  | 0, b :: rest, dst =>
    if b = 92 ∧ nullSuffix.isPrefixOf rest ∧ bsCount dst % 2 = 0 then stripLoop 5 rest dst
    else stripLoop 0 rest (b :: dst)

def stripJsonNullEscapes (src : Bytes) : Bytes :=
  if 92 ∉ src then src
  else
    let dst := (stripLoop 0 src []).reverse
    if dst.length = src.length then src else dst

def scan {α : Type} [DecidableEq α] (backslash : α) (suffix : List α) :
    Bool → ℕ → List α → List α
  | _, _, [] => []
  | odd, skip + 1, _ :: rest => scan backslash suffix odd skip rest
  | odd, 0, a :: rest =>
    if a = backslash ∧ suffix.isPrefixOf rest ∧ odd = false then scan backslash suffix false 5 rest
    else a :: scan backslash suffix (decide (a = backslash) && !odd) 0 rest

def oddRun (dst : Bytes) : Bool := decide (bsCount dst % 2 = 1)

theorem oddRun_cons (b : UInt8) (dst : Bytes) :
    oddRun (b :: dst) = (decide (b = 92) && !oddRun dst) := by
  by_cases hb : b = 92
  · have hcount : bsCount (b :: dst) = bsCount dst + 1 := by
      rw [bsCount, List.takeWhile_cons_of_pos (by simpa using hb)]
      rfl
    rw [oddRun, oddRun, hcount]
    rcases Nat.mod_two_eq_zero_or_one (bsCount dst) with h | h
    · have hnext : (bsCount dst + 1) % 2 = 1 := by omega
      simp [hb, h, hnext]
    · have hnext : (bsCount dst + 1) % 2 = 0 := by omega
      simp [hb, h, hnext]
  · have hcount : bsCount (b :: dst) = 0 := by
      rw [bsCount, List.takeWhile_cons_of_neg (by simpa using hb)]
      rfl
    rw [oddRun, hcount]
    simp [hb]

theorem stripLoop_eq (src : Bytes) : ∀ skip dst, (stripLoop skip src dst).reverse =
    dst.reverse ++ scan 92 nullSuffix (oddRun dst) skip src := by
  induction src with
  | nil =>
    intro skip dst
    cases skip <;> exact (List.append_nil _).symm
  | cons b rest ih =>
    intro skip dst
    cases skip with
    | succ skip => exact ih skip dst
    | zero =>
      have heven : bsCount dst % 2 = 0 ↔ oddRun dst = false := by
        rw [oddRun, decide_eq_false_iff_not]
        omega
      rw [stripLoop, scan]
      simp only [heven]
      split_ifs with hstrip
      · rw [ih, hstrip.2.2]
      · rw [ih, oddRun_cons, List.reverse_cons, List.append_assoc]
        rfl

section Scan

variable {α : Type} [DecidableEq α] {backslash : α} {suffix : List α}

theorem scan_sublist (src : List α) : ∀ odd skip,
    (scan backslash suffix odd skip src).Sublist src := by
  induction src with
  | nil => exact fun odd skip ↦ by cases skip <;> exact List.Sublist.refl _
  | cons a rest ih =>
    intro odd skip
    cases skip with
    | succ skip => exact (ih odd skip).cons a
    | zero =>
      rw [scan]
      split_ifs
      · exact (ih false 5).cons a
      · exact (ih _ 0).cons_cons a

theorem scan_of_notMem {src : List α} (h : backslash ∉ src) : ∀ odd,
    scan backslash suffix odd 0 src = src := by
  induction src with
  | nil => exact fun _ ↦ rfl
  | cons a rest ih =>
    intro odd
    rw [List.mem_cons, not_or] at h
    rw [scan, if_neg fun hstrip ↦ h.1 hstrip.1.symm, ih h.2]

theorem scan_copy {a : α} (ha : a ≠ backslash) (odd : Bool) (rest : List α) :
    scan backslash suffix odd 0 (a :: rest) = a :: scan backslash suffix false 0 rest := by
  rw [scan, if_neg fun hstrip ↦ ha hstrip.1, decide_eq_false ha, Bool.false_and]

theorem scan_copy_all {front : List α} (h : backslash ∉ front) (rest : List α) :
    scan backslash suffix false 0 (front ++ rest) =
      front ++ scan backslash suffix false 0 rest := by
  induction front with
  | nil => rfl
  | cons a front ih =>
    rw [List.mem_cons, not_or] at h
    rw [List.cons_append, scan_copy (Ne.symm h.1), ih h.2, List.cons_append]

theorem scan_skip (front rest : List α) (odd : Bool) :
    scan backslash suffix odd front.length (front ++ rest) =
      scan backslash suffix odd 0 rest := by
  induction front with
  | nil => rfl
  | cons a front ih => exact ih

end Scan

theorem stripJsonNullEscapes_eq (src : Bytes) :
    stripJsonNullEscapes src = scan 92 nullSuffix false 0 src := by
  have hloop : (stripLoop 0 src []).reverse = scan 92 nullSuffix false 0 src :=
    stripLoop_eq src 0 []
  rw [stripJsonNullEscapes, hloop]
  by_cases hnone : 92 ∉ src
  · rw [if_pos hnone, scan_of_notMem hnone false]
  · rw [if_neg hnone]
    by_cases hsame : (scan 92 nullSuffix false 0 src).length = src.length
    · rw [if_pos hsame, (scan_sublist src false 0).eq_of_length hsame]
    · rw [if_neg hsame]

def nullText : List Char := ['u', '0', '0', '0', '0']

def scanText (odd : Bool) (text : List Char) : List Char := scan '\\' nullText odd 0 text

variable {c k : Char} {rest word : List Char} {unit : ℕ} {tokens : List Token} {units : List ℕ}

theorem backslash_notMem_utf8EncodeChar (hc : c ≠ '\\') :
    92 ∉ String.utf8EncodeChar c :=
  fun h ↦ hc (Char.toNat_inj.mp (Utf8.toNat_eq_of_mem h (by decide)))

theorem ascii_start_iff {p : List Char} (hp : ∀ c ∈ p, c.toNat < 0x80) : ∀ text : List Char,
    (p.map fun c ↦ UInt8.ofNat c.toNat) <+: text.flatMap String.utf8EncodeChar ↔ p <+: text := by
  induction p with
  | nil => exact fun _ ↦ ⟨fun _ ↦ List.nil_prefix, fun _ ↦ List.nil_prefix⟩
  | cons c p ih =>
    intro text
    have hc := hp c (List.mem_cons_self ..)
    have hrest := ih fun d hd ↦ hp d (List.mem_cons_of_mem _ hd)
    cases text with
    | nil => simp
    | cons d text =>
      rw [List.map_cons, List.flatMap_cons, List.cons_prefix_cons, ← hrest]
      constructor
      · rintro ⟨t, ht⟩
        obtain ⟨hd, htail⟩ := Utf8.encodeChar_append_eq_cons hc ht.symm
        exact ⟨hd.symm, t, htail.symm⟩
      · rintro ⟨rfl, htail⟩
        rw [Utf8.encodeChar_of_ascii hc]
        exact List.cons_prefix_cons.mpr ⟨rfl, htail⟩

theorem nullSuffix_start_iff (text : List Char) :
    nullSuffix.isPrefixOf (text.flatMap String.utf8EncodeChar) = nullText.isPrefixOf text := by
  have hbytes : nullSuffix = nullText.map fun c ↦ UInt8.ofNat c.toNat := by decide
  have hascii : ∀ c ∈ nullText, c.toNat < 0x80 := by simp [nullText]
  have hiff := ascii_start_iff hascii text
  rw [Bool.eq_iff_iff, List.isPrefixOf_iff_prefix, List.isPrefixOf_iff_prefix, hbytes]
  exact hiff

theorem scan_utf8EncodeChar (hc : c ≠ '\\') (odd : Bool) (rest : Bytes) :
    scan 92 nullSuffix odd 0 (String.utf8EncodeChar c ++ rest) =
      String.utf8EncodeChar c ++ scan 92 nullSuffix false 0 rest := by
  have hnot := backslash_notMem_utf8EncodeChar hc
  cases hbytes : String.utf8EncodeChar c with
  | nil => exact absurd hbytes (Utf8.encodeChar_ne_nil c)
  | cons b bytes =>
    rw [hbytes, List.mem_cons, not_or] at hnot
    rw [List.cons_append, scan_copy (Ne.symm hnot.1), scan_copy_all hnot.2, List.cons_append]

theorem scan_utf8 (n : ℕ) : ∀ (text : List Char) (odd : Bool), text.length ≤ n →
    scan 92 nullSuffix odd 0 (text.flatMap String.utf8EncodeChar) =
      (scanText odd text).flatMap String.utf8EncodeChar := by
  induction n with
  | zero =>
    intro text odd hlength
    rw [List.eq_nil_of_length_eq_zero (Nat.le_zero.mp hlength)]
    rfl
  | succ n ih =>
    intro text odd hlength
    cases text with
    | nil => rfl
    | cons c rest =>
      have hrest : rest.length ≤ n := Nat.le_of_succ_le_succ hlength
      rw [List.flatMap_cons]
      by_cases hc : c = '\\'
      · subst hc
        have hbyte : String.utf8EncodeChar '\\' = [92] := by decide
        rw [hbyte, List.singleton_append, scan, nullSuffix_start_iff, scanText, scan]
        simp only [true_and]
        split_ifs with hstrip
        · obtain ⟨tail, rfl⟩ := List.isPrefixOf_iff_prefix.mp hstrip.1
          have hbytes : (nullText ++ tail).flatMap String.utf8EncodeChar =
              nullSuffix ++ tail.flatMap String.utf8EncodeChar := by
            rw [List.flatMap_append]
            rfl
          have htail : tail.length ≤ n := by
            rw [List.length_append] at hrest
            omega
          rw [hbytes]
          exact ((scan_skip nullSuffix _ false).trans (ih tail false htail)).trans
            (congrArg (List.flatMap String.utf8EncodeChar) (scan_skip nullText tail false).symm)
        · rw [List.flatMap_cons, hbyte]
          exact congrArg (92 :: ·) (ih rest _ hrest)
      · rw [scan_utf8EncodeChar hc, scanText, scan_copy hc, List.flatMap_cons, ih rest false hrest]
        rfl

theorem stripJsonNullEscapes_utf8 (text : List Char) :
    stripJsonNullEscapes (text.flatMap String.utf8EncodeChar) =
      (scanText false text).flatMap String.utf8EncodeChar := by
  rw [stripJsonNullEscapes_eq, scan_utf8 text.length text false (Nat.le_refl _)]

def removeNul (units : List ℕ) : List ℕ := units.filter fun u ↦ u ≠ 0

def removeNulMode : Mode → Mode
  | .outside word => .outside word
  | .inside units => .inside (removeNul units)

def CleanWords (tokens : List Token) : Prop := ∀ word, .word word ∈ tokens → '\\' ∉ word

theorem scanText_copy (hc : c ≠ '\\') (rest : List Char) :
    scanText false (c :: rest) = c :: scanText false rest := scan_copy hc false rest

theorem scanText_null (rest : List Char) :
    scanText false ('\\' :: (nullText ++ rest)) = scanText false rest := by
  have hstart : nullText.isPrefixOf (nullText ++ rest) = true :=
    List.isPrefixOf_iff_prefix.mpr (List.prefix_append _ _)
  rw [scanText, scan, if_pos ⟨rfl, hstart, rfl⟩]
  exact scan_skip nullText rest false

theorem scanText_escape (h : ¬ nullText <+: k :: rest) :
    scanText false ('\\' :: k :: rest) = '\\' :: k :: scanText false rest := by
  have hnot : ¬ nullText.isPrefixOf (k :: rest) = true :=
    fun hstart ↦ h (List.isPrefixOf_iff_prefix.mp hstart)
  have hodd : scan '\\' nullText true 0 (k :: rest) = k :: scan '\\' nullText false 0 rest := by
    rw [scan, if_neg fun hstrip ↦ by cases hstrip.2.2]
    simp
  rw [scanText, scan, if_neg fun hstrip ↦ hnot hstrip.2.1]
  exact congrArg ('\\' :: ·) hodd

theorem hexDigit_ne_backslash {d : ℕ} (h : hexDigit c = some d) :
    c ≠ '\\' := by
  rintro rfl
  have hnone : hexDigit '\\' = none := by decide
  rw [hnone] at h
  cases h

theorem hexDigit_eq_zero (h : hexDigit c = some 0) : c = '0' := by
  have hrange : ∀ a b : Char, a ≤ b ↔ a.toNat ≤ b.toNat := fun _ _ ↦ Iff.rfl
  unfold hexDigit at h
  simp only [hrange] at h
  split_ifs at h with hdigit hlower hupper
  · have hvalue := Option.some.inj h
    have h0 : '0'.toNat = 48 := rfl
    exact Char.toNat_inj.mp (by omega)
  · have hvalue := Option.some.inj h
    have ha : 'a'.toNat = 97 := rfl
    omega
  · have hvalue := Option.some.inj h
    have hA : 'A'.toNat = 65 := rfl
    omega

theorem hexUnit_eq_some {a b d : Char} (h : hexUnit a b c d = some unit) :
    ('\\' ∉ [a, b, c, d]) ∧ (unit = 0 → [a, b, c, d] = ['0', '0', '0', '0']) := by
  simp only [hexUnit, bind, Option.bind_eq_some_iff, pure, Option.some.injEq] at h
  obtain ⟨va, ha, vb, hb, vc, hc, vd, hd, rfl⟩ := h
  constructor
  · simp only [List.mem_cons, List.not_mem_nil, or_false, not_or]
    exact ⟨(hexDigit_ne_backslash ha).symm, (hexDigit_ne_backslash hb).symm,
      (hexDigit_ne_backslash hc).symm, (hexDigit_ne_backslash hd).symm⟩
  · intro hzero
    obtain ⟨rfl, rfl, rfl, rfl⟩ : va = 0 ∧ vb = 0 ∧ vc = 0 ∧ vd = 0 := by omega
    rw [hexDigit_eq_zero ha, hexDigit_eq_zero hb, hexDigit_eq_zero hc, hexDigit_eq_zero hd]

theorem shortEscape_ne_zero (h : shortEscape k = some unit) :
    unit ≠ 0 := by
  unfold shortEscape at h
  split_ifs at h <;> obtain rfl := Option.some.inj h <;> decide

theorem removeNul_append (xs ys : List ℕ) :
    removeNul (xs ++ ys) = removeNul xs ++ removeNul ys := List.filter_append ..

theorem removeNul_units (hc : ¬ c.toNat < 0x20) :
    removeNul (Utf16.units c.toNat) = Utf16.units c.toNat := by
  rw [removeNul, List.filter_eq_self]
  intro u hu
  unfold Utf16.units at hu
  simp only [decide_eq_true_eq]
  split_ifs at hu <;> simp only [List.mem_cons, List.not_mem_nil, or_false] at hu <;> omega

theorem map_wordToken (word : List Char) :
    (wordToken word).map (Token.mapStrings removeNul) =
      wordToken word := by
  unfold wordToken
  split_ifs <;> rfl

theorem not_cleanWords (hword : '\\' ∈ word) (text : List Char) :
    ∀ {word' : List Char} {tokens : List Token}, word <+: word' →
      lex (.outside word') text = some tokens → ¬ CleanWords tokens := by
  have htoken : ∀ word' : List Char, word <+: word' → ∀ tokens : List Token,
      ¬ CleanWords (wordToken word' ++ tokens) := by
    intro word' hstart tokens hclean
    have hmem : '\\' ∈ word' := hstart.subset hword
    have hne : word' ≠ [] := List.ne_nil_of_mem hmem
    rw [wordToken, if_neg hne] at hclean
    exact hclean word' (List.mem_cons_self ..) hmem
  induction text with
  | nil =>
    intro word' tokens hstart hlex
    rw [lex] at hlex
    obtain rfl := Option.some.inj hlex
    have := htoken word' hstart []
    rwa [List.append_nil] at this
  | cons c rest ih =>
    intro word' tokens hstart hlex
    rw [lex] at hlex
    split_ifs at hlex
    · obtain ⟨more, _, rfl⟩ := Option.map_eq_some_iff.mp hlex
      exact htoken word' hstart more
    · obtain ⟨more, _, rfl⟩ := Option.map_eq_some_iff.mp hlex
      exact htoken word' hstart _
    · obtain ⟨more, _, rfl⟩ := Option.map_eq_some_iff.mp hlex
      exact htoken word' hstart more
    · exact ih (hstart.trans (List.prefix_append _ _)) hlex

theorem CleanWords.of_append {front : List Token} (h : CleanWords (front ++ tokens)) :
    CleanWords tokens := fun word hword ↦ h word (List.mem_append_right _ hword)

def Stripped (mode : Mode) (text : List Char) (tokens : List Token) : Prop :=
  lex (removeNulMode mode) (scanText false text) =
      some (tokens.map (Token.mapStrings removeNul)) ∧
    scanText false (scanText false text) = scanText false text

theorem stripped_unicodeEscape {a b d e : Char} (hunit : hexUnit a b d e = some unit)
    (h : Stripped (.inside (units ++ [unit])) rest tokens) :
    Stripped (.inside units) ('\\' :: 'u' :: a :: b :: d :: e :: rest) tokens := by
  obtain ⟨hscan, htwice⟩ := h
  obtain ⟨hplain, hzero⟩ := hexUnit_eq_some hunit
  rw [removeNulMode, removeNul_append] at hscan
  by_cases h0 : unit = 0
  · obtain ⟨rfl, rfl, rfl, rfl⟩ : a = '0' ∧ b = '0' ∧ d = '0' ∧ e = '0' := by
      simpa using hzero h0
    have hnull : scanText false ('\\' :: 'u' :: '0' :: '0' :: '0' :: '0' :: rest) =
        scanText false rest := scanText_null rest
    rw [h0] at hscan
    rw [Stripped, hnull]
    refine ⟨?_, htwice⟩
    rw [removeNulMode]
    simpa [removeNul] using hscan
  · have hcopy : ∀ more, scanText false ('\\' :: 'u' :: a :: b :: d :: e :: more) =
        '\\' :: 'u' :: a :: b :: d :: e :: scanText false more := by
      intro more
      have hnot : ¬ nullText <+: 'u' :: a :: b :: d :: e :: more := by
        intro hstart
        simp only [nullText, List.cons_prefix_cons, List.nil_prefix, and_true, true_and] at hstart
        obtain ⟨rfl, rfl, rfl, rfl⟩ := hstart
        exact h0 (Option.some.inj (hunit.symm.trans (by decide)))
      rw [scanText_escape hnot]
      exact congrArg (fun t ↦ '\\' :: 'u' :: t) (scan_copy_all hplain more)
    have hkept : removeNul [unit] = [unit] := by
      rw [removeNul, List.filter_eq_self]
      intro u hu
      rw [List.mem_singleton.mp hu]
      exact decide_eq_true h0
    rw [hkept] at hscan
    rw [Stripped, hcopy, hcopy, htwice]
    refine ⟨?_, rfl⟩
    rw [removeNulMode, lex_unicodeEscape, hunit]
    exact hscan

theorem stripped_shortEscape (hk : k ≠ 'u') (hunit : shortEscape k = some unit)
    (h : Stripped (.inside (units ++ [unit])) rest tokens) :
    Stripped (.inside units) ('\\' :: k :: rest) tokens := by
  obtain ⟨hscan, htwice⟩ := h
  have hcopy : ∀ more, scanText false ('\\' :: k :: more) =
      '\\' :: k :: scanText false more := by
    intro more
    refine scanText_escape fun hstart ↦ ?_
    exact hk (List.cons_prefix_cons.mp hstart).1.symm
  have hkept : removeNul [unit] = [unit] := by
    rw [removeNul, List.filter_eq_self]
    intro u hu
    rw [List.mem_singleton.mp hu]
    exact decide_eq_true (shortEscape_ne_zero hunit)
  rw [removeNulMode, removeNul_append, hkept] at hscan
  rw [Stripped, hcopy, hcopy, htwice]
  refine ⟨?_, rfl⟩
  rw [removeNulMode, lex_shortEscape hk, hunit]
  exact hscan

theorem stripped_character (hquote : c ≠ '"') (hback : c ≠ '\\') (hcontrol : ¬ c.toNat < 0x20)
    (h : Stripped (.inside (units ++ Utf16.units c.toNat)) rest tokens) :
    Stripped (.inside units) (c :: rest) tokens := by
  obtain ⟨hscan, htwice⟩ := h
  rw [removeNulMode, removeNul_append, removeNul_units hcontrol] at hscan
  rw [Stripped, scanText_copy hback, scanText_copy hback, htwice]
  refine ⟨?_, rfl⟩
  rw [removeNulMode, lex_character hquote hback hcontrol]
  exact hscan

theorem stripped_outside
    (hlex : lex (.outside word) (c :: rest) = some tokens) (hclean : CleanWords tokens)
    (ih : ∀ {mode tokens}, lex mode rest = some tokens → CleanWords tokens →
      Stripped mode rest tokens) : Stripped (.outside word) (c :: rest) tokens := by
  have hc : c ≠ '\\' := by
    rintro rfl
    rw [lex] at hlex
    exact not_cleanWords (List.mem_append_right word (List.mem_singleton_self _)) rest
      List.prefix_rfl hlex hclean
  rw [Stripped, scanText_copy hc, scanText_copy hc, removeNulMode, lex]
  rw [lex] at hlex
  split_ifs at hlex ⊢
  · obtain ⟨more, hmore, rfl⟩ := Option.map_eq_some_iff.mp hlex
    obtain ⟨hscan, htwice⟩ := ih hmore hclean.of_append
    rw [removeNulMode] at hscan
    rw [hscan, htwice]
    simp [map_wordToken]
  · obtain ⟨more, hmore, rfl⟩ := Option.map_eq_some_iff.mp hlex
    have hclean' : CleanWords more := fun w hw ↦
      hclean w (List.mem_append_right _ (List.mem_cons_of_mem _ hw))
    obtain ⟨hscan, htwice⟩ := ih hmore hclean'
    rw [removeNulMode] at hscan
    rw [hscan, htwice]
    simp [map_wordToken, Token.mapStrings]
  · obtain ⟨more, hmore, rfl⟩ := Option.map_eq_some_iff.mp hlex
    obtain ⟨hscan, htwice⟩ := ih hmore hclean.of_append
    have hmode : removeNulMode (.inside []) = .inside [] := rfl
    rw [hmode] at hscan
    rw [hscan, htwice]
    simp [map_wordToken]
  · obtain ⟨hscan, htwice⟩ := ih hlex hclean
    rw [removeNulMode] at hscan
    rw [hscan, htwice]
    simp

theorem stripped_closing {more : List Token} (h : Stripped (.outside []) rest more) :
    Stripped (.inside units) ('"' :: rest) (.string units :: more) := by
  obtain ⟨hscan, htwice⟩ := h
  have hback : '"' ≠ '\\' := by decide
  have houtside : removeNulMode (.outside []) = .outside [] := rfl
  rw [houtside] at hscan
  rw [Stripped, scanText_copy hback, scanText_copy hback, htwice, removeNulMode,
    lex_quote, hscan]
  exact ⟨rfl, rfl⟩

theorem lex_scanText (n : ℕ) : ∀ {mode : Mode} {text : List Char} {tokens : List Token},
    text.length ≤ n → lex mode text = some tokens → CleanWords tokens →
      Stripped mode text tokens := by
  induction n with
  | zero =>
    intro mode text tokens hlength hlex _
    obtain rfl := List.eq_nil_of_length_eq_zero (Nat.le_zero.mp hlength)
    cases mode with
    | outside word =>
      rw [lex] at hlex
      obtain rfl := Option.some.inj hlex
      refine ⟨?_, rfl⟩
      rw [map_wordToken]
      rfl
    | inside units => cases hlex
  | succ n ih =>
    intro mode text tokens hlength hlex hclean
    cases text with
    | nil => exact ih (Nat.zero_le _) hlex hclean
    | cons c rest =>
      have hrest : rest.length ≤ n := Nat.le_of_succ_le_succ hlength
      cases mode with
      | outside word => exact stripped_outside hlex hclean (ih hrest)
      | inside units =>
        rw [lex.eq_def] at hlex
        dsimp only at hlex
        by_cases hquote : c = '"'
        · rw [if_pos hquote] at hlex
          subst hquote
          obtain ⟨more, hmore, rfl⟩ := Option.map_eq_some_iff.mp hlex
          have hclean' : CleanWords more := fun w hw ↦ hclean w (List.mem_cons_of_mem _ hw)
          exact stripped_closing (ih hrest hmore hclean')
        rw [if_neg hquote] at hlex
        by_cases hback : c = '\\'
        · rw [if_pos hback] at hlex
          subst hback
          cases rest with
          | nil => cases hlex
          | cons k rest =>
            have hlength' : rest.length ≤ n := Nat.le_of_succ_le hrest
            by_cases hu : k = 'u'
            · subst hu
              rcases rest with _ | ⟨a, _ | ⟨b, _ | ⟨d, _ | ⟨e, rest⟩⟩⟩⟩
              · cases hlex
              · cases hlex
              · cases hlex
              · cases hlex
              · obtain ⟨unit, hunit, hmore⟩ := Option.bind_eq_some_iff.mp hlex
                have hshort : rest.length ≤ n := by
                  simp only [List.length_cons] at hlength'
                  omega
                exact stripped_unicodeEscape hunit (ih hshort hmore hclean)
            · simp only [if_neg hu] at hlex
              obtain ⟨unit, hunit, hmore⟩ := Option.bind_eq_some_iff.mp hlex
              exact stripped_shortEscape hu hunit (ih hlength' hmore hclean)
        rw [if_neg hback] at hlex
        by_cases hcontrol : c.toNat < 0x20
        · rw [if_pos hcontrol] at hlex
          cases hlex
        rw [if_neg hcontrol] at hlex
        exact stripped_character hquote hback hcontrol (ih hrest hlex hclean)

theorem numberStep_backslash (s : NumberState) :
    numberStep s '\\' = none := by
  cases s <;> decide

theorem backslash_notMem_of_foldlM (text : List Char) :
    ∀ {s s' : NumberState}, text.foldlM numberStep s = some s' →
      '\\' ∉ text := by
  induction text with
  | nil => exact fun _ ↦ List.not_mem_nil
  | cons c text ih =>
    intro s s' h hmem
    rw [List.foldlM_cons] at h
    obtain ⟨s₁, hstep, htail⟩ := Option.bind_eq_some_iff.mp h
    rcases List.mem_cons.mp hmem with rfl | hrest
    · rw [numberStep_backslash] at hstep
      cases hstep
    · exact ih htail hrest

theorem backslash_notMem_of_wordValue {tree : Tree}
    (h : wordValue word = some tree) : '\\' ∉ word := by
  unfold wordValue at h
  split_ifs at h with hnull htrue hfalse hnumber
  · rw [hnull]
    decide
  · rw [htrue]
    decide
  · rw [hfalse]
    decide
  · unfold isNumber at hnumber
    cases hrun : word.foldlM numberStep .start with
    | none =>
      rw [hrun] at hnumber
      cases hnumber
    | some s => exact backslash_notMem_of_foldlM word hrun

theorem backslash_notMem_of_step {s s' : List Frame × Position}
    (h : step s (.word word) = some s') : '\\' ∉ word := by
  have hopen : ∀ {stack}, openValue stack (.word word) = some s' → '\\' ∉ word := by
    intro stack hopen
    obtain ⟨tree, htree, _⟩ := Option.map_eq_some_iff.mp hopen
    exact backslash_notMem_of_wordValue htree
  obtain ⟨stack, position⟩ := s
  cases position with
  | value => exact hopen h
  | firstElement => exact hopen h
  | firstMember => cases h
  | member members => cases h
  | colon members name => cases h
  | after tree =>
    cases stack with
    | nil => cases h
    | cons frame stack => cases frame <;> cases h

theorem cleanWords_of_foldlM (tokens : List Token) :
    ∀ {s s' : List Frame × Position},
      tokens.foldlM step s = some s' → CleanWords tokens := by
  induction tokens with
  | nil => exact fun _ _ hword ↦ absurd hword List.not_mem_nil
  | cons token tokens ih =>
    intro s s' h word hword
    rw [List.foldlM_cons] at h
    obtain ⟨s₁, hstep, htail⟩ := Option.bind_eq_some_iff.mp h
    rcases List.mem_cons.mp hword with rfl | hrest
    · exact backslash_notMem_of_step hstep
    · exact ih htail word hrest

/-- No string or member name of the text holds U+0000, so the text has no escape of it. -/
def NoNullEscape (text : List Char) : Prop :=
  ∃ tokens, lex (.outside []) text = some tokens ∧ ∀ units, .string units ∈ tokens → 0 ∉ units

/-- For every valid JSON text the result is a valid JSON text without an escape of U+0000 whose
tree is the given one with every U+0000 removed, and a second call changes nothing. -/
theorem strip_null_escapes_exact (text : String) (tree : Tree)
    (hparse : parse text.toList = some tree) :
    ∃ text' : String, stripJsonNullEscapes (utf8 text) = utf8 text' ∧
      parse text'.toList = some (tree.mapStrings removeNul) ∧ NoNullEscape text'.toList ∧
      stripJsonNullEscapes (stripJsonNullEscapes (utf8 text)) = stripJsonNullEscapes (utf8 text) := by
  obtain ⟨tokens, hlex, htokens⟩ := Option.bind_eq_some_iff.mp hparse
  obtain ⟨s, hrun, _⟩ := Option.bind_eq_some_iff.mp htokens
  obtain ⟨hscan, htwice⟩ := lex_scanText text.toList.length (Nat.le_refl _) hlex
    (cleanWords_of_foldlM tokens hrun)
  rw [removeNulMode] at hscan
  refine ⟨String.ofList (scanText false text.toList), ?_, ?_, ?_, ?_⟩
  · rw [utf8, utf8, String.toList_ofList, stripJsonNullEscapes_utf8]
  · rw [String.toList_ofList, parse, hscan, Option.bind_some,
      parseTokens_mapStrings, htokens]
    rfl
  · rw [String.toList_ofList]
    refine ⟨_, hscan, fun units hunits ↦ ?_⟩
    obtain ⟨token, _, htoken⟩ := List.mem_map.mp hunits
    cases token with
    | string given =>
      obtain rfl := Token.string.inj htoken
      simp [removeNul]
    | punct c => cases htoken
    | word w => cases htoken
  · rw [utf8, stripJsonNullEscapes_utf8, stripJsonNullEscapes_utf8, htwice]

/-- An escaped backslash with the letters u0000 stays next to an escape that is removed. -/
theorem escaped_backslash_kept :
    ∃ text' : String, stripJsonNullEscapes (utf8 "[\"\\\\u0000\\u0000\"]") = utf8 text' ∧
      parse text'.toList = some (.array [.string [92, 117, 48, 48, 48, 48]]) ∧
      NoNullEscape text'.toList := by
  have hlex : lex (.outside []) "[\"\\\\u0000\\u0000\"]".toList =
      some [.punct '[', .string [92, 117, 48, 48, 48, 48, 0], .punct ']'] := by decide +kernel
  obtain ⟨text', hstrip, hparse, hnone, _⟩ := strip_null_escapes_exact
    "[\"\\\\u0000\\u0000\"]" (.array [.string [92, 117, 48, 48, 48, 48, 0]])
    (by rw [parse, hlex]; rfl)
  exact ⟨text', hstrip, hparse, hnone⟩

end StripNullEscapes

end HiveForkManager
