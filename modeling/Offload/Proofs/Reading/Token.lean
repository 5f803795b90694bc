import Offload.Expr.Basic

/-! The tokens of C text, as far as integer expressions need them. A text is cut
into lexemes from the left, and each lexeme is as long as it can be. -/

namespace Offload.Reading

inductive Token where
  | name (text : String)
  | number (value : Nat)
  | op (op : Operator)
  | lparen | rparen | comma | question | colon
  /-- A lexeme that stands in no integer expression of the forms read here. -/
  | other (lexeme : List Char)
  deriving DecidableEq, Repr, Inhabited

def isWordChar (c : Char) : Bool := c.isAlphanum || c == '_'

/-- An identifier of C: letters, digits and underscores, with no digit in front. -/
def IsIdentifier (text : String) : Prop :=
  text.toList ≠ [] ∧ (∀ c ∈ text.toList, isWordChar c) ∧ ∀ c ∈ text.toList.head?, !c.isDigit

instance (text : String) : Decidable (IsIdentifier text) :=
  decidable_of_iff (text.toList ≠ [] ∧ text.toList.all isWordChar = true ∧
    text.toList.head?.all (!·.isDigit) = true) (by simp [IsIdentifier, Option.all_eq_true])

/-- The punctuation of C with more than one character, each built from a shorter
one by a further character. -/
def compounds : List (List Char) :=
  ["==", "!=", "<=", ">=", "&&", "||", "++", "--", "->", "<<", ">>", "<<=", ">>=",
    "+=", "-=", "*=", "/=", "%=", "&=", "|=", "^=", "##", "//", "/*",
    "<:", ":>", "<%", "%>", "%:"].map String.toList

/-- Whether a lexeme goes on with the character. -/
def continues (lexeme : List Char) (c : Char) : Bool :=
  (lexeme.head?.any isWordChar && isWordChar c) || compounds.contains (lexeme ++ [c])

/-- A finished lexeme, if there is one. -/
def finished (lexeme : List Char) : List (List Char) :=
  if lexeme.isEmpty then [] else [lexeme]

/-- Cuts a text into lexemes; the first argument is the lexeme begun before it. -/
def lexemes (begun : List Char) : List Char → List (List Char)
  | [] => finished begun
  | c :: rest =>
    if continues begun c then lexemes (begun ++ [c]) rest
    else finished begun ++ lexemes (if c.isWhitespace then [] else [c]) rest

/-- A decimal constant; one that starts with a zero would be octal. -/
def isDecimal (lexeme : List Char) : Bool :=
  lexeme.all Char.isDigit && (lexeme == ['0'] || lexeme.head? != some '0')

/-- The punctuation of expressions. -/
def marks : List (List Char × Token) :=
  [(['+'], .op .add), (['-'], .op .sub), (['*'], .op .mul), (['/'], .op .div), (['%'], .op .rem),
    (['=', '='], .op .eq), (['!', '='], .op .ne), (['<', '='], .op .le), (['>', '='], .op .ge),
    (['<'], .op .lt), (['>'], .op .gt), (['&', '&'], .op .and), (['|', '|'], .op .or),
    (['('], .lparen), ([')'], .rparen), ([','], .comma), (['?'], .question), ([':'], .colon)]

/-- The token of a lexeme that is no punctuation. -/
def wordToken (lexeme : List Char) : Token :=
  if isDecimal lexeme then .number (Nat.ofDigitChars 10 lexeme 0)
  else if IsIdentifier (String.ofList lexeme) then .name (String.ofList lexeme)
  else .other lexeme

def Token.ofLexeme (lexeme : List Char) : Token := (marks.lookup lexeme).getD (wordToken lexeme)

def scan (text : List Char) : List Token := (lexemes [] text).map Token.ofLexeme

/-- The tokens of a text. -/
def tokens (text : String) : List Token := scan text.toList

/-- Whether the text goes on with a character of a word. -/
def startsWord (text : List Char) : Bool := text.head?.any isWordChar

private theorem isWordChar_solid {c : Char} (word : isWordChar c = true) :
    c.isWhitespace = false := by
  cases blank : c.isWhitespace with
  | false => rfl
  | true =>
    have kinds : ((c = ' ' ∨ c = '\t') ∨ c = '\r') ∨ c = '\n' := by
      simpa [Char.isWhitespace] using blank
    rcases kinds with ((rfl | rfl) | rfl) | rfl <;> simp [isWordChar] at word

private theorem compounds_length : ∀ lexeme ∈ compounds, 2 ≤ lexeme.length := by decide

private theorem compounds_startsWord : ∀ lexeme ∈ compounds, startsWord lexeme = false := by decide

theorem continues_nil (c : Char) : continues [] c = false := by
  have absent : [c] ∉ compounds := fun member => by
    have := compounds_length _ member
    simp at this
  simp [continues, absent]

/-- A word goes on with the characters of a word and with no others. -/
theorem continues_word {lexeme : List Char} (word : startsWord lexeme = true) (c : Char) :
    continues lexeme c = isWordChar c := by
  have absent : lexeme ++ [c] ∉ compounds := fun member => by
    have solid := compounds_startsWord _ member
    cases lexeme with
    | nil => simp [startsWord] at word
    | cons first rest => simp_all [startsWord]
  simp only [startsWord] at word
  simp [continues, absent, word]

theorem lexemes_solid {c : Char} (solid : c.isWhitespace = false) (rest : List Char) :
    lexemes [] (c :: rest) = lexemes [c] rest := by
  simp [lexemes, continues_nil, finished, solid]

/-- A lexeme that does not go on with what follows is cut off. -/
theorem lexemes_cut {begun rest : List Char} (nonempty : begun ≠ [])
    (stops : ∀ c ∈ rest.head?, continues begun c = false) :
    lexemes begun rest = begun :: lexemes [] rest := by
  cases rest with
  | nil => simp [lexemes, finished, nonempty]
  | cons c rest =>
    have stop : continues begun c = false := stops c rfl
    simp [lexemes, stop, continues_nil, finished, nonempty]

private theorem lexemes_word {begun : List Char} (started : startsWord begun = true)
    (word rest : List Char) (letters : ∀ c ∈ word, isWordChar c = true) :
    lexemes begun (word ++ rest) = lexemes (begun ++ word) rest := by
  induction word generalizing begun with
  | nil => simp
  | cons c word ih =>
    have longer : startsWord (begun ++ [c]) = true := by
      cases begun <;> simp_all [startsWord]
    have letter : isWordChar c = true := letters c (by simp)
    have others : ∀ d ∈ word, isWordChar d = true := fun d member => letters d (by simp [member])
    simp only [List.cons_append, lexemes, continues_word started, letter, ↓reduceIte]
    rw [ih longer others, List.append_assoc, List.singleton_append]

/-- A word is one token, up to the first character of no word. -/
theorem scan_word {word : List Char} (nonempty : word ≠ [])
    (letters : ∀ c ∈ word, isWordChar c = true) {rest : List Char}
    (stops : startsWord rest = false) :
    scan (word ++ rest) = .ofLexeme word :: scan rest := by
  cases word with
  | nil => exact absurd rfl nonempty
  | cons c word =>
    have letter : isWordChar c = true := letters c (by simp)
    have started : startsWord [c] = true := by simpa [startsWord] using letter
    have others : ∀ d ∈ word, isWordChar d = true := fun d member => letters d (by simp [member])
    have whole : startsWord (c :: word) = true := by simpa [startsWord] using letter
    have cut : lexemes (c :: word) rest = (c :: word) :: lexemes [] rest := by
      apply lexemes_cut nonempty
      intro d next
      rw [continues_word whole]
      simpa [startsWord, Option.mem_def.mp next] using stops
    simp only [scan, List.cons_append, lexemes_solid (isWordChar_solid letter)]
    rw [lexemes_word started word rest others, List.singleton_append, cut, List.map_cons]

/-- Punctuation is one token where what follows does not prolong it. -/
theorem scan_mark {c : Char} {rest : List Char} (solid : c.isWhitespace = false)
    (stops : ∀ d ∈ rest.head?, continues [c] d = false) :
    scan (c :: rest) = .ofLexeme [c] :: scan rest := by
  simp only [scan, lexemes_solid solid, lexemes_cut (List.cons_ne_nil c []) stops, List.map_cons]

@[simp] theorem scan_nil : scan [] = [] := rfl

@[simp] theorem scan_blank (rest : List Char) : scan (' ' :: rest) = scan rest := by
  simp [scan, lexemes, continues_nil, finished]

@[simp] theorem scan_lparen (rest : List Char) : scan ('(' :: rest) = .lparen :: scan rest :=
  scan_mark (by decide) fun d _ => by simp [continues, compounds, isWordChar]

@[simp] theorem scan_rparen (rest : List Char) : scan (')' :: rest) = .rparen :: scan rest :=
  scan_mark (by decide) fun d _ => by simp [continues, compounds, isWordChar]

@[simp] theorem scan_comma (rest : List Char) : scan (',' :: rest) = .comma :: scan rest :=
  scan_mark (by decide) fun d _ => by simp [continues, compounds, isWordChar]

@[simp] theorem scan_question (rest : List Char) : scan ('?' :: rest) = .question :: scan rest :=
  scan_mark (by decide) fun d _ => by simp [continues, compounds, isWordChar]

@[simp] theorem scan_colon (rest : List Char) :
    scan (':' :: ' ' :: rest) = .colon :: scan rest := by
  have stops : ∀ d ∈ (' ' :: rest).head?, continues [':'] d = false := by
    intro d next
    obtain rfl : ' ' = d := by simpa using next
    decide
  rw [scan_mark (by decide) stops, scan_blank]
  rfl

theorem scan_minus {rest : List Char} (stops : ∀ d ∈ rest.head?, isWordChar d = true ∨ d = '(') :
    scan ('-' :: rest) = .op .sub :: scan rest := by
  apply scan_mark (by decide)
  intro d next
  have safe : d ≠ '-' ∧ d ≠ '>' ∧ d ≠ '=' := by
    rcases stops d next with word | rfl
    · refine ⟨?_, ?_, ?_⟩ <;> rintro rfl <;> simp [isWordChar] at word
    · decide
  simp [continues, compounds, isWordChar, safe]

@[simp] theorem scan_operator (op : Operator) (rest : List Char) :
    scan (op.symbol.toList ++ ' ' :: rest) = .op op :: scan rest := by
  have cut : lexemes [] (op.symbol.toList ++ ' ' :: rest) =
      op.symbol.toList :: lexemes [] rest := by
    cases op <;> simp [lexemes, continues, compounds, finished, isWordChar, Operator.symbol]
  have token : Token.ofLexeme op.symbol.toList = .op op := by cases op <;> rfl
  rw [scan, cut, List.map_cons, token, scan]

private theorem marks_startsWord : ∀ mark ∈ marks, startsWord mark.1 = false := by decide

private theorem ofLexeme_word {lexeme : List Char} (word : startsWord lexeme = true) :
    Token.ofLexeme lexeme = wordToken lexeme := by
  have absent : marks.lookup lexeme = none := by
    rw [List.lookup_eq_none_iff]
    intro mark member
    have solid := marks_startsWord mark member
    simp only [bne_iff_ne, ne_eq]
    rintro rfl
    simp [word] at solid
  simp [Token.ofLexeme, absent]

theorem scan_name {x : String} (identifier : IsIdentifier x) {rest : List Char}
    (stops : startsWord rest = false) : scan (x.toList ++ rest) = .name x :: scan rest := by
  have ⟨nonempty, letters, noDigit⟩ := identifier
  obtain ⟨first, more, same⟩ := List.exists_cons_of_ne_nil nonempty
  have started : startsWord x.toList = true := by
    simpa [startsWord, same] using letters first (by simp [same])
  have notDecimal : isDecimal x.toList = false := by
    have named : first.isDigit = false := by simpa [same] using noDigit
    simp [isDecimal, same, named]
  rw [scan_word nonempty letters stops, ofLexeme_word started]
  simp [wordToken, notDecimal, identifier]

/-- No number but zero is written with a zero in front. -/
private theorem toDigits_head (n : Nat) (positive : 0 < n) :
    (Nat.toDigits 10 n).head? ≠ some '0' := by
  induction n using Nat.strongRecOn with
  | ind n ih =>
    rw [Nat.toDigits_eq_if (by decide)]
    split
    · have : n ≠ 0 := by omega
      simpa using this
    · have shorter := ih (n / 10) (by omega) (by omega)
      obtain ⟨digit, digits, same⟩ :=
        List.exists_cons_of_ne_nil (Nat.toDigits_ne_nil (n := n / 10) (b := 10))
      simpa [same] using shorter

private theorem isDecimal_toDigits (n : Nat) : isDecimal (Nat.toDigits 10 n) = true := by
  have digits : (Nat.toDigits 10 n).all Char.isDigit = true :=
    List.all_eq_true.mpr fun _ => Nat.isDigit_of_mem_toDigits (by decide) (by decide)
  rcases Nat.eq_zero_or_pos n with rfl | positive
  · simp [isDecimal]
  · simp [isDecimal, digits, toDigits_head n positive]

theorem toDigits_word (n : Nat) : ∀ c ∈ Nat.toDigits 10 n, isWordChar c = true := by
  intro c member
  have digit := Nat.isDigit_of_mem_toDigits (by decide) (by decide) member
  simp [isWordChar, Char.isAlphanum, digit]

theorem scan_number (n : Nat) {rest : List Char} (stops : startsWord rest = false) :
    scan (Nat.toDigits 10 n ++ rest) = .number n :: scan rest := by
  obtain ⟨digit, digits, same⟩ :=
    List.exists_cons_of_ne_nil (Nat.toDigits_ne_nil (n := n) (b := 10))
  have started : startsWord (Nat.toDigits 10 n) = true := by
    simpa [startsWord, same] using toDigits_word n digit (by simp [same])
  rw [scan_word Nat.toDigits_ne_nil (toDigits_word n) stops, ofLexeme_word started]
  simp [wordToken, isDecimal_toDigits]

end Offload.Reading
