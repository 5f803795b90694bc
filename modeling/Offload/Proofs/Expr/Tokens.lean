import Offload.Proofs.Expr.Subterms
import Offload.Proofs.Reading.Grammar

namespace Offload.Expr

open Reading

/-- Whether the expression is printed between parentheses as an operand. -/
def wrapped (outer : Operator) (side : Operator.Side) (e : Expr) : Bool :=
  e.operator?.any (outer.needsParens · side)

theorem wrapOperand_eq (op : Operator) (e : Expr) (side : Operator.Side) (text : String) :
    op.wrapOperand e.operator? side text =
      if e.wrapped op side then "(" ++ text ++ ")" else text := by
  cases e <;> rfl

def grouped (parens : Bool) (ts : List Token) : List Token :=
  if parens then .lparen :: (ts ++ [.rparen]) else ts

def nestTokens (name : String) : List (List Token) → List Token
  | [] => []
  | first :: rest =>
    rest.foldl (fun inner arg =>
      .name name :: .lparen :: (inner ++ .comma :: (arg ++ [.rparen]))) first

mutual

/-- The tokens of the printed expression. -/
def tokens : Expr → List Token
  | lit n => if n < 0 then [.op .sub, .number n.natAbs] else [.number n.natAbs]
  | var x => [.name x]
  | neg arg => .op .sub :: grouped arg.guardedUnderMinus arg.tokens
  | bin op lhs rhs =>
    grouped (lhs.wrapped op .left) lhs.tokens ++
      .op op :: grouped (rhs.wrapped op .right) rhs.tokens
  | call fn args => nestTokens fn.name (tokensAll args)
  | select cond thn els =>
    .lparen :: (cond.tokens ++ .question :: (thn.tokens ++ .colon :: (els.tokens ++ [.rparen])))

def tokensAll : List Expr → List (List Token)
  | [] => []
  | e :: rest => e.tokens :: tokensAll rest

end

theorem tokensAll_eq_map (args : List Expr) : tokensAll args = args.map tokens := by
  induction args with
  | nil => rfl
  | cons first rest ih => simp [tokensAll, ih]

/-- Names are identifiers of C, other than the names of the built-in functions. -/
def Named : Expr → Prop
  | var x => IsIdentifier x ∧ function? x = none
  | _ => True

/-- Two signs in a row would be one token, and a call without arguments none. -/
def Spaced : Expr → Prop
  | neg arg => arg.guardedUnderMinus = true ∨ arg.tokens.head? ≠ some (.op .sub)
  | call _ args => args ≠ []
  | _ => True

instance : DecidablePred Named
  | var _ => inferInstanceAs (Decidable (_ ∧ _))
  | lit _ | neg _ | bin .. | call .. | select .. => inferInstanceAs (Decidable True)

instance : DecidablePred Spaced
  | neg _ => inferInstanceAs (Decidable (_ ∨ _))
  | call .. => inferInstanceAs (Decidable (_ ≠ _))
  | lit _ | var _ | bin .. | select .. => inferInstanceAs (Decidable True)

/-- The text is cut into those tokens, whatever follows it other than a word. -/
def Scans (text : String) (ts : List Token) : Prop :=
  ∀ rest, startsWord rest = false → scan (text.toList ++ rest) = ts ++ scan rest

theorem Scans.tokens {text : String} {ts : List Token} (scans : Scans text ts) :
    Reading.tokens text = ts := by
  simpa [Reading.tokens] using scans [] rfl

theorem Scans.grouped {text : String} {ts : List Token} (scans : Scans text ts) (parens : Bool) :
    Scans (if parens then "(" ++ text ++ ")" else text) (grouped parens ts) := by
  cases parens with
  | false => simpa [Expr.grouped] using scans
  | true =>
    intro rest _
    have inner := scans (')' :: rest) rfl
    simp [Expr.grouped, inner]

private theorem scans_nestCalls (fn : Builtin) {args : List Expr}
    (scans : ∀ arg ∈ args, Scans arg.text arg.tokens) {text : String} {ts : List Token}
    (first : Scans text ts) :
    Scans (nestCalls fn.name (text :: args.map Expr.text))
      (nestTokens fn.name (ts :: args.map Expr.tokens)) := by
  induction args generalizing text ts with
  | nil => exact first
  | cons arg rest ih =>
    apply ih (fun other member => scans other (by simp [member]))
    intro more _
    have name : IsIdentifier fn.name := by cases fn <;> decide
    have inner := first (", ".toList ++ (arg.text.toList ++ ')' :: more)) rfl
    have last := scans arg (by simp) (')' :: more) rfl
    simp at inner
    simp [scan_name name, startsWord, isWordChar, inner, last]

private theorem toList_neg {n : Int} (negative : n < 0) :
    (toString n).toList = '-' :: Nat.toDigits 10 n.natAbs := by
  cases n with
  | ofNat m => exact absurd negative (by simp)
  | negSucc m =>
    have same : toString (Int.negSucc m) = "-" ++ (m + 1).repr := rfl
    simp [same]

private theorem toList_nonneg {n : Int} (nonnegative : ¬ n < 0) :
    (toString n).toList = Nat.toDigits 10 n.natAbs := by
  cases n with
  | ofNat m => exact Nat.toList_repr
  | negSucc m => exact absurd (Int.negSucc_lt_zero m) nonnegative

private theorem toDigits_start (n : Nat) :
    ∃ c, (Nat.toDigits 10 n).head? = some c ∧ isWordChar c = true := by
  obtain ⟨c, rest, same⟩ :=
    List.exists_cons_of_ne_nil (Nat.toDigits_ne_nil (n := n) (b := 10))
  exact ⟨c, by simp [same], toDigits_word n c (by simp [same])⟩

private theorem name_start (fn : Builtin) :
    ∃ c, fn.name.toList.head? = some c ∧ isWordChar c = true := by
  cases fn <;> exact ⟨_, rfl, rfl⟩

private theorem nestCalls_head (name first second : String) (rest : List String) :
    ∃ more, nestCalls name (first :: second :: rest) = name ++ more := by
  induction rest generalizing first second with
  | nil => exact ⟨"(" ++ first ++ ", " ++ second ++ ")", by simp [nestCalls, String.append_assoc]⟩
  | cons third rest ih => exact ih (name ++ "(" ++ first ++ ", " ++ second ++ ")") third

/-- A printed expression starts with a word, with a parenthesis, or with a sign
that is its first token. -/
theorem text_head {e : Expr} (named : e.Everywhere Named) (spaced : e.Everywhere Spaced) :
    ∃ c, e.text.toList.head? = some c ∧
      (isWordChar c = true ∨ c = '(' ∨ c = '-' ∧ e.tokens.head? = some (.op .sub)) := by
  induction e with
  | lit n =>
    by_cases negative : n < 0
    · refine ⟨'-', ?_, .inr (.inr ⟨rfl, ?_⟩)⟩
      · rw [text, toList_neg negative, List.head?_cons]
      · simp [tokens, negative]
    · obtain ⟨c, head, letter⟩ := toDigits_start n.natAbs
      exact ⟨c, by rw [text, toList_nonneg negative, head], .inl letter⟩
  | var x =>
    have ⟨⟨nonempty, letters, _⟩, _⟩ : IsIdentifier x ∧ function? x = none := named.self
    obtain ⟨c, rest, same⟩ := List.exists_cons_of_ne_nil nonempty
    exact ⟨c, by simp [text, same], .inl (letters c (by simp [same]))⟩
  | neg arg _ =>
    refine ⟨'-', ?_, .inr (.inr ⟨rfl, rfl⟩)⟩
    simp only [text]
    split <;> simp
  | bin op lhs rhs ihLeft _ =>
    obtain ⟨_, named, _⟩ := everywhere_bin.mp named
    obtain ⟨_, spaced, _⟩ := everywhere_bin.mp spaced
    simp only [text, tokens, wrapOperand_eq]
    cases wrap : lhs.wrapped op .left with
    | true => exact ⟨'(', by simp, .inr (.inl rfl)⟩
    | false =>
      obtain ⟨c, head, start⟩ := ihLeft named spaced
      refine ⟨c, by simp [head], ?_⟩
      rcases start with letter | paren | ⟨sign, token⟩
      · exact .inl letter
      · exact .inr (.inl paren)
      · exact .inr (.inr ⟨sign, by simp [grouped, token]⟩)
  | call fn args ih =>
    obtain ⟨nonempty, spaced⟩ := everywhere_call.mp spaced
    obtain ⟨_, named⟩ := everywhere_call.mp named
    simp only [text, tokens, texts_eq_map, tokensAll_eq_map]
    cases args with
    | nil => exact absurd rfl nonempty
    | cons first rest =>
      cases rest with
      | nil => exact ih first (by simp) (named first (by simp)) (spaced first (by simp))
      | cons second rest =>
        obtain ⟨more, same⟩ := nestCalls_head fn.name first.text second.text (rest.map text)
        obtain ⟨c, head, letter⟩ := name_start fn
        exact ⟨c, by simp [same, head], .inl letter⟩
  | select cond thn els => exact ⟨'(', by simp [text], .inr (.inl rfl)⟩

private theorem sign_stops {e : Expr} (named : e.Everywhere Named) (spaced : e.Everywhere Spaced)
    (apart : e.guardedUnderMinus = true ∨ e.tokens.head? ≠ some (.op .sub)) (rest : List Char) :
    ∀ d ∈ ((if e.guardedUnderMinus then "(" ++ e.text ++ ")" else e.text).toList ++ rest).head?,
      isWordChar d = true ∨ d = '(' := by
  intro d next
  cases guarded : e.guardedUnderMinus with
  | true => exact .inr (by simpa [guarded] using next.symm)
  | false =>
    obtain ⟨c, head, start⟩ := text_head named spaced
    obtain rfl : c = d := by simpa [guarded, head] using next
    rcases start with letter | paren | ⟨_, token⟩
    · exact .inl letter
    · exact .inr paren
    · exact absurd token (apart.resolve_left (by simp [guarded]))

/-- The text of an expression is cut into its tokens. -/
theorem scans_text {e : Expr} (named : e.Everywhere Named) (spaced : e.Everywhere Spaced) :
    Scans e.text e.tokens := by
  induction e with
  | lit n =>
    intro rest stops
    by_cases negative : n < 0
    · have sign : ∀ d ∈ (Nat.toDigits 10 n.natAbs ++ rest).head?,
          isWordChar d = true ∨ d = '(' := by
        obtain ⟨c, head, letter⟩ := toDigits_start n.natAbs
        simp [head, letter]
      rw [text, toList_neg negative, List.cons_append, scan_minus sign, scan_number _ stops]
      simp [tokens, negative]
    · rw [text, toList_nonneg negative, scan_number _ stops]
      simp [tokens, negative]
  | var x =>
    intro rest stops
    have ⟨identifier, _⟩ : IsIdentifier x ∧ function? x = none := named.self
    exact scan_name identifier stops
  | neg arg ih =>
    obtain ⟨apart, spaced⟩ := everywhere_neg.mp spaced
    obtain ⟨_, named⟩ := everywhere_neg.mp named
    intro rest stops
    have inner := (ih named spaced).grouped arg.guardedUnderMinus rest stops
    have sign := scan_minus (sign_stops named spaced apart rest)
    have same : (neg arg).text =
        "-" ++ if arg.guardedUnderMinus then "(" ++ arg.text ++ ")" else arg.text := by
      simp only [text]
      split <;> simp [← String.append_assoc]
    rw [same, tokens, String.toList_append, List.append_assoc]
    exact (sign.trans (congrArg _ inner))
  | bin op lhs rhs ihLeft ihRight =>
    obtain ⟨_, namedLeft, namedRight⟩ := everywhere_bin.mp named
    obtain ⟨_, spacedLeft, spacedRight⟩ := everywhere_bin.mp spaced
    intro rest stops
    have right := (ihRight namedRight spacedRight).grouped (rhs.wrapped op .right) rest stops
    simp only [text, tokens, wrapOperand_eq, String.toList_append, List.append_assoc]
    rw [(ihLeft namedLeft spacedLeft).grouped (lhs.wrapped op .left) _ rfl]
    simp [right]
  | call fn args ih =>
    obtain ⟨nonempty, spaced⟩ := everywhere_call.mp spaced
    obtain ⟨_, named⟩ := everywhere_call.mp named
    have scans (arg) (member : arg ∈ args) : Scans arg.text arg.tokens :=
      ih arg member (named arg member) (spaced arg member)
    simp only [text, tokens, texts_eq_map, tokensAll_eq_map]
    cases args with
    | nil => exact absurd rfl nonempty
    | cons first rest =>
      exact scans_nestCalls fn (fun arg member => scans arg (by simp [member]))
        (scans first (by simp))
  | select cond thn els ihCond ihThn ihEls =>
    obtain ⟨_, namedCond, namedThn, namedEls⟩ := everywhere_select.mp named
    obtain ⟨_, spacedCond, spacedThn, spacedEls⟩ := everywhere_select.mp spaced
    intro rest stops
    have last := ihEls namedEls spacedEls (')' :: rest) rfl
    have middle := ihThn namedThn spacedThn
      (' ' :: ':' :: ' ' :: (els.text.toList ++ ')' :: rest)) rfl
    have first := ihCond namedCond spacedCond
      (' ' :: '?' :: ' ' :: (thn.text.toList ++
        ' ' :: ':' :: ' ' :: (els.text.toList ++ ')' :: rest))) rfl
    simp [text, tokens, first, middle, last]

end Offload.Expr
