import Offload.ElemType
import Offload.Proofs.Text.Words

namespace Offload

namespace Scalar

/-- The spellings of the one type that has two of them. -/
def unsignedSpellings : List (List String) := [["unsigned"], ["unsigned", "int"]]

private theorem words_spelling (type : Scalar) :
    Text.words (" ".intercalate type.spelling) = type.spelling := by
  cases type <;> rfl

theorem ofWords?_spelling (type : Scalar) : ofWords? type.spelling = some type := by
  cases type <;> rfl

theorem ofWords?_eq_some_iff {words : List String} {type : Scalar} :
    ofWords? words = some type ↔
      words = type.spelling ∨ words = ["unsigned"] ∧ type = .uint32 := by
  constructor
  · intro found
    rw [ofWords?] at found
    by_cases short : words = ["unsigned"]
    · rw [if_pos short] at found
      exact .inr ⟨short, (Option.some.inj found).symm⟩
    · rw [if_neg short] at found
      have spelled := List.find?_some found
      exact .inl (of_decide_eq_true spelled).symm
  · rintro (rfl | ⟨rfl, rfl⟩)
    · exact ofWords?_spelling type
    · rfl

/-- Two lists of words spell one type if they are equal, or both spell the unsigned integers. -/
theorem same_or_unsigned {first second : List String} {type : Scalar}
    (spelled : ofWords? first = some type) (again : ofWords? second = some type) :
    first = second ∨ first ∈ unsignedSpellings ∧ second ∈ unsignedSpellings := by
  rcases ofWords?_eq_some_iff.mp spelled with rfl | ⟨rfl, rfl⟩
  · rcases ofWords?_eq_some_iff.mp again with same | ⟨rfl, rfl⟩
    · exact .inl same.symm
    · exact .inr (by decide)
  · rcases ofWords?_eq_some_iff.mp again with rfl | ⟨rfl, -⟩
    · exact .inr (by decide)
    · exact .inl rfl

theorem ofWords?_of_mem_unsigned {words : List String} (member : words ∈ unsignedSpellings) :
    ofWords? words = some .uint32 := by
  simp only [unsignedSpellings, List.mem_cons, List.not_mem_nil, or_false] at member
  rcases member with rfl | rfl
  · rfl
  · rfl

end Scalar

namespace ElemType

variable {source other : String}

theorem ofText_of_scalar {type : Scalar} (found : Scalar.ofWords? (Text.words source) = some type) :
    ofText source = .scalar type := by
  rw [ofText, found]

theorem ofText_of_named (missing : Scalar.ofWords? (Text.words source) = none) :
    ofText source = .named (" ".intercalate (Text.words source)) := by
  rw [ofText, missing]

theorem words_joined (source : String) :
    Text.words (" ".intercalate (Text.words source)) = Text.words source :=
  Text.words_intercalate fun _ => Text.isWord_of_mem_words

theorem ofText_congr (same : Text.words source = Text.words other) :
    ofText source = ofText other := by
  rw [ofText, ofText, same]

theorem ofText_text (source : String) : ofText (ofText source).text = ofText source := by
  cases found : Scalar.ofWords? (Text.words source) with
  | none =>
    rw [ofText_of_named found, text]
    exact (ofText_congr (words_joined source)).trans (ofText_of_named found)
  | some type =>
    rw [ofText_of_scalar found, text]
    apply ofText_of_scalar
    rw [type.words_spelling, type.ofWords?_spelling]

theorem ofText_eq_iff :
    ofText source = ofText other ↔
      Text.words source = Text.words other ∨
      Text.words source ∈ Scalar.unsignedSpellings ∧
        Text.words other ∈ Scalar.unsignedSpellings := by
  constructor
  · intro same
    cases first : Scalar.ofWords? (Text.words source) with
    | none =>
      cases second : Scalar.ofWords? (Text.words other) with
      | none =>
        rw [ofText_of_named first, ofText_of_named second] at same
        left
        rw [← words_joined source, ElemType.named.inj same, words_joined]
      | some type =>
        rw [ofText_of_named first, ofText_of_scalar second] at same
        cases same
    | some type =>
      cases second : Scalar.ofWords? (Text.words other) with
      | none =>
        rw [ofText_of_scalar first, ofText_of_named second] at same
        cases same
      | some otherType =>
        rw [ofText_of_scalar first, ofText_of_scalar second] at same
        cases same
        exact Scalar.same_or_unsigned first second
  · rintro (same | ⟨first, second⟩)
    · exact ofText_congr same
    · rw [ofText_of_scalar (Scalar.ofWords?_of_mem_unsigned first),
        ofText_of_scalar (Scalar.ofWords?_of_mem_unsigned second)]

theorem isDouble_iff : (ofText source).isDouble = true ↔ Text.words source = ["double"] := by
  rw [isDouble, decide_eq_true_iff]
  constructor
  · intro double
    cases found : Scalar.ofWords? (Text.words source) with
    | none =>
      rw [ofText_of_named found] at double
      cases double
    | some type =>
      rw [ofText_of_scalar found] at double
      cases double
      exact (Scalar.ofWords?_eq_some_iff.mp found).resolve_right fun short => nomatch short.2
  · intro words
    exact ofText_of_scalar (by rw [words]; rfl)

/-- The words of a text are what stands between its blanks. Reading a type keeps them, apart
from the second spelling of the unsigned integers, and reading its text again changes nothing. -/
theorem reading_keeps_words :
    (∀ source words, Text.words source = words ↔
      Text.Spells source.toList (words.map String.toList)) ∧
    (∀ source, ofText (ofText source).text = ofText source) ∧
    (∀ source other, ofText source = ofText other ↔
      Text.words source = Text.words other ∨
      Text.words source ∈ [["unsigned"], ["unsigned", "int"]] ∧
        Text.words other ∈ [["unsigned"], ["unsigned", "int"]]) ∧
    ∀ source, (ofText source).isDouble = true ↔ Text.words source = ["double"] :=
  ⟨fun _ _ => Text.words_eq_iff, ofText_text, fun _ _ => ofText_eq_iff, fun _ => isDouble_iff⟩

end ElemType

end Offload
