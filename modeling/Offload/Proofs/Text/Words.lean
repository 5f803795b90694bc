import Offload.Text

namespace Offload.Text

/-- A list of characters that can be a word. -/
structure IsWord (word : List Char) : Prop where
  nonempty : word ≠ []
  solid : ∀ c ∈ word, isBlank c = false

/-- The text consists of these words, with blanks before, after and between them. -/
inductive Spells : List Char → List (List Char) → Prop where
  | nil : Spells [] []
  | blank {c : Char} {rest : List Char} {words : List (List Char)} (blank : isBlank c = true)
      (tail : Spells rest words) : Spells (c :: rest) words
  | word {word rest : List Char} {words : List (List Char)} (isWord : IsWord word)
      (apart : startsWord rest = false) (tail : Spells rest words) :
      Spells (word ++ rest) (word :: words)

section Spells

variable {text rest word : List Char} {words : List (List Char)}

private theorem wordsOf_word (isWord : IsWord word) (apart : startsWord rest = false) :
    wordsOf (word ++ rest) = word :: wordsOf rest := by
  induction word with
  | nil => exact absurd rfl isWord.nonempty
  | cons c more ih =>
    have first := isWord.solid c List.mem_cons_self
    cases more with
    | nil => simp [wordsOf, first, apart]
    | cons d more =>
      have second := isWord.solid d (by simp)
      have others := ih ⟨List.cons_ne_nil _ _, fun e member => isWord.solid e (.tail _ member)⟩
      rw [List.cons_append, wordsOf, others]
      simp [first, second, startsWord, extendFirst]

/-- A text that begins inside a word takes one more character into that word. -/
theorem Spells.extend {c : Char} (spells : Spells rest words) (starts : startsWord rest = true)
    (solid : isBlank c = false) : Spells (c :: rest) (extendFirst c words) := by
  cases spells with
  | nil => cases starts
  | blank blank tail => simp [startsWord, blank] at starts
  | @word word rest words isWord apart tail =>
    refine .word ⟨List.cons_ne_nil c word, ?_⟩ apart tail
    simpa [solid] using isWord.solid

private theorem spells_wordsOf (text : List Char) : Spells text (wordsOf text) := by
  induction text with
  | nil => exact .nil
  | cons c rest ih =>
    rw [wordsOf]
    by_cases blank : isBlank c = true
    · rw [if_pos blank]
      exact .blank blank ih
    · have solid : isBlank c = false := by simpa using blank
      rw [if_neg blank]
      by_cases starts : startsWord rest = true
      · rw [if_pos starts]
        exact ih.extend starts solid
      · rw [if_neg starts]
        exact .word ⟨List.cons_ne_nil c [], by simpa using solid⟩ (by simpa using starts) ih

private theorem Spells.wordsOf_eq (spells : Spells text words) : wordsOf text = words := by
  induction spells with
  | nil => rfl
  | blank blank _ ih => rw [wordsOf, if_pos blank, ih]
  | word isWord apart _ ih => rw [wordsOf_word isWord apart, ih]

theorem spells_iff : Spells text words ↔ wordsOf text = words :=
  ⟨Spells.wordsOf_eq, fun same => same ▸ spells_wordsOf text⟩

theorem Spells.isWord (spells : Spells text words) : ∀ word ∈ words, IsWord word := by
  induction spells with
  | nil => simp
  | blank _ _ ih => exact ih
  | word isWord _ _ ih => exact List.forall_mem_cons.mpr ⟨isWord, ih⟩

private theorem spells_intercalate (areWords : ∀ word ∈ words, IsWord word) :
    Spells ([' '].intercalate words) words := by
  induction words with
  | nil => exact .nil
  | cons word rest ih =>
    obtain ⟨isWord, others⟩ := List.forall_mem_cons.mp areWords
    cases rest with
    | nil => simpa using Spells.word isWord rfl .nil
    | cons next more =>
      rw [List.intercalate_cons_cons, List.append_assoc]
      exact .word isWord rfl (.blank rfl (ih others))

end Spells

theorem words_eq_iff {text : String} {ws : List String} :
    words text = ws ↔ Spells text.toList (ws.map String.toList) := by
  rw [spells_iff, words]
  constructor
  · rintro rfl
    simp [Function.comp_def]
  · intro same
    simp [same, Function.comp_def]

/-- Words that are joined by spaces are the words of the joined text. -/
theorem words_intercalate {ws : List String} (areWords : ∀ word ∈ ws, IsWord word.toList) :
    words (" ".intercalate ws) = ws := by
  rw [words_eq_iff, String.toList_intercalate]
  exact spells_intercalate (by simpa using areWords)

theorem isWord_of_mem_words {text word : String} (member : word ∈ words text) :
    IsWord word.toList :=
  (words_eq_iff.mp rfl).isWord _ (List.mem_map_of_mem member)

end Offload.Text
