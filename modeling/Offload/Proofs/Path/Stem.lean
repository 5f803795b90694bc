import Offload.Proofs.Path.Parts

namespace Offload.Path

section Names

variable {stem extension : List Char}

theorem splitName_append (nonempty : stem ≠ []) (plain : '.' ∉ extension) :
    splitName (stem ++ '.' :: extension) = (stem, some extension) := by
  obtain ⟨more, last, rfl⟩ := stem.eq_nil_or_concat.resolve_left nonempty
  have inside := ne_of_mem_reverse plain
  have reversed : (more.concat last ++ '.' :: extension).reverse =
      extension.reverse ++ '.' :: last :: more.reverse := by simp
  rw [splitName, reversed, List.dropWhile_append_of_pos inside,
    List.takeWhile_append_of_pos inside]
  simp

/-- A name is all stem, or it is a stem with an extension that has no points. -/
theorem splitName_cases (name : List Char) :
    splitName name = (name, none) ∨
      ∃ stem extension, stem ≠ [] ∧ '.' ∉ extension ∧ name = stem ++ '.' :: extension := by
  have divided := List.takeWhile_append_dropWhile (p := (· ≠ '.')) (l := name.reverse)
  have point := List.head?_dropWhile_not (· ≠ '.') name.reverse
  match rest : name.reverse.dropWhile (· ≠ '.') with
  | [] | [_] =>
    left
    rw [splitName, rest]
  | c :: last :: more =>
    right
    rw [rest] at divided point
    obtain rfl : c = '.' := by simpa using point
    refine ⟨(last :: more).reverse, (name.reverse.takeWhile (· ≠ '.')).reverse, by simp, ?_, ?_⟩
    · rw [List.mem_reverse]
      intro inside
      simpa using List.all_eq_true.mp List.all_takeWhile '.' inside
    · simpa using congrArg List.reverse divided.symm

/-- What follows the stem of a name is nothing, or a point and an extension. -/
theorem exists_rest {name : List Char} (nonempty : name ≠ []) :
    (splitName name).1 ≠ [] ∧ ∃ rest, name = (splitName name).1 ++ rest ∧
      (rest = [] ∨ ∃ extension, '.' ∉ extension ∧ rest = '.' :: extension) := by
  rcases splitName_cases name with whole | ⟨stem, extension, filled, plain, rfl⟩
  · rw [whole]
    exact ⟨nonempty, [], (List.append_nil name).symm, .inl rfl⟩
  · rw [splitName_append filled plain]
    exact ⟨filled, _, rfl, .inr ⟨extension, plain, rfl⟩⟩

end Names

namespace Parts

variable {path lead name trail : List Char}

theorem cutAfterStem_eq (parts : Parts path lead name trail) (notUp : name ≠ ['.', '.']) :
    cutAfterStem path = lead ++ (splitName name).1 := by
  rw [cutAfterStem, stem?, parts.fileName?_eq, if_neg notUp, parts.splitLast_eq]
  simp

/-- As many characters as the extension has are cut off the end of the path. They may come
from the trail first, so a part of the extension may still stand behind the stem. -/
theorem take_extension {stem extension : List Char}
    (parts : Parts path lead (stem ++ '.' :: extension) trail) (nonempty : stem ≠ []) :
    Parts (path.take (path.length - extension.length)) lead
      (stem ++ '.' :: extension.take trail.length)
      (trail.take (trail.length - extension.length)) where
  joined := by
    have split : path = (lead ++ stem ++ ['.']) ++ (extension ++ trail) := by
      simp [parts.joined]
    have count : path.length - extension.length =
        (lead ++ stem ++ ['.']).length + trail.length := by
      rw [split]
      simp only [List.length_append]
      omega
    rw [count, split, List.take_length_add_append, List.take_append]
    simp
  leads := parts.leads
  counts := by
    have solid := parts.counts.solid
    refine ⟨by simp, by simp [List.append_eq_cons_iff, nonempty], ?_⟩
    simp only [List.mem_append, List.mem_cons, not_or] at solid ⊢
    exact ⟨solid.1, solid.2.1, fun inside => solid.2.2 (List.mem_of_mem_take inside)⟩
  idle := parts.idle.of_prefix (List.take_prefix _ _)

/-- Taking the extension off leaves the stem behind what leads to it, or no name at all. If
the stem is `.`, a trail must have made up for the extension. -/
theorem dropExtension_cases (parts : Parts path lead name trail) (notUp : name ≠ ['.', '.']) :
    fileName? (dropExtension path) = none ∨
      dropExtension path = lead ++ (splitName name).1 ∧
        ((splitName name).1 = ['.'] → trail ≠ []) := by
  have extension : extension? path = (splitName name).2 := by
    rw [extension?, parts.fileName?_eq, if_neg notUp]
    rfl
  rcases splitName_cases name with whole | ⟨stem, rest, nonempty, plain, rfl⟩
  · rw [dropExtension, extension, whole]
    refine .inr ⟨by rw [parts.cutAfterStem_eq notUp, whole], ?_⟩
    exact fun here => absurd here parts.counts.notHere
  · rw [dropExtension, extension, splitName_append nonempty plain]
    dsimp only
    have cut := parts.take_extension nonempty
    by_cases up : stem ++ '.' :: rest.take trail.length = ['.', '.']
    · -- Nothing but `..` is left of the name.
      have unnamed := cut.fileName?_eq
      rw [if_pos up] at unnamed
      rw [cutAfterStem, stem?, unnamed]
      exact .inl unnamed
    · have shorter : '.' ∉ rest.take trail.length :=
        fun inside => plain (List.mem_of_mem_take inside)
      refine .inr ⟨by rw [cut.cutAfterStem_eq up, splitName_append nonempty shorter], ?_⟩
      rintro rfl rfl
      exact up rfl

/-- A suffix goes to the end of the name, in the directory of the path. -/
theorem addSuffix?_eq (parts : Parts path lead name trail) (suffix : List Char) :
    addSuffix? path suffix = if name = ['.', '.'] then none else
      some (enter (trimRev lead.reverse) (name ++ suffix)) := by
  rw [addSuffix?, parts.fileName?_eq, parts.directoryRev_eq]
  by_cases up : name = ['.', '.']
  · simp [up]
  · simp [up]

end Parts

theorem dropExtension_of_unnamed {path : List Char} (unnamed : fileName? path = none) :
    dropExtension path = path := by
  simp [dropExtension, extension?, cutAfterStem, stem?, unnamed]

/-- A name that was put into a directory is found there again. -/
theorem exists_parts_enter (dir : List Char) {name : List Char} (counts : Counts name) :
    ∃ lead, Parts (enter (trimRev dir) name) lead name [] ∧ trimRev lead.reverse = trimRev dir := by
  have again := trimRev_trimRev dir
  cases trimmed : trimRev dir with
  | nil => exact ⟨[], ⟨by simp [enter], .inl rfl, counts, .nil⟩, rfl⟩
  | cons c rest =>
    rw [trimmed] at again
    by_cases slash : c = '/'
    · subst slash
      refine ⟨('/' :: rest).reverse,
        ⟨by simp [enter], .inr ⟨rest.reverse, by simp⟩, counts, .nil⟩, ?_⟩
      rw [List.reverse_reverse, again]
    · refine ⟨(c :: rest).reverse ++ ['/'],
        ⟨by simp [enter, slash], .inr ⟨_, rfl⟩, counts, .nil⟩, ?_⟩
      rw [List.reverse_append, List.reverse_reverse]
      exact (trimRev_slash (by simp)).trans again

end Offload.Path
