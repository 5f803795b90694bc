import Mathlib.Data.List.Forall2
import Offload.Text

namespace Offload.Text

/-- What stands between the line feeds of a text. A text that ends in a line feed has an
empty last row, and the empty text has one empty row. -/
def rows (text : String) : List (List Char) := text.toList.splitOn '\n'

/-- A text without a line feed. -/
def OneRow (text : String) : Prop := '\n' ∉ text.toList

instance : DecidablePred OneRow := fun text => inferInstanceAs (Decidable ('\n' ∉ text.toList))

section OneRow

@[simp] theorem oneRow_append {first second : String} :
    OneRow (first ++ second) ↔ OneRow first ∧ OneRow second := by
  simp [OneRow, not_or]

theorem OneRow.join {parts : List String} (oneRow : ∀ part ∈ parts, OneRow part) :
    OneRow (String.join parts) := by
  simpa [OneRow, String.toList_join] using oneRow

theorem foldl_append (start : String) (parts : List String) :
    parts.foldl (· ++ ·) start = start ++ String.join parts := by
  apply String.toList_injective
  induction parts generalizing start with
  | nil => simp
  | cons part rest ih => simp [ih, String.append_assoc]

theorem OneRow.intercalate {separator : String} {parts : List String} (apart : OneRow separator)
    (oneRow : ∀ part ∈ parts, OneRow part) : OneRow (separator.intercalate parts) := by
  induction parts with
  | nil => simp [OneRow]
  | cons part rest ih =>
    have ⟨first, others⟩ := List.forall_mem_cons.mp oneRow
    cases rest with
    | nil => simpa using first
    | cons next more =>
      rw [String.intercalate_cons_cons]
      simp [first, apart, ih others]

@[simp] theorem oneRow_repr (n : Nat) : OneRow n.repr := by
  intro member
  rw [Nat.toList_repr] at member
  have digit : '\n'.isDigit = true := Nat.isDigit_of_mem_toDigits (by decide) (by decide) member
  cases digit

@[simp] theorem oneRow_int (n : Int) : OneRow n.repr := by
  cases n with
  | ofNat m => exact oneRow_repr m
  | negSucc m => exact oneRow_append.mpr ⟨by decide, oneRow_repr (m + 1)⟩

private theorem newline_notMem_linesOf {text : List Char} : ∀ line ∈ linesOf text, '\n' ∉ line := by
  fun_induction linesOf text with
  | case1 => simp
  | case2 rest ih => simpa using ih
  | case3 rest ih => simpa using ih
  | case4 c rest feed _ ih =>
    have other : '\n' ≠ c := fun same => feed same.symm
    cases begun : linesOf rest with
    | nil => simpa [extendFirst] using other
    | cons line more =>
      rw [begun] at ih
      simpa [extendFirst, other] using ih

theorem oneRow_of_mem_lines {text line : String} (member : line ∈ lines text) : OneRow line := by
  obtain ⟨chars, inside, rfl⟩ := List.mem_map.mp member
  simpa [OneRow] using newline_notMem_linesOf chars inside

end OneRow

theorem rows_of_oneRow {text : String} (oneRow : OneRow text) : rows text = [text.toList] :=
  List.splitOn_eq_singleton oneRow

theorem rows_feed (first second : String) :
    rows (first ++ ("\n" ++ second)) = rows first ++ rows second := by
  simp [rows, List.splitOn_append_cons_self]

/-- The row stands that many columns further to the right; an empty row may stay empty. -/
def RowIndented (n : Nat) (row moved : List Char) : Prop :=
  moved = List.replicate n ' ' ++ row ∨ row = [] ∧ moved = []

/-- The second text has as many rows as the first, each that many columns further to the
right unless both are empty. -/
def Indented (n : Nat) (text moved : String) : Prop :=
  List.Forall₂ (RowIndented n) (rows text) (rows moved)

namespace Indented

variable {n : Nat}

theorem empty : Indented n "" "" := .cons (.inr ⟨rfl, rfl⟩) .nil

theorem line (k : Nat) {text : String} (oneRow : OneRow text) :
    Indented n (String.ofList (List.replicate k ' ') ++ text)
      (String.ofList (List.replicate (k + n) ' ') ++ text) := by
  have margin (k : Nat) : OneRow (String.ofList (List.replicate k ' ')) := by simp [OneRow]
  rw [Indented, rows_of_oneRow (oneRow_append.mpr ⟨margin k, oneRow⟩),
    rows_of_oneRow (oneRow_append.mpr ⟨margin (k + n), oneRow⟩)]
  refine .cons (.inl ?_) .nil
  rw [Nat.add_comm k n]
  simp [← List.append_assoc]

theorem feed {first second firstMoved secondMoved : String} (above : Indented n first firstMoved)
    (below : Indented n second secondMoved) :
    Indented n (first ++ ("\n" ++ second)) (firstMoved ++ ("\n" ++ secondMoved)) := by
  rw [Indented, rows_feed, rows_feed]
  exact List.rel_append above below

theorem intercalate {texts moved : List String} (each : List.Forall₂ (Indented n) texts moved) :
    Indented n ("\n".intercalate texts) ("\n".intercalate moved) := by
  induction each with
  | nil => exact empty
  | cons first rest ih =>
    cases rest with
    | nil => simpa using first
    | cons =>
      rw [String.intercalate_cons_cons, String.intercalate_cons_cons, String.append_assoc,
        String.append_assoc]
      exact first.feed ih

end Indented

end Offload.Text
