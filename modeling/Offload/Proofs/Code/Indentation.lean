import Offload.Proofs.Code.Execution
import Offload.Proofs.Code.Strings

namespace Offload.Code

open Text (OneRow Indented)

namespace Layout

/-- The layout with every line that many columns further to the right. -/
def indented (layout : Layout) (n : Nat) : Layout := { layout with indent := layout.indent + n }

private theorem deeper_indented (layout : Layout) (n : Nat) :
    (layout.indented n).deeper = layout.deeper.indented n := by
  simp [deeper, indented, Nat.add_right_comm]

end Layout

section Braced

variable {isEmpty : Bool} {body : Printer (List String)} {layout : Layout}

theorem braced_layout {margin : String} (kept : (body layout.deeper).2 = layout.deeper) :
    (braced margin isEmpty body layout).2 = layout := by
  cases isEmpty with
  | true => rfl
  | false => simp [braced, kept]

/-- What stands in front of a body begins at the margin and ends in the opening brace. -/
theorem indented_opening (n : Nat) (layout : Layout) (parts : List String)
    (oneRow : ∀ part ∈ parts, OneRow part) :
    Indented n (parts.foldl (· ++ ·) layout.margin ++ "\x7b")
      (parts.foldl (· ++ ·) (layout.indented n).margin ++ "\x7b") := by
  rw [Text.foldl_append, Text.foldl_append, String.append_assoc, String.append_assoc]
  exact .line layout.indent (Text.oneRow_append.mpr ⟨.join oneRow, by decide⟩)

variable {n : Nat} {before moved : String}

theorem indented_braced_append {after : String}
    (opened : Indented n (before ++ "\x7b") (moved ++ "\x7b"))
    (inside : List.Forall₂ (Indented n) (body layout.deeper).1 (body (layout.deeper.indented n)).1)
    (oneRow : OneRow after) :
    Indented n (before ++ (braced layout.margin isEmpty body layout).1 ++ after)
      (moved ++ (braced (layout.indented n).margin isEmpty body (layout.indented n)).1 ++
        after) := by
  have feed : "\x7b\n" = "\x7b" ++ "\n" := rfl
  have closed : Indented n (layout.margin ++ ("\x7d" ++ after))
      ((layout.indented n).margin ++ ("\x7d" ++ after)) :=
    .line layout.indent (by simp +decide [oneRow])
  cases isEmpty with
  | true => simpa only [braced, if_true, feed, String.append_assoc] using opened.feed closed
  | false =>
    simpa only [braced, Bool.false_eq_true, if_false, Layout.deeper_indented, feed,
      String.append_assoc] using (opened.feed (.intercalate inside)).feed closed

theorem indented_braced (opened : Indented n (before ++ "\x7b") (moved ++ "\x7b"))
    (inside : List.Forall₂ (Indented n) (body layout.deeper).1
      (body (layout.deeper.indented n)).1) :
    Indented n (before ++ (braced layout.margin isEmpty body layout).1)
      (moved ++ (braced (layout.indented n).margin isEmpty body (layout.indented n)).1) := by
  simpa only [String.append_empty] using
    indented_braced_append opened inside (by decide : OneRow "")

end Braced

namespace Stmt

/-- Induction over statements, with the hypothesis for each statement of a body. -/
theorem induct {motive : Stmt → Prop}
    (simple : ∀ stmt, stmt.isSimple = true → motive stmt)
    (loop : ∀ type iter init cond inc body, (∀ stmt ∈ body, motive stmt) →
      motive (loop type iter init cond inc body))
    (branch : ∀ cond thn els, (∀ stmt ∈ thn, motive stmt) → (∀ stmt ∈ els, motive stmt) →
      motive (branch cond thn els))
    (scope : ∀ body, (∀ stmt ∈ body, motive stmt) → motive (scope body))
    (stmt : Stmt) : motive stmt :=
  @Stmt.rec motive (fun body => ∀ stmt ∈ body, motive stmt)
    (fun _ _ => simple _ rfl) (fun _ _ => simple _ rfl) (fun _ _ _ _ => simple _ rfl)
    (fun _ _ => simple _ rfl) loop branch scope (fun _ => simple _ rfl) (simple _ rfl)
    (fun _ => simple _ rfl) (fun _ _ _ _ => simple _ rfl) (simple _ rfl)
    (fun _ member => nomatch member)
    (fun _ _ head tail => List.forall_mem_cons.mpr ⟨head, tail⟩) stmt

private theorem printAll_of_layout {stmts : List Stmt}
    (kept : ∀ stmt ∈ stmts, ∀ layout, (stmt.print layout).2 = layout) (layout : Layout) :
    printAll stmts layout = (stmts.map fun stmt => (stmt.print layout).1, layout) := by
  induction stmts with
  | nil => rfl
  | cons stmt rest ih =>
    obtain ⟨first, others⟩ := List.forall_mem_cons.mp kept
    simp [printAll, first, ih others]

theorem print_layout (stmt : Stmt) (layout : Layout) : (stmt.print layout).2 = layout := by
  induction stmt using induct generalizing layout with
  | simple stmt plain =>
    cases stmt with
    | loop | branch | scope => cases plain
    | _ => rw [print]
  | loop type iter init cond inc body inside =>
    simp only [print]
    exact braced_layout (by rw [printAll_of_layout inside])
  | branch cond thn els first second =>
    have kept : (braced layout.margin thn.isEmpty (printAll thn) layout).2 = layout :=
      braced_layout (by rw [printAll_of_layout first])
    rw [print]
    split
    · exact kept
    · rw [kept]
      exact braced_layout (by rw [printAll_of_layout second])
  | scope body inside =>
    simp only [print]
    exact braced_layout (by rw [printAll_of_layout inside])

theorem printAll_eq (stmts : List Stmt) (layout : Layout) :
    printAll stmts layout = (stmts.map fun stmt => (stmt.print layout).1, layout) :=
  printAll_of_layout (fun stmt _ => stmt.print_layout) layout

/-- The statement prints lines that all begin at the margin. -/
def PrintsLines (stmt : Stmt) : Prop :=
  ∃ lines : List String, (∀ line ∈ lines, OneRow line) ∧ ∀ layout : Layout,
    (stmt.print layout).1 = "\n".intercalate (lines.map (layout.margin ++ ·))

private theorem printsLines_of_parts {stmt : Stmt} (parts : List String)
    (oneRow : ∀ part ∈ parts, OneRow part)
    (printed : ∀ layout, (stmt.print layout).1 = parts.foldl (· ++ ·) layout.margin) :
    stmt.PrintsLines := by
  refine ⟨[String.join parts], by simpa using OneRow.join oneRow, fun layout => ?_⟩
  simp [printed, Text.foldl_append]

private theorem printsLines_of_isSimple {stmt : Stmt} (plain : stmt.isSimple = true)
    (strings : ∀ s ∈ stmt.strings, OneRow s) : stmt.PrintsLines := by
  cases stmt with
  | loop | branch | scope => cases plain
  -- Verbatim text is the one that can have several lines.
  | verbatim text =>
    exact ⟨Text.lines text, fun _ => Text.oneRow_of_mem_lines, fun _ => by rw [print]⟩
  | blank => exact ⟨[], by simp, fun _ => by rw [print]; rfl⟩
  | declare type name =>
    refine printsLines_of_parts [type.declarator name, ";"] ?_ fun _ => by rw [print]; rfl
    simpa +decide using Ty.oneRow_declarator strings
  | define type defs =>
    obtain ⟨typed, inner⟩ := List.forall_mem_append.mp strings
    rw [List.forall_mem_flatMap] at inner
    refine printsLines_of_parts [type.text, " ",
      ", ".intercalate (defs.map fun d => d.1 ++ " = " ++ d.2.text), ";"] ?_
      fun _ => by rw [print]; rfl
    have each : ∀ d ∈ defs, OneRow (d.1 ++ " = " ++ d.2.text) := by
      intro d member
      obtain ⟨named, valued⟩ := List.forall_mem_cons.mp (inner d member)
      simp +decide [named, d.2.oneRow_text valued]
    have between := OneRow.intercalate (by decide : OneRow ", ") (List.forall_mem_map.mpr each)
    simpa +decide [Ty.oneRow_text typed] using between
  | defineArray type name length elems =>
    obtain ⟨typed, inner⟩ := List.forall_mem_append.mp strings
    obtain ⟨named, valued⟩ := List.forall_mem_cons.mp inner
    refine printsLines_of_parts [type.text, " ", name, "[", toString length, "] = \x7b",
      ", ".intercalate (Term.texts elems), "\x7d;"] ?_ fun _ => by rw [print]; rfl
    have between := OneRow.intercalate (by decide : OneRow ", ") (Term.oneRow_texts elems valued)
    simp +decide [Ty.oneRow_text typed, named, between]
  | assign target value =>
    obtain ⟨first, second⟩ := List.forall_mem_append.mp strings
    refine printsLines_of_parts [target.text, " = ", value.text, ";"] ?_
      fun _ => by rw [print]; rfl
    simp +decide [target.oneRow_text first, value.oneRow_text second]
  | check call =>
    refine printsLines_of_parts ["openclCheckReturn(", call.text, ");"] ?_
      fun _ => by rw [print]; rfl
    simp +decide [call.oneRow_text strings]
  | staging memory elem name dims =>
    obtain ⟨typed, named⟩ := List.forall_mem_append.mp strings
    refine printsLines_of_parts [memory.text, elem.text, " ", name,
      String.join (dims.map fun d => "[" ++ toString d ++ "]"), ";"] ?_
      fun _ => by rw [print]; rfl
    have each : ∀ d ∈ dims, OneRow ("[" ++ toString d ++ "]") := fun d _ => by simp +decide
    have extents := OneRow.join (List.forall_mem_map.mpr each)
    simpa +decide [memory.oneRow_text, Ty.oneRow_text typed, named name] using extents
  | barrier =>
    exact printsLines_of_parts ["barrier(CLK_LOCAL_MEM_FENCE | CLK_GLOBAL_MEM_FENCE);"]
      (by decide) fun _ => by rw [print]; rfl

theorem PrintsLines.indented {n : Nat} {stmt : Stmt} (prints : stmt.PrintsLines)
    (layout : Layout) :
    Indented n (stmt.print layout).1 (stmt.print (layout.indented n)).1 := by
  obtain ⟨lines, oneRow, printed⟩ := prints
  rw [printed, printed]
  apply Indented.intercalate
  rw [List.forall₂_map_left_iff, List.forall₂_map_right_iff, List.forall₂_same]
  exact fun line member => .line layout.indent (oneRow line member)

private theorem forall₂_printAll {n : Nat} {stmts : List Stmt} {layout : Layout}
    (each : ∀ stmt ∈ stmts,
      Indented n (stmt.print layout).1 (stmt.print (layout.indented n)).1) :
    List.Forall₂ (Indented n) (printAll stmts layout).1
      (printAll stmts (layout.indented n)).1 := by
  rw [printAll_eq, printAll_eq, List.forall₂_map_left_iff, List.forall₂_map_right_iff,
    List.forall₂_same]
  exact each

theorem print_indented (n : Nat) {stmt : Stmt} (strings : ∀ s ∈ stmt.strings, OneRow s)
    (layout : Layout) :
    Indented n (stmt.print layout).1 (stmt.print (layout.indented n)).1 := by
  induction stmt using induct generalizing layout with
  | simple stmt plain => exact (printsLines_of_isSimple plain strings).indented layout
  | loop type iter init cond inc body ih =>
    obtain ⟨typed, rest⟩ := List.forall_mem_append.mp strings
    obtain ⟨named, rest⟩ := List.forall_mem_cons.mp rest
    obtain ⟨steering, inner⟩ := List.forall_mem_append.mp rest
    obtain ⟨limits, increment⟩ := List.forall_mem_append.mp steering
    obtain ⟨start, condition⟩ := List.forall_mem_append.mp limits
    rw [forall_mem_stringsOf] at inner
    have opened := indented_opening n layout ["for (", type.text, " ", iter, " = ", init.text,
      "; ", cond.text, "; ", iter, " += ", inc.text, ") "] (by
        simp +decide [Ty.oneRow_text typed, named, Expr.oneRow_text start,
          Expr.oneRow_text condition, Expr.oneRow_text increment])
    simp only [print]
    exact indented_braced opened (forall₂_printAll fun stmt member =>
      ih stmt member (inner stmt member) _)
  | branch cond thn els ihThn ihEls =>
    obtain ⟨rest, second⟩ := List.forall_mem_append.mp strings
    obtain ⟨condition, first⟩ := List.forall_mem_append.mp rest
    rw [forall_mem_stringsOf] at first second
    have opened := indented_opening n layout ["if (", cond.text, ") "] (by
      simp +decide [Expr.oneRow_text condition])
    have positive := forall₂_printAll fun stmt member =>
      ihThn stmt member (first stmt member) layout.deeper
    have kept (layout : Layout) :
        (braced layout.margin thn.isEmpty (printAll thn) layout).2 = layout :=
      braced_layout (by rw [printAll_eq])
    simp only [print, kept]
    split
    · exact indented_braced opened positive
    · refine indented_braced ?_ (forall₂_printAll fun stmt member =>
        ihEls stmt member (second stmt member) _)
      -- The brace that closes the first side shares its row with the one that opens the second.
      simpa only [List.foldl_cons, List.foldl_nil, String.append_assoc] using
        indented_braced_append opened positive (by decide : OneRow (" else " ++ "\x7b"))
  | scope body ih =>
    rw [Stmt.strings, forall_mem_stringsOf] at strings
    simp only [print]
    exact indented_braced (indented_opening n layout [] (by simp))
      (forall₂_printAll fun stmt member => ih stmt member (strings stmt member) _)

end Stmt

namespace Item

theorem print_layout (item : Item) (layout : Layout) : (item.print layout).2 = layout := by
  have kept (body : List Stmt) :
      (braced "" body.isEmpty (Stmt.printAll body) layout).2 = layout :=
    braced_layout (by rw [Stmt.printAll_eq])
  cases item with
  | defineFn isKernel returns name params body => exact kept body
  | scope body => exact kept body
  | _ => rfl

theorem printAll_eq (items : List Item) (layout : Layout) :
    printAll items layout = (items.map fun item => (item.print layout).1, layout) := by
  induction items with
  | nil => rfl
  | cons item rest ih => simp [printAll, print_layout, ih]

end Item

/-- Printing gives back the layout that it was given. Where names and texts have no line
feed in them, verbatim text apart, a statement printed further to the right has the same
rows moved to the right, and so have statements one below the other. The items of a file
are therefore printed each on its own. -/
theorem printing_indents (stmt : Stmt) (stmts : List Stmt) (file : File) (layout : Layout)
    (n : Nat) :
    (stmt.print layout).2 = layout ∧ (Stmt.printLines stmts layout).2 = layout ∧
      ((∀ s ∈ stmt.strings, OneRow s) →
        Indented n (stmt.print layout).1 (stmt.print (layout.indented n)).1) ∧
      ((∀ s ∈ Stmt.stringsOf stmts, OneRow s) →
        Indented n (Stmt.printLines stmts layout).1
          (Stmt.printLines stmts (layout.indented n)).1) ∧
      File.print file layout =
        ("\n".intercalate (file.map fun item => (item.print layout).1), layout) := by
  refine ⟨stmt.print_layout layout, ?_, fun strings => Stmt.print_indented n strings layout, ?_,
    ?_⟩
  · rw [Stmt.printLines, Stmt.printAll_eq]
  · intro strings
    rw [Stmt.forall_mem_stringsOf] at strings
    exact .intercalate (Stmt.forall₂_printAll fun stmt member =>
      Stmt.print_indented n (strings stmt member) layout)
  · rw [File.print, Item.printAll_eq]

/-- Code nested in each of the ways that the printer treats apart: a branch with two sides,
an empty body, a blank line and verbatim text with an empty line in it. -/
def Sample.sweep : Stmt :=
  .loop .int "i" (.lit 0) (.bin .lt (.var "i") (.var "N")) (.lit 1)
    [.branch (.bin .eq (.var "i") (.lit 0))
      [.verbatim "first();\n\nsecond();", .blank]
      [.scope [], .assign (.access "A" [.var "i"]) (.call "next" [.var "i"])]]

theorem sweep_indents :
    ((∀ s ∈ Sample.sweep.strings, OneRow s) ∧
      Indented 3 (Sample.sweep.print { indent := 1 }).1 (Sample.sweep.print { indent := 4 }).1) ∧
      (∀ s ∈ Stmt.stringsOf [Sample.sweep, .barrier], OneRow s) ∧
        Indented 3 (Stmt.printLines [Sample.sweep, .barrier] { indent := 1 }).1
          (Stmt.printLines [Sample.sweep, .barrier] { indent := 4 }).1 := by
  have one : ∀ s ∈ Sample.sweep.strings, OneRow s := by decide
  have both : ∀ s ∈ Stmt.stringsOf [Sample.sweep, .barrier], OneRow s := by decide
  obtain ⟨_, _, moved, movedBoth, _⟩ :=
    printing_indents Sample.sweep [Sample.sweep, .barrier] [] { indent := 1 } 3
  exact ⟨⟨one, moved one⟩, both, movedBoth both⟩

end Offload.Code
