import Offload.FileTree
import Offload.Proofs.Path.Stem

namespace Offload.FileTree

open Offload.Path (Idle Leads Parts)

/-- The place that one more segment leads to. -/
def visit (place : List String) (segment : String) : List String :=
  if segment = "" ∨ segment = "." then place
  else if segment = ".." then place.tail
  else segment :: place

theorem visit_name {segment : String} (place : List String) (nonempty : segment ≠ "")
    (counts : segment ≠ ".") (notUp : segment ≠ "..") :
    visit place segment = segment :: place := by
  simp [visit, nonempty, counts, notUp]

theorem ofList_ne {text : List Char} {word : String} (different : text ≠ word.toList) :
    String.ofList text ≠ word := by
  rintro rfl
  exact different String.toList_ofList.symm

private theorem segmentsOf_eq_splitOn (path : List Char) : segmentsOf path = path.splitOn '/' := by
  induction path with
  | nil => rfl
  | cons c rest ih =>
    rw [List.splitOn_cons_eq_if_modifyHead, ← ih]
    by_cases slash : c = '/'
    · simp [slash, segmentsOf]
    · cases segments : segmentsOf rest with
      | nil => exact absurd (ih ▸ segments) (List.splitOn_ne_nil _ _)
      | cons first more => simp [segments, segmentsOf, slash]

theorem placeOf_eq_foldl (path : List Char) :
    placeOf (.ofList path) = ((path.splitOn '/').map String.ofList).foldl visit [] := by
  rw [placeOf, String.toList_ofList, segmentsOf_eq_splitOn]
  rfl

theorem placeOf_slash (front rest : List Char) :
    placeOf (.ofList (front ++ '/' :: rest)) =
      ((rest.splitOn '/').map String.ofList).foldl visit (placeOf (.ofList front)) := by
  simp only [placeOf_eq_foldl, List.splitOn_append_cons_self, List.map_append, List.foldl_append]

/-- A segment takes up where what leads to it ends. -/
theorem placeOf_leads {lead segment : List Char} (leads : Leads lead) (solid : '/' ∉ segment) :
    placeOf (.ofList (lead ++ segment)) = visit (placeOf (.ofList lead)) (.ofList segment) := by
  have single := List.splitOn_eq_singleton solid
  rcases leads with rfl | ⟨front, rfl⟩
  · rw [List.nil_append, placeOf_eq_foldl, single]
    rfl
  · rw [List.append_assoc, List.singleton_append, placeOf_slash, placeOf_slash, single]
    rfl

theorem placeOf_concat_slash (path : List Char) :
    placeOf (.ofList (path ++ ['/'])) = placeOf (.ofList path) :=
  placeOf_slash path []

theorem placeOf_concat_point (path : List Char) :
    placeOf (.ofList (path ++ ['/', '.'])) = placeOf (.ofList path) :=
  placeOf_slash path ['.']

private theorem placeOf_idle {trail : List Char} (idle : Idle trail) (path : List Char) :
    placeOf (.ofList (path ++ trail)) = placeOf (.ofList path) := by
  induction idle with
  | nil => rw [List.append_nil]
  | slash idle ih => rw [← List.append_assoc, placeOf_concat_slash, ih]
  | point idle ih => rw [← List.append_assoc, placeOf_concat_point, ih]

theorem placeOf_trimRev (path : List Char) :
    placeOf (.ofList (Path.trimRev path).reverse) = placeOf (.ofList path.reverse) := by
  fun_induction Path.trimRev path with
  | case1 rest empty => rw [List.isEmpty_iff.mp empty]
  | case2 rest nonempty ih => rw [ih, List.reverse_cons, placeOf_concat_slash]
  | case3 rest ih =>
    rw [ih, List.reverse_cons, List.reverse_cons, List.reverse_cons, List.append_assoc]
    exact (placeOf_concat_slash _).trans (placeOf_concat_point _).symm
  | case4 path => rfl

theorem placeOf_parts {path lead name trail : List Char} (parts : Parts path lead name trail)
    (notUp : name ≠ ['.', '.']) :
    placeOf (.ofList path) = .ofList name :: placeOf (.ofList lead) := by
  rw [parts.joined, placeOf_idle parts.idle, placeOf_leads parts.leads parts.counts.solid]
  exact visit_name _ (ofList_ne parts.counts.nonempty) (ofList_ne parts.counts.notHere)
    (ofList_ne notUp)

/-- A name that is put into a directory has its place there. -/
theorem placeOf_enter (dir : List Char) {name : List Char} (counts : Path.Counts name)
    (notUp : name ≠ ['.', '.']) :
    placeOf (.ofList (Path.enter (Path.trimRev dir) name)) =
      .ofList name :: placeOf (.ofList dir.reverse) := by
  obtain ⟨lead, parts, same⟩ := Path.exists_parts_enter dir counts
  rw [placeOf_parts parts notUp, ← lead.reverse_reverse, ← placeOf_trimRev, same, placeOf_trimRev]

section Walk

variable {tree : FileTree}

theorem walk_eq_foldl {route place dir : List String} (walked : tree.walk place route = .ok dir) :
    dir = route.foldl visit place := by
  fun_induction walk tree place route with
  | case1 place => exact (Except.ok.inj walked).symm
  | case2 place segment rest idle ih =>
    rw [List.foldl_cons, visit, if_pos idle]
    exact ih walked
  | case3 place rest counts ih =>
    rw [List.foldl_cons, visit, if_neg counts, if_pos rfl]
    exact ih walked
  | case4 | case5 | case6 => cases walked
  | case7 place segment rest counts notUp _ _ ih =>
    rw [List.foldl_cons, visit, if_neg counts, if_neg notUp]
    exact ih walked

/-- A path to a file leads to its last segment, behind the segments of its route. -/
theorem Address.placeOf_eq {path : String} {address : Address}
    (taken : Address.ofPath path = .ok address) (plain : address.isDots = false)
    (file : address.slash = false) :
    placeOf path = address.last :: address.route.foldl visit [] := by
  have folded : placeOf path =
      ((segmentsOf path.toList).map String.ofList).reverse.reverse.foldl visit [] := by
    rw [List.reverse_reverse]
    rfl
  rw [ofPath] at taken
  generalize ((segmentsOf path.toList).map String.ofList).reverse = segments at taken folded
  split at taken
  · cases taken
  split at taken
  · cases taken
  split at taken
  · cases taken
  cases segments with
  | nil =>
    cases taken
    cases file
  | cons last before =>
    by_cases empty : last = ""
    · -- A slash at the end makes the path no path to a file.
      subst empty
      split at taken
      · cases taken
        cases file
      · cases taken
        simp at file
    · rw [List.dropWhile_cons_of_neg (by simpa using empty)] at taken
      cases taken
      simp only [isDots, Bool.or_eq_false_iff, decide_eq_false_iff_not] at plain
      rw [folded, List.reverse_cons, List.foldl_append]
      exact visit_name _ empty plain.1.2 plain.2

end Walk

section Steps

/-- A run passes a check that could have stopped it. -/
theorem guard_eq_ok {α : Type} {stops : Prop} [Decidable stops] {cause : FileError}
    {rest : Unit → Except FileError α} {a : α} :
    (if stops then throw cause >>= rest else rest ()) = .ok a ↔ ¬stops ∧ rest () = .ok a := by
  by_cases stopped : stops
  · simp [stopped, throw, throwThe, MonadExceptOf.throw, bind, Except.bind]
  · simp [stopped]

variable {tree next : FileTree}

/-- A stored text stands at the place of its path. -/
theorem eq_of_store {path text : String} (stored : tree.store path text = .ok next) :
    next = tree.insert (placeOf path) (.file text) := by
  rw [store] at stored
  obtain ⟨address, taken, walking⟩ := Fault.bind_eq_ok.mp stored
  obtain ⟨dir, walked, checking⟩ := Fault.bind_eq_ok.mp walking
  obtain ⟨file, measuring⟩ := guard_eq_ok.mp checking
  obtain ⟨_, looking⟩ := guard_eq_ok.mp measuring
  obtain ⟨_, inserting⟩ := guard_eq_ok.mp looking
  simp only [Bool.or_eq_true, not_or, Bool.not_eq_true] at file
  rw [address.placeOf_eq taken file.1 file.2, ← walk_eq_foldl walked]
  exact (Except.ok.inj inserting).symm

/-- A moved file leaves the place of its old path for that of the new one. -/
theorem eq_of_rename {source target : String} (moved : tree.rename source target = .ok next) :
    ∃ text, next = (tree.erase (placeOf source)).insert (placeOf target) (.file text) := by
  rw [rename] at moved
  obtain ⟨first, takenFirst, taking⟩ := Fault.bind_eq_ok.mp moved
  obtain ⟨second, takenSecond, walking⟩ := Fault.bind_eq_ok.mp taking
  obtain ⟨firstDir, walkedFirst, further⟩ := Fault.bind_eq_ok.mp walking
  obtain ⟨secondDir, walkedSecond, checking⟩ := Fault.bind_eq_ok.mp further
  obtain ⟨plain, measuring⟩ := guard_eq_ok.mp checking
  obtain ⟨_, looking⟩ := guard_eq_ok.mp measuring
  dsimp only at looking
  split at looking
  · cases looking
  · cases looking
  · rename_i text _
    obtain ⟨_, checking⟩ := guard_eq_ok.mp looking
    obtain ⟨files, looking⟩ := guard_eq_ok.mp checking
    obtain ⟨_, inserting⟩ := guard_eq_ok.mp looking
    simp only [Bool.or_eq_true, not_or, Bool.not_eq_true] at plain files
    rw [first.placeOf_eq takenFirst plain.1 files.1, second.placeOf_eq takenSecond plain.2 files.2,
      ← walk_eq_foldl walkedFirst, ← walk_eq_foldl walkedSecond]
    exact ⟨text, (Except.ok.inj inserting).symm⟩

end Steps

section Frame

variable {tree next : FileTree} {place other : List String}

theorem find?_erase (apart : other ≠ place) :
    (tree.erase place).find? other = tree.find? other := by
  cases other with
  | nil => rfl
  | cons name parents =>
    simp only [find?, erase, List.find?_filter]
    congr 2
    funext entry
    by_cases found : entry.1 = name :: parents
    · simp [found, apart]
    · simp [found]

theorem find?_insert (entry : Entry) (apart : other ≠ place) :
    (tree.insert place entry).find? other = tree.find? other := by
  cases other with
  | nil => rfl
  | cons name parents =>
    refine Eq.trans ?_ (find?_erase apart)
    simp [find?, insert, Ne.symm apart]

theorem text?_of_store {path text elsewhere : String} (stored : tree.store path text = .ok next)
    (apart : placeOf elsewhere ≠ placeOf path) : next.text? elsewhere = tree.text? elsewhere := by
  rw [eq_of_store stored, text?, find?_insert _ apart, text?]

theorem text?_of_rename {source target elsewhere : String}
    (moved : tree.rename source target = .ok next) (fromSource : placeOf elsewhere ≠ placeOf source)
    (fromTarget : placeOf elsewhere ≠ placeOf target) :
    next.text? elsewhere = tree.text? elsewhere := by
  obtain ⟨text, rfl⟩ := eq_of_rename moved
  rw [text?, find?_insert _ fromTarget, find?_erase fromSource, text?]

end Frame

end Offload.FileTree
