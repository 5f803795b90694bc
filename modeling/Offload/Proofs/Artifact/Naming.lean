import Mathlib.Data.List.Nodup
import Offload.Artifact.Names
import Offload.Proofs.FileTree

/-! The names of the generated files. They are told apart by the ends of their last segments,
so that the files and their staged versions stand in six different places. -/

namespace Offload.OutputNames

open Offload.Path (Parts)

variable {names : OutputNames}

section Suffix

variable {base lead name trail : List Char}

theorem withSuffix_eq (parts : Parts base lead name trail) (named : name ≠ ['.', '.'])
    (suffix : String) :
    withSuffix base suffix =
      .ok (.ofList (Path.enter (Path.trimRev lead.reverse) (name ++ suffix.toList))) := by
  rw [withSuffix, parts.addSuffix?_eq, if_neg named]

/-- A suffix can be added to paths with a name only. -/
theorem fileName?_of_withSuffix {suffix path : String} (added : withSuffix base suffix = .ok path) :
    ∃ name, Path.fileName? base = some name := by
  cases found : Path.fileName? base with
  | none => simp [withSuffix, Path.addSuffix?, found] at added
  | some name => exact ⟨name, rfl⟩

end Suffix

/-- The kernel module and the header are named after a base, in one directory. -/
structure Siblings (names : OutputNames) (lead base : List Char) : Prop where
  kernel : names.kernel.toList =
    Path.enter (Path.trimRev lead.reverse) (base ++ "_kernel.cl".toList)
  header : names.header.toList =
    Path.enter (Path.trimRev lead.reverse) (base ++ "_kernel.h".toList)
  counts : Path.Counts base

theorem Siblings.counts_header {lead base : List Char} (siblings : names.Siblings lead base) :
    Path.Counts (base ++ "_kernel.h".toList) :=
  siblings.counts.append (by decide) (by decide)

/-- How the names of a run are related. -/
inductive Arranged (names : OutputNames) : Prop where
  /-- All files are named after one base. -/
  | beside {lead base rest trail : List Char}
      (host : Parts names.host.toList lead (base ++ rest) trail)
      (notUp : base ++ rest ≠ ['.', '.']) (notHere : (Path.splitName (base ++ rest)).1 ≠ ['.'])
      (other : ¬"_kernel".toList <+: rest ++ ".tmp".toList)
      (siblings : names.Siblings lead base)
  /-- The stem of the host code is `.`, and the other files are named after its directory. -/
  | above {lead rest trail front base behind : List Char}
      (host : Parts names.host.toList lead ('.' :: '.' :: rest) trail)
      (notUp : '.' :: '.' :: rest ≠ ['.', '.']) (plain : '.' ∉ rest) (trails : trail ≠ [])
      (outer : Parts (lead ++ ['.']) front base behind) (outerNotUp : base ≠ ['.', '.'])
      (siblings : names.Siblings front base)

theorem siblings_of_parts {base lead name trail : List Char} {host : String}
    (parts : Parts base lead name trail) (notUp : name ≠ ['.', '.'])
    (done : (do return {
      host := host
      kernel := ← withSuffix base "_kernel.cl"
      header := ← withSuffix base "_kernel.h" }) = Except.ok names) :
    names.host = host ∧ names.Siblings lead name := by
  rw [withSuffix_eq parts notUp, withSuffix_eq parts notUp] at done
  cases Except.ok.inj done
  exact ⟨rfl, String.toList_ofList, String.toList_ofList, parts.counts⟩

/-- A bare name that can take a suffix is a segment of its own. -/
theorem parts_of_named {lead name found : List Char} (leads : Path.Leads lead)
    (counts : Path.Counts name) (named : Path.fileName? (lead ++ name) = some found) :
    Parts (lead ++ name) lead name [] ∧ name ≠ ['.', '.'] := by
  have parts : Parts (lead ++ name) lead name [] :=
    ⟨(List.append_nil _).symm, leads, counts, .nil⟩
  refine ⟨parts, fun up => ?_⟩
  rw [parts.fileName?_eq, if_pos up] at named
  cases named

/-- Without an output path all files are named after the stem of the input. -/
theorem arranged_of_input {input : String} (derived : derive input none = .ok names) :
    names.Arranged := by
  rw [derive] at derived
  cases named : Path.fileName? input.toList with
  | none => simp [Path.stem?, named] at derived
  | some name =>
    obtain ⟨-, lead, trail, parts⟩ := Path.exists_parts named
    obtain ⟨filled, rest, joined, -⟩ := Path.exists_rest parts.counts.nonempty
    have solid := parts.counts.solid
    simp only [Path.stem?, named, Option.map_some] at derived
    generalize (Path.splitName name).1 = base at *
    rw [joined, List.mem_append, not_or] at solid
    cases added : withSuffix base "_host.c" with
    | error fault =>
      rw [added] at derived
      cases derived
    | ok host =>
      obtain ⟨found, remains⟩ := fileName?_of_withSuffix added
      have notHere : base ≠ ['.'] := by
        rintro rfl
        cases remains
      obtain ⟨whole, notUp⟩ := parts_of_named (.inl rfl) ⟨filled, notHere, solid.1⟩ remains
      rw [added] at derived
      obtain ⟨rfl, siblings⟩ := siblings_of_parts whole notUp derived
      have made := (withSuffix_eq whole notUp "_host.c").symm.trans added
      have text : names.host.toList = base ++ "_host.c".toList := by
        rw [← Except.ok.inj made, String.toList_ofList]
        rfl
      have host : Parts names.host.toList [] (base ++ "_host.c".toList) [] :=
        ⟨by simp [text], .inl rfl, whole.counts.append (by decide) (by decide), .nil⟩
      have divided : (Path.splitName (base ++ "_host.c".toList)).1 = base ++ "_host".toList := by
        have split : base ++ "_host.c".toList = base ++ "_host".toList ++ '.' :: ['c'] := by simp
        rw [split, Path.splitName_append (by simp) (by decide)]
      refine .beside host (whole.counts.append_notUp (by decide)) ?_ (by decide) siblings
      rw [divided]
      exact (whole.counts.append (by decide) (by decide)).notHere

/-- With an output path the other files are named after its stem, unless that is `.`. -/
theorem arranged_of_output {input output : String}
    (derived : derive input (some output) = .ok names) : names.Arranged := by
  rw [derive] at derived
  generalize shortened : Path.dropExtension output.toList = base at derived
  obtain ⟨remaining, found⟩ : ∃ name, Path.fileName? base = some name := by
    cases added : withSuffix base "_kernel.cl" with
    | error fault =>
      rw [added] at derived
      cases derived
    | ok path => exact fileName?_of_withSuffix added
  cases named : Path.fileName? output.toList with
  | none =>
    rw [Path.dropExtension_of_unnamed named] at shortened
    rw [← shortened, named] at found
    cases found
  | some name =>
    obtain ⟨notUp, lead, trail, parts⟩ := Path.exists_parts named
    obtain ⟨filled, rest, joined, shape⟩ := Path.exists_rest parts.counts.nonempty
    obtain ⟨same, trails⟩ := (parts.dropExtension_cases notUp).resolve_left (by
      rw [shortened, found]
      exact nofun)
    have solid := parts.counts.solid
    generalize divided : (Path.splitName name).1 = stem at *
    rw [joined] at parts notUp solid divided
    rw [List.mem_append, not_or] at solid
    rw [← shortened, same] at found derived
    by_cases point : stem = ['.']
    · subst point
      obtain ⟨outerNotUp, front, behind, outer⟩ := Path.exists_parts found
      obtain ⟨rfl, siblings⟩ := siblings_of_parts outer outerNotUp derived
      rcases shape with rfl | ⟨extension, plain, rfl⟩
      · exact absurd rfl parts.counts.notHere
      · exact .above parts notUp plain (trails rfl) outer outerNotUp siblings
    · obtain ⟨whole, stemNotUp⟩ := parts_of_named parts.leads ⟨filled, point, solid.1⟩ found
      obtain ⟨rfl, siblings⟩ := siblings_of_parts whole stemNotUp derived
      refine .beside parts notUp (by rwa [divided]) ?_ siblings
      rcases shape with rfl | ⟨extension, -, rfl⟩
      · decide
      · simp

theorem arranged_of_derive {input : String} {output : Option String}
    (derived : derive input output = .ok names) : names.Arranged := by
  cases output with
  | none => exact arranged_of_input derived
  | some output => exact arranged_of_output derived

/-- The paths of the files and those under which they are staged. -/
def files (names : OutputNames) : List String := names.paths ++ names.stagingPaths

section Places

open FileTree (placeOf)

private theorem enter_append (dir name suffix : List Char) :
    Path.enter dir name ++ suffix = Path.enter dir (name ++ suffix) := by
  unfold Path.enter
  split <;> simp

theorem stagingPath_eq (path : String) :
    stagingPath path = .ofList (path.toList ++ ".tmp".toList) := by
  rw [stagingPath, ← String.toList_append, String.ofList_toList]

/-- A staged file stands beside its destination, or below a destination with a trail. -/
theorem placeOf_stagingPath {path : String} {lead name trail : List Char}
    (parts : Parts path.toList lead name trail) (notUp : name ≠ ['.', '.']) :
    (trail = [] ∧ placeOf (stagingPath path) =
      .ofList (name ++ ".tmp".toList) :: placeOf (.ofList lead)) ∨
    ∃ below, placeOf (stagingPath path) = below :: .ofList name :: placeOf (.ofList lead) := by
  have place := FileTree.placeOf_parts parts notUp
  obtain ⟨joined, leads, counts, idle⟩ := parts
  rw [stagingPath_eq]
  cases idle with
  | nil =>
    have staged : Parts (path.toList ++ ".tmp".toList) lead (name ++ ".tmp".toList) [] :=
      ⟨by simp [joined], leads, counts.append (by decide) (by decide), .nil⟩
    exact .inl ⟨rfl, FileTree.placeOf_parts staged (counts.append_notUp (by decide))⟩
  | @slash front idle =>
    have staged : Parts (path.toList ++ ".tmp".toList) path.toList ".tmp".toList [] :=
      ⟨by simp, .inr ⟨lead ++ name ++ front, by simp [joined]⟩,
        ⟨by decide, by decide, by decide⟩, .nil⟩
    exact .inr ⟨".tmp", by rw [FileTree.placeOf_parts staged (by decide), place]; rfl⟩
  | @point front idle =>
    have staged : Parts (path.toList ++ ".tmp".toList) (lead ++ name ++ front ++ ['/'])
        "..tmp".toList [] :=
      ⟨by simp [joined], .inr ⟨_, rfl⟩, ⟨by decide, by decide, by decide⟩, .nil⟩
    rw [joined, ← List.append_assoc, FileTree.placeOf_concat_point] at place
    refine .inr ⟨"..tmp", ?_⟩
    rw [FileTree.placeOf_parts staged (by decide), FileTree.placeOf_concat_slash, place]
    rfl

theorem placeOf_sibling {path : String} {lead base suffix : List Char}
    (text : path.toList = Path.enter (Path.trimRev lead.reverse) (base ++ suffix))
    (counts : Path.Counts base) (long : 2 ≤ suffix.length) (plain : '/' ∉ suffix) :
    placeOf path = .ofList (base ++ suffix) :: placeOf (.ofList lead) := by
  have filled : suffix ≠ [] := by
    rintro rfl
    cases long
  have place := FileTree.placeOf_enter lead.reverse (counts.append filled plain)
    (counts.append_notUp long)
  rwa [← text, String.ofList_toList, List.reverse_reverse] at place

theorem toList_stagingPath {path : String} {dir base suffix : List Char}
    (text : path.toList = Path.enter dir (base ++ suffix)) :
    (stagingPath path).toList = Path.enter dir (base ++ (suffix ++ ".tmp".toList)) := by
  rw [stagingPath_eq, String.toList_ofList, text, enter_append, List.append_assoc]

/-- The kernel module and the header, and the same two when staged. -/
def siblingPaths (names : OutputNames) : List String :=
  [names.kernel, names.header, stagingPath names.kernel, stagingPath names.header]

/-- What the names of the siblings end with. -/
def siblingSuffixes : List (List Char) :=
  ["_kernel.cl".toList, "_kernel.h".toList, "_kernel.cl.tmp".toList, "_kernel.h.tmp".toList]

theorem Siblings.places {lead base : List Char} (siblings : names.Siblings lead base) :
    names.siblingPaths.map placeOf =
      siblingSuffixes.map fun suffix => .ofList (base ++ suffix) :: placeOf (.ofList lead) := by
  simp only [siblingPaths, siblingSuffixes, List.map_cons, List.map_nil]
  rw [placeOf_sibling siblings.kernel siblings.counts (by decide) (by decide),
    placeOf_sibling siblings.header siblings.counts (by decide) (by decide),
    placeOf_sibling (toList_stagingPath siblings.kernel) siblings.counts (by decide) (by decide),
    placeOf_sibling (toList_stagingPath siblings.header) siblings.counts (by decide) (by decide)]
  rfl

theorem suffix_eq {base first second : List Char} {place : List String}
    (same : String.ofList (base ++ first) :: place = .ofList (base ++ second) :: place) :
    first = second :=
  List.append_cancel_left (String.ofList_injective (List.cons.inj same).1)

theorem Siblings.nodup {lead base : List Char} (siblings : names.Siblings lead base) :
    (names.siblingPaths.map placeOf).Nodup := by
  rw [siblings.places]
  refine List.pairwise_map.mpr (List.Pairwise.imp ?_ (by decide : siblingSuffixes.Nodup))
  intro first second different same
  exact different (suffix_eq same)

/-- The siblings stand in one directory, and their names go on with `_kernel` after the base. -/
theorem Siblings.not_mem {lead base : List Char} {place : List String}
    (siblings : names.Siblings lead base)
    (apart : ∀ suffix, "_kernel".toList <+: suffix →
      place ≠ .ofList (base ++ suffix) :: placeOf (.ofList lead)) :
    place ∉ names.siblingPaths.map placeOf := by
  rw [siblings.places]
  intro member
  obtain ⟨suffix, listed, same⟩ := List.mem_map.mp member
  have kernel : ∀ suffix ∈ siblingSuffixes, "_kernel".toList <+: suffix := by decide
  exact apart suffix (kernel suffix listed) same.symm

theorem Siblings.not_mem_of_length {lead base : List Char} {place : List String}
    (siblings : names.Siblings lead base)
    (depth : place.length ≠ (placeOf (.ofList lead)).length + 1) :
    place ∉ names.siblingPaths.map placeOf :=
  siblings.not_mem fun _ _ same => depth (by rw [same, List.length_cons])

theorem nodup_files (siblings : (names.siblingPaths.map placeOf).Nodup)
    (hostApart : placeOf names.host ∉ names.siblingPaths.map placeOf)
    (stagedApart : placeOf (stagingPath names.host) ∉ names.siblingPaths.map placeOf)
    (moved : placeOf names.host ≠ placeOf (stagingPath names.host)) :
    (names.files.map placeOf).Nodup := by
  simp only [siblingPaths, List.map_cons, List.map_nil, List.nodup_cons, List.mem_cons,
    List.not_mem_nil, not_or] at siblings hostApart stagedApart
  simp only [files, paths, stagingPaths, List.map_cons, List.map_nil, List.cons_append,
    List.nil_append, List.nodup_cons, List.mem_cons, List.not_mem_nil, not_or]
  grind

/-- What leads to a segment `.` leads to the place of the name before it. -/
theorem placeOf_lead {lead front base behind : List Char} (leads : Path.Leads lead)
    (outer : Parts (lead ++ ['.']) front base behind) (notUp : base ≠ ['.', '.']) :
    placeOf (.ofList lead) = .ofList base :: placeOf (.ofList front) := by
  rw [← FileTree.placeOf_parts outer notUp, FileTree.placeOf_leads leads (by decide)]
  rfl

/-- The files and their staged versions stand in six different places. -/
theorem Arranged.nodup_places (arranged : names.Arranged) : (names.files.map placeOf).Nodup := by
  cases arranged with
  | @beside lead base rest trail host notUp _ other siblings =>
    have place := FileTree.placeOf_parts host notUp
    rw [String.ofList_toList] at place
    have hostApart : placeOf names.host ∉ names.siblingPaths.map placeOf := by
      apply siblings.not_mem
      intro suffix kernel same
      have ends : rest = suffix := suffix_eq (place.symm.trans same)
      exact other (ends ▸ kernel.trans (List.prefix_append _ _))
    rcases placeOf_stagingPath host notUp with ⟨-, staged⟩ | ⟨below, staged⟩
    · rw [List.append_assoc] at staged
      refine nodup_files siblings.nodup hostApart (siblings.not_mem ?_) ?_
      · intro suffix kernel same
        have ends : rest ++ ".tmp".toList = suffix := suffix_eq (staged.symm.trans same)
        exact other (ends ▸ kernel)
      · intro same
        have ends : rest = rest ++ ".tmp".toList := suffix_eq (place.symm.trans (same.trans staged))
        simp at ends
    · -- Below the host code nothing else has its place.
      refine nodup_files siblings.nodup hostApart (siblings.not_mem_of_length ?_) ?_
      · simp [staged]
      · simp [place, staged]
  | @above lead rest trail front base behind host notUp plain trails outer outerNotUp siblings =>
    have inner := placeOf_lead host.leads outer outerNotUp
    have place := FileTree.placeOf_parts host notUp
    obtain ⟨below, staged⟩ :=
      (placeOf_stagingPath host notUp).resolve_left fun beside => trails beside.1
    rw [inner] at place staged
    rw [String.ofList_toList] at place
    refine nodup_files siblings.nodup (siblings.not_mem_of_length ?_)
      (siblings.not_mem_of_length ?_) ?_
    · simp [place]
    · simp only [staged, List.length_cons]
      omega
    · simp [place, staged]

end Places

/-- No two of the files and their staged versions share a path, and none is touched when
another one is written or two others are moved. -/
theorem files_never_collide {input : String} {output : Option String}
    (derived : derive input output = .ok names) :
    names.files.Nodup ∧
      ∀ tree next : FileTree, ∀ first ∈ names.files, ∀ other ∈ names.files, other ≠ first →
        (∀ text, tree.store first text = .ok next → next.text? other = tree.text? other) ∧
        ∀ second ∈ names.files, other ≠ second → tree.rename first second = .ok next →
          next.text? other = tree.text? other := by
  have distinct := (arranged_of_derive derived).nodup_places
  have apart : ∀ first ∈ names.files, ∀ other ∈ names.files, other ≠ first →
      FileTree.placeOf other ≠ FileTree.placeOf first :=
    fun first listed other otherListed different same =>
      different (List.inj_on_of_nodup_map distinct otherListed listed same)
  refine ⟨distinct.of_map _, ?_⟩
  intro tree next first listed other otherListed different
  refine ⟨fun text stored => ?_, fun second secondListed fromSecond moved => ?_⟩
  · exact FileTree.text?_of_store stored (apart first listed other otherListed different)
  · exact FileTree.text?_of_rename moved (apart first listed other otherListed different)
      (apart second secondListed other otherListed fromSecond)

namespace Sample

/-- Earlier output in the current directory. -/
def earlier : FileTree := ⟨[(["gemm_kernel_kernel.cl"], .file "old kernel")]⟩

end Sample

/-- The host code is named like a kernel module, and still its own kernel module is kept. -/
theorem files_apart_for_kernel_name :
    derive "gemm.c" (some "gemm_kernel.cl") =
      .ok ⟨"gemm_kernel.cl", "gemm_kernel_kernel.cl", "gemm_kernel_kernel.h"⟩ ∧
    (files ⟨"gemm_kernel.cl", "gemm_kernel_kernel.cl", "gemm_kernel_kernel.h"⟩).Nodup ∧
    ∃ next, Sample.earlier.store "gemm_kernel.cl.tmp" "new host" = .ok next ∧
      next.text? "gemm_kernel_kernel.cl" = some "old kernel" := by
  have derived : derive "gemm.c" (some "gemm_kernel.cl") =
      .ok ⟨"gemm_kernel.cl", "gemm_kernel_kernel.cl", "gemm_kernel_kernel.h"⟩ := rfl
  obtain ⟨distinct, kept⟩ := files_never_collide derived
  refine ⟨derived, distinct, _, rfl, ?_⟩
  have untouched := (kept Sample.earlier _ "gemm_kernel.cl.tmp" (by decide)
    "gemm_kernel_kernel.cl" (by decide) (by decide)).1 "new host" rfl
  exact untouched.trans (by decide)

section Together

theorem directoryRev_sibling {path : String} {lead base suffix : List Char}
    (text : path.toList = Path.enter (Path.trimRev lead.reverse) (base ++ suffix))
    (counts : Path.Counts (base ++ suffix)) :
    Path.directoryRev path.toList = Path.trimRev lead.reverse := by
  obtain ⟨_, parts, same⟩ := Path.exists_parts_enter lead.reverse counts
  rw [text, parts.directoryRev_eq, same]

theorem Siblings.directories {lead base : List Char} (siblings : names.Siblings lead base) :
    Path.directoryRev names.kernel.toList = Path.trimRev lead.reverse ∧
      Path.directoryRev names.header.toList = Path.trimRev lead.reverse :=
  ⟨directoryRev_sibling siblings.kernel (siblings.counts.append (by decide) (by decide)),
    directoryRev_sibling siblings.header siblings.counts_header⟩

theorem Siblings.toList_headerName {lead base : List Char} (siblings : names.Siblings lead base) :
    names.headerName.toList = base ++ "_kernel.h".toList := by
  obtain ⟨_, parts, -⟩ := Path.exists_parts_enter lead.reverse siblings.counts_header
  rw [headerName, siblings.header, parts.fileName?_eq,
    if_neg (siblings.counts.append_notUp (by decide))]
  exact String.toList_ofList

theorem Siblings.bare {lead base : List Char} (siblings : names.Siblings lead base) :
    names.headerName ≠ "" ∧ '/' ∉ names.headerName.toList := by
  have text := siblings.toList_headerName
  refine ⟨fun empty => ?_, text ▸ siblings.counts_header.solid⟩
  rw [empty] at text
  exact siblings.counts_header.nonempty text.symm

/-- What leads to a segment `.` is not in the directory of the name before it. -/
theorem trimRev_lead_ne {lead front base behind : List Char} (leads : Path.Leads lead)
    (outer : Parts (lead ++ ['.']) front base behind) (notUp : base ≠ ['.', '.']) :
    Path.trimRev front.reverse ≠ Path.trimRev lead.reverse := by
  intro same
  have inner := placeOf_lead leads outer notUp
  rw [← lead.reverse_reverse, ← FileTree.placeOf_trimRev, ← same, FileTree.placeOf_trimRev,
    List.reverse_reverse] at inner
  exact absurd (congrArg List.length inner) (by simp)

end Together

/-- The kernel module and the header stand in the directory of the host code, where its
include finds the header, exactly if the stem of the host code is not `.`. -/
theorem together_iff_stem {input : String} {output : Option String}
    (derived : derive input output = .ok names) :
    (names.headerName ≠ "" ∧ '/' ∉ names.headerName.toList) ∧
    (Path.directoryRev names.kernel.toList = Path.directoryRev names.host.toList ↔
      Path.stem? names.host.toList ≠ some ['.']) ∧
    (Path.directoryRev names.header.toList = Path.directoryRev names.host.toList ↔
      Path.stem? names.host.toList ≠ some ['.']) ∧
    (Path.enter (Path.directoryRev names.host.toList) names.headerName.toList =
        names.header.toList ↔
      Path.stem? names.host.toList ≠ some ['.']) := by
  cases arranged_of_derive derived with
  | @beside lead base rest trail host notUp notHere _ siblings =>
    have stem : Path.stem? names.host.toList ≠ some ['.'] := by
      rw [Path.stem?, host.fileName?_eq, if_neg notUp]
      simpa using notHere
    obtain ⟨kernel, header⟩ := siblings.directories
    rw [host.directoryRev_eq]
    refine ⟨siblings.bare, iff_of_true kernel stem, iff_of_true header stem, iff_of_true ?_ stem⟩
    rw [siblings.toList_headerName, siblings.header]
  | @above lead rest trail front base behind host notUp plain _ outer outerNotUp siblings =>
    have divided : Path.splitName ('.' :: '.' :: rest) = (['.'], some rest) :=
      Path.splitName_append (List.cons_ne_nil '.' []) plain
    have stem : Path.stem? names.host.toList = some ['.'] := by
      rw [Path.stem?, host.fileName?_eq, if_neg notUp, Option.map_some, divided]
    have different := trimRev_lead_ne host.leads outer outerNotUp
    obtain ⟨kernel, header⟩ := siblings.directories
    rw [host.directoryRev_eq]
    refine ⟨siblings.bare, iff_of_false (kernel ▸ different) (not_not_intro stem),
      iff_of_false (header ▸ different) (not_not_intro stem), iff_of_false ?_ (not_not_intro stem)⟩
    intro included
    rw [siblings.toList_headerName] at included
    have inside := directoryRev_sibling included.symm siblings.counts_header
    exact different (header.symm.trans inside)

/-- Points and slashes around the name of the host code do not lead the other files away. -/
theorem together_behind_trail :
    derive "gemm.c" (some "out/./gemm.v2.c/") =
      .ok ⟨"out/./gemm.v2.c/", "out/gemm.v2_kernel.cl", "out/gemm.v2_kernel.h"⟩ ∧
    Path.directoryRev "out/gemm.v2_kernel.cl".toList =
      Path.directoryRev "out/./gemm.v2.c/".toList ∧
    Path.directoryRev "out/gemm.v2_kernel.h".toList =
      Path.directoryRev "out/./gemm.v2.c/".toList := by
  have derived : derive "gemm.c" (some "out/./gemm.v2.c/") =
      .ok ⟨"out/./gemm.v2.c/", "out/gemm.v2_kernel.cl", "out/gemm.v2_kernel.h"⟩ := rfl
  obtain ⟨_, kernel, header, _⟩ := together_iff_stem derived
  exact ⟨derived, kernel.mpr (by decide), header.mpr (by decide)⟩

/-- The stem of `..c` is `.`, which the directory swallows: behind `a/..c/` the other files are
named after `a` and stand beside it. -/
theorem header_apart_from_host :
    ¬ ∀ (input : String) (output : Option String) (names : OutputNames),
      derive input output = .ok names →
        Path.directoryRev names.kernel.toList = Path.directoryRev names.host.toList ∧
        Path.directoryRev names.header.toList = Path.directoryRev names.host.toList := by
  intro together
  have same := (together "q" (some "a/..c/") ⟨"a/..c/", "a_kernel.cl", "a_kernel.h"⟩ rfl).2
  exact absurd same (by decide)

end Offload.OutputNames
