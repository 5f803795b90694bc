import Offload.Proofs.Host.Helpers
import Offload.Proofs.Kernel.Helpers

namespace Offload

open Code

namespace KernelModule

section Introduced

variable {fn : Builtin}

/-- Every item that calls the helper stands behind its definition, which may have been
seen before these items. -/
def Introduced (fn : Builtin) : Bool → File → Prop
  | _, [] => True
  | seen, item :: rest =>
    (item.Calls fn → seen = true) ∧ Introduced fn (seen || item.introduces fn) rest

theorem introduced_append {seen : Bool} {first second : File} :
    Introduced fn seen (first ++ second) ↔
      Introduced fn seen first ∧ Introduced fn (seen || first.any (Item.introduces fn)) second := by
  induction first generalizing seen with
  | nil => simp [Introduced]
  | cons item rest ih => simp [Introduced, ih, and_assoc, Bool.or_assoc]

theorem introduced_of_quiet {seen : Bool} {file : File} (quiet : ∀ item ∈ file, item.body = []) :
    Introduced fn seen file := by
  induction file generalizing seen with
  | nil => trivial
  | cons item rest ih =>
    obtain ⟨here, later⟩ := List.forall_mem_cons.mp quiet
    exact ⟨fun calls => absurd calls (Item.not_calls_of_body here), ih later⟩

end Introduced

section Definitions

variable {kernels : List KernelDef}

/-- What stands before a kernel: the helper where it is due, and a blank line. -/
def opening (helperDefined isFirst : Bool) (kernel : KernelDef) : File :=
  (if kernel.needsFloorDiv && !helperDefined then [.define Builtin.floorDiv.definition]
    else []) ++
    if isFirst then [] else [.blank]

theorem definitions_cons (helperDefined isFirst : Bool) (kernel : KernelDef) :
    definitions helperDefined isFirst (kernel :: kernels) =
      opening helperDefined isFirst kernel ++
        kernel.item :: definitions (helperDefined || kernel.needsFloorDiv) false kernels :=
  rfl

private theorem body_of_opening {helperDefined isFirst : Bool} {kernel : KernelDef} {item : Item}
    (member : item ∈ opening helperDefined isFirst kernel) : item.body = [] := by
  rcases List.mem_append.mp member with helper | blank
  · split at helper
    · rw [List.mem_singleton.mp helper]
      rfl
    · cases helper
  · split at blank
    · cases blank
    · rw [List.mem_singleton.mp blank]
      rfl

theorem countP_opening (helperDefined isFirst : Bool) (kernel : KernelDef) :
    (opening helperDefined isFirst kernel).countP (Item.introduces .floorDiv) =
      if kernel.needsFloorDiv && !helperDefined then 1 else 0 := by
  have blank : (if isFirst then [] else [Item.blank]).countP (Item.introduces .floorDiv) = 0 := by
    cases isFirst <;> rfl
  rw [opening, List.countP_append, blank]
  split <;> rfl

/-- The helper stands before the first kernel that needs it. -/
theorem introduced_definitions {helperDefined isFirst : Bool}
    (fits : ∀ kernel ∈ kernels, kernel.item.Calls .floorDiv → kernel.needsFloorDiv = true) :
    Introduced .floorDiv helperDefined (definitions helperDefined isFirst kernels) := by
  induction kernels generalizing helperDefined isFirst with
  | nil => trivial
  | cons kernel rest ih =>
    obtain ⟨here, later⟩ := List.forall_mem_cons.mp fits
    have due : (opening helperDefined isFirst kernel).any (Item.introduces .floorDiv) =
        (kernel.needsFloorDiv && !helperDefined) := by
      rw [Bool.eq_iff_iff, List.any_eq_true, ← List.countP_pos_iff, countP_opening]
      split <;> simp_all
    have seen : (helperDefined || (kernel.needsFloorDiv && !helperDefined)) =
        (helperDefined || kernel.needsFloorDiv) := by
      cases helperDefined <;> simp
    rw [definitions_cons, introduced_append, due, seen]
    refine ⟨introduced_of_quiet fun _ => body_of_opening, ?_, ?_⟩
    · intro calls
      rw [here calls, Bool.or_true]
    · simpa [Item.introduces, KernelDef.item] using ih later

private theorem define_of_definitions {helperDefined isFirst : Bool} {line : String}
    (member : Item.define line ∈ definitions helperDefined isFirst kernels) :
    line = Builtin.floorDiv.definition := by
  induction kernels generalizing helperDefined isFirst with
  | nil => cases member
  | cons kernel rest ih =>
    rw [definitions_cons, List.mem_append, List.mem_cons] at member
    rcases member with before | same | later
    · rcases List.mem_append.mp before with helper | blank
      · split at helper
        · cases List.mem_singleton.mp helper
          rfl
        · cases helper
      · split at blank
        · cases blank
        · cases List.mem_singleton.mp blank
    · cases same
    · exact ih later

/-- The helper is defined once, unless it has been before or no kernel needs it. -/
theorem countP_definitions (helperDefined isFirst : Bool) :
    (definitions helperDefined isFirst kernels).countP (Item.introduces .floorDiv) =
      if !helperDefined && kernels.any KernelDef.needsFloorDiv then 1 else 0 := by
  induction kernels generalizing helperDefined isFirst with
  | nil => simp [definitions]
  | cons kernel rest ih =>
    have item : Item.introduces .floorDiv kernel.item = false := rfl
    rw [definitions_cons, List.countP_append, countP_opening, List.countP_cons, ih, item]
    cases helperDefined <;> cases needs : kernel.needsFloorDiv <;> simp [needs]

end Definitions

/-- The helper for rounded division stands before the kernels that call it, at most once,
and only if a launched kernel needs it. -/
structure Helped (program : Program) (tree : Node) (file : File) : Prop where
  complete : ∀ before item after, file = before ++ item :: after → item.Calls .floorDiv →
    ∃ helper ∈ before, helper.introduces .floorDiv = true
  once : file.countP (Item.introduces .floorDiv) ≤ 1
  needed : (∃ item ∈ file, item.introduces .floorDiv = true) ↔
    ∃ launch ∈ tree.launches, Kernel.Needs program launch.2 .floorDiv
  /-- Nothing but the helper is defined. -/
  defined : ∀ line, Item.define line ∈ file → line = Builtin.floorDiv.definition

/-- Before the kernels there is no code and no macro. -/
theorem preamble_plain {program : Program} {item : Item} (member : item ∈ preamble program) :
    item.body = [] ∧ ∀ line, item ≠ .define line := by
  rcases List.mem_append.mp member with double | types
  · split at double
    · simp only [List.mem_cons, List.not_mem_nil, or_false] at double
      rcases double with rfl | rfl <;> exact ⟨rfl, nofun⟩
    · cases double
  · split at types
    · cases types
    · rcases List.mem_append.mp types with type | blank
      · obtain ⟨declared, _, rfl⟩ := List.mem_map.mp type
        exact ⟨rfl, nofun⟩
      · rw [List.mem_singleton.mp blank]
        exact ⟨rfl, nofun⟩

theorem preamble_introduces {program : Program} {item : Item} (member : item ∈ preamble program) :
    item.introduces .floorDiv = false := by
  cases item with
  | define line => exact absurd rfl ((preamble_plain member).2 line)
  | _ => rfl

theorem countP_file (program : Program) (kernels : List KernelDef) :
    (file program kernels).countP (Item.introduces .floorDiv) =
      if kernels.any KernelDef.needsFloorDiv then 1 else 0 := by
  have none : (preamble program).countP (Item.introduces .floorDiv) = 0 := by
    apply List.countP_eq_zero.mpr
    intro item member
    simp [preamble_introduces member]
  rw [file, List.countP_append, none, countP_definitions, Nat.zero_add, Bool.not_false,
    Bool.true_and]

/-- The definition of a launched kernel records whether its body needs the helper. -/
theorem needsFloorDiv_of_agrees {job : Job} {site : LaunchSite} (agrees : site.Agrees job) :
    site.definition.needsFloorDiv = true ↔ Kernel.Needs job.program site.body .floorDiv := by
  obtain ⟨args, _, defines⟩ := agrees.defined
  obtain ⟨_, _, _, _, same⟩ := Kernel.define_eq_ok defines
  rw [same, Kernel.needsFloorDiv_iff_needs]

private theorem any_needsFloorDiv_iff {job : Job} {tree : Node} {code : HostCode}
    (emits : Emits job [tree] code) :
    code.kernels.any KernelDef.needsFloorDiv = true ↔
      ∃ launch ∈ tree.launches, Kernel.Needs job.program launch.2 .floorDiv := by
  obtain ⟨sites, sited⟩ := exists_sited emits
  have launches : sites.map (fun site => (site.kernel, site.body)) = tree.launches := by
    simpa [Node.launchesOf] using sited.launches
  rw [← sited.definitions, ← launches, List.any_map, List.any_eq_true]
  constructor
  · rintro ⟨site, member, flagged⟩
    have needs := (needsFloorDiv_of_agrees (sited.agree site member)).mp flagged
    exact ⟨_, List.mem_map_of_mem member, needs⟩
  · rintro ⟨launch, listed, needs⟩
    obtain ⟨site, member, rfl⟩ := List.mem_map.mp listed
    exact ⟨site, member, (needsFloorDiv_of_agrees (sited.agree site member)).mpr needs⟩

private theorem needsFloorDiv_of_calls {job : Job} {tree : Node} {code : HostCode}
    (emits : Emits job [tree] code) :
    ∀ definition ∈ code.kernels, definition.item.Calls .floorDiv →
      definition.needsFloorDiv = true := by
  obtain ⟨sites, sited⟩ := exists_sited emits
  rw [← sited.definitions, List.forall_mem_map]
  intro site member calls
  obtain ⟨args, _, defines⟩ := (sited.agree site member).defined
  have needs := Kernel.needs_of_calls defines calls
  exact (needsFloorDiv_of_agrees (sited.agree site member)).mpr needs

theorem helped_module {job : Job} {tree : Node} {code : HostCode}
    (emits : Emits job [tree] code) :
    Helped job.program tree (file job.program code.kernels) where
  complete before item after split calls := by
    have whole : Introduced .floorDiv false (file job.program code.kernels) := by
      rw [file, introduced_append]
      refine ⟨introduced_of_quiet fun _ member => (preamble_plain member).1, ?_⟩
      have unseen : (preamble job.program).any (Item.introduces .floorDiv) = false :=
        List.any_eq_false.mpr fun item member => by simp [preamble_introduces member]
      rw [unseen]
      exact introduced_definitions (needsFloorDiv_of_calls emits)
    rw [split, introduced_append] at whole
    simpa using whole.2.1 calls
  once := by
    rw [countP_file]
    split <;> simp
  needed := by
    rw [← any_needsFloorDiv_iff emits, ← List.countP_pos_iff, countP_file]
    split <;> simp_all
  defined line member := by
    rcases List.mem_append.mp member with before | definition
    · exact absurd rfl ((preamble_plain before).2 line)
    · exact define_of_definitions definition

end KernelModule

/-- Both files define the helpers that they call, before the calls and once, and no
helper without need. Apart from the check of results they define nothing else. -/
theorem generated_files_define_helpers {job : Job} (plain : job.algebra = .syntactic)
    {kernelPath headerName : String} {tree : Node} {files : Files}
    (generated : (job.generate kernelPath headerName tree).result = .ok files) :
    HostProgram.Helped job.program tree files.host ∧
      KernelModule.Helped job.program tree files.kernel := by
  obtain ⟨code, emits, rfl⟩ := Job.generate_eq_ok generated
  exact ⟨HostProgram.helped_file plain emits kernelPath headerName,
    KernelModule.helped_module emits⟩

namespace Sample

/-- The number of tiles is an extent. No expression of the tree divides, so that only the
linear index of the copy brings the division into the kernel module. -/
def tiles : Job where
  program := {
    params := ["N"]
    arrays := [.declare "B" "float" [.var "N", .call .floorDiv [.var "N", .lit 32]] ["N"]]
    copyIn := {}
    copyOut := { params := ["N"], regions := [.full (.named "B" ["N"] ["i0", "i1"])] } }

def clear : Kernel where
  id := 0
  footprint := { params := ["N"], regions := [.full (.named "B" ["N"] ["i0", "i1"])] }
  space := .named "clear" ["N"] []
  gridSize := [.var "N"]
  blockSize := [32]
  vars := [⟨"zero", "B", .item, [.lit 1]⟩]

def clearing : Node :=
  .launch clear (.copy ⟨"zero", "B", .write, [.lit 0], [.var "b0", .var "t0"]⟩)

private theorem clear_needs_floorDiv :
    Kernel.Needs tiles.program (.copy ⟨"zero", "B", .write, [.lit 0], [.var "b0", .var "t0"]⟩)
      .floorDiv := by
  rw [← Kernel.needsFloorDiv_iff_needs]
  decide

end Sample

theorem tiled_files_define_helpers :
    ∃ files, (Sample.tiles.generate "tiles.cl" "tiles.h" Sample.clearing).result = .ok files ∧
      HostProgram.Helped Sample.tiles.program Sample.clearing files.host ∧
      KernelModule.Helped Sample.tiles.program Sample.clearing files.kernel ∧
      ∃ item ∈ files.kernel, item.introduces .floorDiv = true := by
  obtain ⟨files, generated⟩ : ∃ files,
      (Sample.tiles.generate "tiles.cl" "tiles.h" Sample.clearing).result = .ok files := ⟨_, rfl⟩
  obtain ⟨host, kernel⟩ := generated_files_define_helpers rfl generated
  exact ⟨files, generated, host, kernel,
    kernel.needed.mpr ⟨_, List.mem_singleton_self _, Sample.clear_needs_floorDiv⟩⟩

end Offload
