import Offload.Proofs.Buffer.Usage
import Offload.Proofs.Expr.Range

namespace Offload

open Code

namespace Code.Term

mutual

/-- The value of a term that is a size, over the integers, if types have these sizes
and names these values. -/
def exact (sizes : Ty → Int) (names : String → Int) : Term → Option Int
  | int n => some n
  | symbolic e => e.exact names
  | sizeOf type => some (sizes type)
  | byteSize extents elem =>
    (Expr.exactAll names extents).map fun ns => ns.foldr (· * ·) (sizes elem)
  | call fn args => if fn = "max" then (exactAll sizes names args).bind Builtin.max.exact else none
  | _ => none

def exactAll (sizes : Ty → Int) (names : String → Int) : List Term → Option (List Int)
  | [] => some []
  | term :: rest =>
    (term.exact sizes names).bind fun v => (exactAll sizes names rest).map (v :: ·)

end

end Code.Term

/-- The number of elements of an array with these extents. -/
def product : List Int → Int
  | [] => 1
  | n :: rest => n * product rest

private theorem foldr_mul (size : Int) (extents : List Int) :
    extents.foldr (· * ·) size = size * product extents := by
  induction extents with
  | nil => exact (Int.mul_one size).symm
  | cons n rest ih => rw [List.foldr_cons, ih, product, Int.mul_left_comm]

theorem one_le_product {extents : List Int} (each : ∀ n ∈ extents, 1 ≤ n) :
    1 ≤ product extents := by
  induction extents with
  | nil => exact Int.le_refl 1
  | cons n rest ih =>
    obtain ⟨head, tail⟩ := List.forall_mem_cons.mp each
    exact Int.mul_pos head (ih tail)

namespace Buffer

/-- The bytes that a buffer is created with: one element at least, and room for exactly
the elements of the array if there are any. -/
structure Usage.Allocates (sizes : Ty → Int) (names : String → Int) (usage : Usage)
    (extents : List Int) (bytes : Int) : Prop where
  size : usage.size.exact sizes names = some bytes
  nonempty : sizes (.elem usage.array.elem) ≤ bytes
  whole : (∀ n ∈ extents, 1 ≤ n) → bytes = sizes (.elem usage.array.elem) * product extents

section Bytes

variable {job : Job} {sizes : Ty → Int} {names : String → Int} {extents : List Int}

theorem exact_byteSize {array : ArrayDecl}
    (known : Expr.values (fun x => some (names x)) array.extents = some extents) :
    (byteSize array).exact sizes names = some (sizes (.elem array.elem) * product extents) := by
  rw [byteSize, Term.exact, Expr.exactAll_of_values known, Option.map_some, foldr_mul]

/-- The size of a buffer is clamped unless the extents are known to be positive. -/
theorem allocates_of_size {usage : Usage} (plain : job.algebra = .syntactic)
    (created : usage.size = allocationSize job usage.array)
    (known : Expr.values (fun x => some (names x)) usage.array.extents = some extents)
    (positive : 1 ≤ sizes (.elem usage.array.elem)) :
    ∃ bytes, usage.Allocates sizes names extents bytes := by
  have whole : (byteSize usage.array).exact sizes names =
      some (sizes (.elem usage.array.elem) * product extents) := exact_byteSize known
  have enough (each : ∀ n ∈ extents, 1 ≤ n) :
      sizes (.elem usage.array.elem) ≤ sizes (.elem usage.array.elem) * product extents :=
    calc sizes (.elem usage.array.elem)
        = sizes (.elem usage.array.elem) * 1 := (Int.mul_one _).symm
      _ ≤ sizes (.elem usage.array.elem) * product extents :=
        Int.mul_le_mul_of_nonneg_left (one_le_product each) (by omega)
  unfold allocationSize at created
  split at created
  · rename_i full
    rw [plain] at full
    have each := (ArrayDecl.hasElements_iff_of_values known).mp
      ((ArrayDecl.holds_sizeGuard_iff (ArrayDecl.sized_of_values known)).mp
        (Region.holds_of_isTrivial full))
    exact ⟨_, created ▸ whole, enough each, fun _ => rfl⟩
  · refine ⟨max _ _, ?_, Int.le_max_left _ _, fun each => Int.max_eq_right (enough each)⟩
    rw [created]
    simp [Term.exact, Term.exactAll, whole, Builtin.exact]

/-- Where the context holds, what is read back is all that was created. -/
theorem exact_of_mem_reads {usage : Usage}
    (copied : usage.CopiedOut job fun x => some (names x))
    (context : job.program.context.Holds fun x => some (names x))
    (known : Expr.values (fun x => some (names x)) usage.array.extents = some extents)
    {allocated : Int} (allocates : usage.Allocates sizes names extents allocated)
    {bytes : Term} (read : bytes ∈ usage.reads) : bytes.exact sizes names = some allocated := by
  rcases copied.once with none | once
  · rw [none] at read
    cases read
  · cases selected : job.touches job.program.copyOut usage.array with
    | false =>
      rw [copied.unselected selected] at read
      cases read
    | true =>
      have elements := (copied.selected selected context (ArrayDecl.sized_of_values known)).mp once
      have each := (ArrayDecl.hasElements_iff_of_values known).mp elements
      rw [once] at read
      rw [List.mem_singleton.mp read, exact_byteSize known, allocates.whole each]

end Bytes

/-- Whatever the names stand for, every buffer of the host program is created with room
for one element at least, and for exactly the elements of its array if there are any.
Where the context holds, reading it back reads as many bytes. -/
theorem allocated_of_generate {job : Job} (plain : job.algebra = .syntactic)
    {kernelPath headerName : String} {tree : Node} {files : Files}
    (generated : (job.generate kernelPath headerName tree).result = .ok files)
    (names : String → Int) :
    (∃ trace, Executes (resolvedOf (fun x => some (names x)) files.host.code) trace) ∧
      ∀ trace, Executes (resolvedOf (fun x => some (names x)) files.host.code) trace →
        ∃ usages, Accounts job tree trace usages ∧
          ∀ usage ∈ usages, ∀ extents,
            Expr.values (fun x => some (names x)) usage.array.extents = some extents →
            ∀ sizes : Ty → Int, 1 ≤ sizes (.elem usage.array.elem) →
              ∃ allocated, usage.Allocates sizes names extents allocated ∧
                ((job.program.context.Holds fun x => some (names x)) →
                  ∀ bytes ∈ usage.reads, bytes.exact sizes names = some allocated) := by
  obtain ⟨code, emits, host, _⟩ := Job.exists_emits_of_generate generated
  refine ⟨Executes.exists_trace _, ?_⟩
  intro trace run
  rw [host] at run
  obtain ⟨usages, accounts, each⟩ := exists_usages emits run
  refine ⟨usages, accounts, ?_⟩
  intro usage member extents known sizes positive
  obtain ⟨created, path, inside, reads⟩ := each usage member
  obtain ⟨allocated, allocates⟩ := allocates_of_size plain created known positive
  refine ⟨allocated, allocates, fun context bytes read => ?_⟩
  exact exact_of_mem_reads (Usage.copiedOut plain inside reads) context known allocates read

/-- The sample with elements of eight bytes: an array of length four takes 32 bytes,
which are read back, and one of negative length still has a buffer. -/
theorem allocated_in_sample :
    ∃ files, (Sample.job.generate "code.cl" "code.h" Sample.tree).result = .ok files ∧
      (∃ trace, Executes (resolvedOf (fun _ => some 4) files.host.code) trace) ∧
      (∀ trace, Executes (resolvedOf (fun _ => some 4) files.host.code) trace →
        ∃ size sumSize, trace.filterMap creation? = [("dev_A", size), ("dev_sum", sumSize)] ∧
          size.exact (fun _ => 8) (fun _ => 4) = some 32 ∧
          sumSize.exact (fun _ => 8) (fun _ => 4) = some 8 ∧
          ∀ bytes, ("dev_A", bytes) ∈ trace.filterMap reading? →
            bytes.exact (fun _ => 8) (fun _ => 4) = some 32) ∧
      ∀ trace, Executes (resolvedOf (fun _ => some (-3)) files.host.code) trace →
        ∃ size sumSize n, trace.filterMap creation? = [("dev_A", size), ("dev_sum", sumSize)] ∧
          size.exact (fun _ => 8) (fun _ => -3) = some n ∧ 8 ≤ n := by
  obtain ⟨files, generated⟩ := Sample.exists_files
  obtain ⟨exists_trace, positive⟩ := allocated_of_generate rfl generated fun _ => 4
  obtain ⟨_, negative⟩ := allocated_of_generate rfl generated fun _ => -3
  refine ⟨files, generated, exists_trace, ?_, ?_⟩
  · intro trace run
    obtain ⟨usages, accounts, each⟩ := positive trace run
    obtain ⟨size, reads, sumSize, sumReads, rfl⟩ := usages_in_sample accounts
    obtain ⟨array, sum, _⟩ := List.forall_mem_cons.mp each |>.imp_right List.forall_mem_cons.mp
    obtain ⟨n, ofArray, whole⟩ := array [4] rfl (fun _ => 8) (by decide)
    obtain ⟨m, ofSum, _⟩ := sum [] rfl (fun _ => 8) (by decide)
    obtain rfl : n = 32 := ofArray.whole (List.forall_mem_singleton.mpr (by omega))
    obtain rfl : m = 8 := ofSum.whole nofun
    refine ⟨size, sumSize, accounts.creations, ofArray.size, ofSum.size, ?_⟩
    intro bytes read
    rw [accounts.readings] at read
    obtain ⟨usage, listed, owned⟩ := List.mem_flatMap.mp read
    obtain ⟨term, inside, same⟩ := List.mem_map.mp owned
    rcases List.mem_cons.mp listed with rfl | other
    · obtain ⟨_, rfl⟩ := Prod.mk.inj same
      exact whole ⟨[], List.mem_singleton_self _, nofun⟩ term inside
    · obtain rfl := List.mem_singleton.mp other
      have different : "dev_sum" ≠ "dev_A" := by decide
      exact absurd (Prod.mk.inj same).1 different
  · intro trace run
    obtain ⟨usages, accounts, each⟩ := negative trace run
    obtain ⟨size, reads, sumSize, sumReads, rfl⟩ := usages_in_sample accounts
    obtain ⟨n, ofArray, _⟩ := each _ List.mem_cons_self [-3] rfl (fun _ => 8) (by decide)
    exact ⟨size, sumSize, n, accounts.creations, ofArray.size, ofArray.nonempty⟩

end Buffer

end Offload
