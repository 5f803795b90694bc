import Offload.Proofs.Generation

/-! Blocks group nodes and mean nothing. Trees that differ in blocks only give the same files,
or fail for the same reason: what generation reads off a list of nodes it puts together from
the nodes one by one, and from a block as from the list inside of it. -/

namespace Offload

open Code

namespace Node

/-- Lists of nodes that differ in blocks only: anywhere in a list a block may stand for its
children, also around the root of a tree or the body of a kernel. -/
inductive Regroups : List Node → List Node → Prop where
  | splice (body : List Node) : Regroups [.block body] body
  | refl (nodes : List Node) : Regroups nodes nodes
  | symm {xs ys : List Node} (same : Regroups xs ys) : Regroups ys xs
  | trans {xs ys zs : List Node} (first : Regroups xs ys) (second : Regroups ys zs) :
      Regroups xs zs
  | append {xs ys us vs : List Node} (first : Regroups xs ys) (second : Regroups us vs) :
      Regroups (xs ++ us) (ys ++ vs)
  | loop {iter : String} {init cond inc : Expr} {xs ys : List Node} (inside : Regroups xs ys) :
      Regroups [.loop iter init cond inc xs] [.loop iter init cond inc ys]
  | branch {cond : Expr} {xs ys us vs : List Node} (positive : Regroups xs ys)
      (negative : Regroups us vs) : Regroups [.branch cond xs us] [.branch cond ys vs]
  | launch {kernel : Kernel} {body other : Node} (inside : Regroups [body] [other]) :
      Regroups [.launch kernel body] [.launch kernel other]

mutual

/-- Puts the children of every block that stands in a list into its place. -/
def spliced : Node → Node
  | .loop iter init cond inc body => .loop iter init cond inc (splicedAll body)
  | .branch cond thn els => .branch cond (splicedAll thn) (splicedAll els)
  | .block body => .block (splicedAll body)
  | .launch kernel body => .launch kernel body.spliced
  | .statement name text => .statement name text
  | .copy element => .copy element
  | .sync => .sync

def splicedAll : List Node → List Node
  | [] => []
  | .block body :: rest => splicedAll body ++ splicedAll rest
  | node :: rest => node.spliced :: splicedAll rest

end

mutual

/-- Whether no block stands in a list of nodes. -/
def isSpliced : Node → Bool
  | .loop _ _ _ _ body | .block body => areSpliced body
  | .branch _ thn els => areSpliced thn && areSpliced els
  | .launch _ body => body.isSpliced
  | .statement .. | .copy _ | .sync => true

def areSpliced : List Node → Bool
  | [] => true
  | .block _ :: _ => false
  | node :: rest => node.isSpliced && areSpliced rest

end

private theorem areSpliced_append (xs ys : List Node) :
    areSpliced (xs ++ ys) = (areSpliced xs && areSpliced ys) := by
  induction xs with
  | nil => rfl
  | cons node rest ih => cases node <;> simp [areSpliced, ih, Bool.and_assoc]

mutual

theorem regroups_spliced (node : Node) : Regroups [node] [node.spliced] := by
  cases node with
  | loop iter init cond inc body => exact .loop (regroups_splicedAll body)
  | branch cond thn els => exact .branch (regroups_splicedAll thn) (regroups_splicedAll els)
  | block body =>
    -- A block is opened, spliced inside, and closed again.
    exact (Regroups.splice body).trans ((regroups_splicedAll body).trans (.symm (.splice _)))
  | launch kernel body => exact .launch (regroups_spliced body)
  | statement | copy | sync => exact .refl _

theorem regroups_splicedAll (nodes : List Node) : Regroups nodes (splicedAll nodes) := by
  cases nodes with
  | nil => exact .refl _
  | cons node rest =>
    have others := regroups_splicedAll rest
    cases node with
    | block body => exact .append ((Regroups.splice body).trans (regroups_splicedAll body)) others
    | _ => exact .append (regroups_spliced _) others

end

mutual

theorem isSpliced_spliced (node : Node) : node.spliced.isSpliced = true := by
  cases node with
  | loop iter init cond inc body => exact areSpliced_splicedAll body
  | branch cond thn els =>
    rw [spliced, isSpliced, areSpliced_splicedAll thn, areSpliced_splicedAll els, Bool.and_true]
  | block body => exact areSpliced_splicedAll body
  | launch kernel body => exact isSpliced_spliced body
  | statement | copy | sync => rfl

theorem areSpliced_splicedAll (nodes : List Node) : areSpliced (splicedAll nodes) = true := by
  cases nodes with
  | nil => rfl
  | cons node rest =>
    have others := areSpliced_splicedAll rest
    cases node with
    | block body =>
      rw [splicedAll, areSpliced_append, areSpliced_splicedAll body, others, Bool.and_true]
    | _ => exact Bool.and_eq_true_iff.mpr ⟨isSpliced_spliced _, others⟩

end

theorem anyCalls_append (fn : Builtin) (xs ys : List Node) :
    anyCalls fn (xs ++ ys) = (anyCalls fn xs || anyCalls fn ys) := by
  induction xs with
  | nil => rfl
  | cons node rest ih => simp only [List.cons_append, anyCalls, ih, Bool.or_assoc]

theorem anyCalls_singleton (fn : Builtin) (node : Node) : anyCalls fn [node] = node.calls fn :=
  Bool.or_false _

theorem copiedArraysOf_append (xs ys : List Node) :
    copiedArraysOf (xs ++ ys) = copiedArraysOf xs ++ copiedArraysOf ys := by
  induction xs with
  | nil => rfl
  | cons node rest ih => simp only [List.cons_append, copiedArraysOf, ih, List.append_assoc]

theorem copiedArraysOf_singleton (node : Node) : copiedArraysOf [node] = node.copiedArrays :=
  List.append_nil _

end Node

namespace Kernel

variable (job : Job) (kernel : Kernel)

theorem bodyOfAll_append (xs ys : List Node) :
    bodyOfAll job kernel (xs ++ ys) = (do
      let first ← bodyOfAll job kernel xs
      let others ← bodyOfAll job kernel ys
      return first ++ others) := by
  induction xs with
  | nil => simp only [List.nil_append, bodyOfAll, pure_bind, bind_pure]
  | cons node rest ih =>
    simp only [List.cons_append, bodyOfAll, ih, bind_assoc, pure_bind, List.append_assoc]

theorem bodyOfAll_singleton (node : Node) :
    bodyOfAll job kernel [node] = bodyOf job kernel node := by
  simp only [bodyOfAll, pure_bind, List.append_nil, bind_pure]

end Kernel

namespace HostCode

variable (job : Job)

theorem ofNodes_append (xs ys : List Node) :
    ofNodes job (xs ++ ys) = (do
      let first ← ofNodes job xs
      let others ← ofNodes job ys
      return ⟨first.stmts ++ others.stmts, first.kernels ++ others.kernels⟩) := by
  induction xs with
  | nil =>
    simp only [List.nil_append, ofNodes, pure_bind]
    exact (bind_pure _).symm
  | cons node rest ih =>
    simp only [List.cons_append, ofNodes, ih, bind_assoc, pure_bind, List.append_assoc]

theorem ofNodes_singleton (node : Node) : ofNodes job [node] = ofNode job node := by
  simp only [ofNodes, pure_bind, List.append_nil]
  exact bind_pure _

end HostCode

/-- Generation finds the same in two lists of nodes: the same host code and kernel bodies or
the same faults, the same calls of functions and the same copied arrays. -/
structure Interchangeable (job : Job) (xs ys : List Node) : Prop where
  code : HostCode.ofNodes job xs = HostCode.ofNodes job ys
  body : ∀ kernel, Kernel.bodyOfAll job kernel xs = Kernel.bodyOfAll job kernel ys
  calls : ∀ fn, Node.anyCalls fn xs = Node.anyCalls fn ys
  copied : Node.copiedArraysOf xs = Node.copiedArraysOf ys

namespace Interchangeable

variable {job : Job} {xs ys us vs : List Node}

theorem splice (body : List Node) : Interchangeable job [.block body] body where
  code := HostCode.ofNodes_singleton job (.block body)
  body kernel := Kernel.bodyOfAll_singleton job kernel (.block body)
  calls fn := Node.anyCalls_singleton fn (.block body)
  copied := Node.copiedArraysOf_singleton (.block body)

theorem append (first : Interchangeable job xs ys) (second : Interchangeable job us vs) :
    Interchangeable job (xs ++ us) (ys ++ vs) where
  code := by rw [HostCode.ofNodes_append, HostCode.ofNodes_append, first.code, second.code]
  body kernel := by
    rw [Kernel.bodyOfAll_append, Kernel.bodyOfAll_append, first.body, second.body]
  calls fn := by rw [Node.anyCalls_append, Node.anyCalls_append, first.calls, second.calls]
  copied := by
    rw [Node.copiedArraysOf_append, Node.copiedArraysOf_append, first.copied, second.copied]

theorem loop {iter : String} {init cond inc : Expr} (inside : Interchangeable job xs ys) :
    Interchangeable job [.loop iter init cond inc xs] [.loop iter init cond inc ys] where
  code := by simp only [HostCode.ofNodes_singleton, HostCode.ofNode, inside.code]
  body kernel := by simp only [Kernel.bodyOfAll_singleton, Kernel.bodyOf, inside.body]
  calls fn := by simp only [Node.anyCalls_singleton, Node.calls, inside.calls]
  copied := by simp only [Node.copiedArraysOf_singleton, Node.copiedArrays, inside.copied]

theorem branch {cond : Expr} (positive : Interchangeable job xs ys)
    (negative : Interchangeable job us vs) :
    Interchangeable job [.branch cond xs us] [.branch cond ys vs] where
  code := by simp only [HostCode.ofNodes_singleton, HostCode.ofNode, positive.code, negative.code]
  body kernel := by
    simp only [Kernel.bodyOfAll_singleton, Kernel.bodyOf, positive.body, negative.body]
  calls fn := by simp only [Node.anyCalls_singleton, Node.calls, positive.calls, negative.calls]
  copied := by
    simp only [Node.copiedArraysOf_singleton, Node.copiedArrays, positive.copied, negative.copied]

/-- A kernel is defined from its body alone. -/
theorem define {body other : Node} (inside : Interchangeable job [body] [other]) (kernel : Kernel)
    (args : List Argument) : kernel.define job args body = kernel.define job args other := by
  have stmts : Kernel.bodyOf job kernel body = Kernel.bodyOf job kernel other := by
    simpa only [Kernel.bodyOfAll_singleton] using inside.body kernel
  have calls : body.calls .floorDiv = other.calls .floorDiv := by
    simpa only [Node.anyCalls_singleton] using inside.calls .floorDiv
  have copied : body.copiedArrays = other.copiedArrays := by
    simpa only [Node.copiedArraysOf_singleton] using inside.copied
  simp only [Kernel.define, Kernel.needsFloorDiv, stmts, calls, copied]

theorem launch {kernel : Kernel} {body other : Node} (inside : Interchangeable job [body] [other]) :
    Interchangeable job [.launch kernel body] [.launch kernel other] where
  code := by
    simp only [HostCode.ofNodes_singleton, HostCode.ofNode, HostCode.ofLaunch, inside.define]
  body _ := rfl
  calls _ := rfl
  copied := rfl

/-- Blocks leave no trace in what generation finds. -/
theorem of_regroups (same : Node.Regroups xs ys) : Interchangeable job xs ys := by
  induction same with
  | splice body => exact splice body
  | refl nodes => exact ⟨rfl, fun _ => rfl, fun _ => rfl, rfl⟩
  | symm _ ih =>
    exact ⟨ih.code.symm, fun kernel => (ih.body kernel).symm, fun fn => (ih.calls fn).symm,
      ih.copied.symm⟩
  | trans _ _ ihFirst ihSecond =>
    exact ⟨ihFirst.code.trans ihSecond.code,
      fun kernel => (ihFirst.body kernel).trans (ihSecond.body kernel),
      fun fn => (ihFirst.calls fn).trans (ihSecond.calls fn),
      ihFirst.copied.trans ihSecond.copied⟩
  | append _ _ ihFirst ihSecond => exact ihFirst.append ihSecond
  | loop _ ih => exact ih.loop
  | branch _ _ ihPositive ihNegative => exact ihPositive.branch ihNegative
  | launch _ ih => exact ih.launch

theorem generate {tree other : Node} (same : Interchangeable job [tree] [other])
    (kernelPath headerName : String) :
    job.generate kernelPath headerName tree = job.generate kernelPath headerName other := by
  have code : HostCode.ofNode job tree = HostCode.ofNode job other := by
    simpa only [HostCode.ofNodes_singleton] using same.code
  have calls (fn : Builtin) : tree.calls fn = other.calls fn := by
    simpa only [Node.anyCalls_singleton] using same.calls fn
  simp only [Job.generate, code, HostProgram.file, HostProgram.helpers, Node.builtins, calls]

end Interchangeable

/-- Trees that differ in blocks only give the same report and the same files or fault. So it
makes no difference to put the children of all blocks in lists into their places, or to put a
block around the root or around the body of any kernel. -/
theorem blocks_transparent (job : Job) (kernelPath headerName : String) :
    (∀ tree other, Node.Regroups [tree] [other] →
      job.generate kernelPath headerName tree = job.generate kernelPath headerName other) ∧
      (∀ tree : Node, tree.spliced.isSpliced = true ∧
        job.generate kernelPath headerName tree.spliced =
          job.generate kernelPath headerName tree) ∧
      (∀ tree : Node, job.generate kernelPath headerName (.block [tree]) =
        job.generate kernelPath headerName tree) ∧
      ∀ (kernel : Kernel) (body : Node),
        Node.Regroups [.launch kernel (.block [body])] [.launch kernel body] := by
  have same {tree other : Node} (regroups : Node.Regroups [tree] [other]) :
      job.generate kernelPath headerName tree = job.generate kernelPath headerName other :=
    (Interchangeable.of_regroups regroups).generate kernelPath headerName
  refine ⟨fun _ _ => same, ?_, ?_, ?_⟩
  · intro tree
    exact ⟨tree.isSpliced_spliced, (same tree.regroups_spliced).symm⟩
  · exact fun tree => same (.splice [tree])
  · exact fun kernel body => .launch (.splice [body])

namespace Sample

/-- The sample tree with blocks around the root, in lists and in the body of a kernel. -/
def nested : Node :=
  .block [.block [], .block [.loop "t" (.lit 0) (.bin .lt (.var "t") (.var "N")) (.lit 1) [
    .block [.launch scale (.block [
      .block [.block [.copy ⟨"staged", "A", .read, [.var "t0"], [.var "b0"]⟩], .sync]])],
    .branch (.bin .gt (.var "t") (.lit 2)) [
      .block [.launch reduce (.statement "S" "sum += A[t];")]] [.block []]]]]

end Sample

/-- The nested sample gives the files of the plain one. -/
theorem blocks_transparent_in_sample :
    ∃ files, (Sample.job.generate "code.cl" "code.h" Sample.tree).result = .ok files ∧
      (Sample.job.generate "code.cl" "code.h" Sample.nested).result = .ok files := by
  obtain ⟨files, generated⟩ := Sample.exists_files
  obtain ⟨regrouped, _⟩ := blocks_transparent Sample.job "code.cl" "code.h"
  have same : Node.Regroups [Sample.nested] [Sample.tree] :=
    (Node.regroups_spliced Sample.nested).trans (.splice [Sample.tree])
  exact ⟨files, generated, regrouped _ _ same ▸ generated⟩

end Offload
