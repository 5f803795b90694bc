import Offload.Proofs.Buffer.Guard
import Offload.Proofs.Code.Symbols
import Offload.Proofs.Host.Execution

namespace Offload

open Code
open Offload.Expr (CalledIn calledIn_append calledIn_singleton calls_iff_mem_subterms)

private theorem Builtin.definedName?_definition (fn : Builtin) :
    definedName? fn.definition = some fn.name := by
  cases fn <;> rfl

/-- The definition of a helper defines its name and no other helper. -/
theorem Builtin.introduces_definition {fn other : Builtin} :
    (Item.define other.definition).introduces fn = (other == fn) := by
  rw [Item.introduces, definedName?_definition]
  cases fn <;> cases other <;> rfl

private theorem Builtin.mem_all (fn : Builtin) : fn ∈ Builtin.all := by
  cases fn <;> decide

section Guard

variable {fn : Builtin}

private theorem Region.calls_foldl_bin (op : Operator) (first : Expr) (rest : List Expr) :
    (rest.foldl (Expr.bin op) first).calls fn = (first.calls fn || rest.any (Expr.calls fn)) := by
  induction rest generalizing first with
  | nil => simp
  | cons e rest ih => rw [List.foldl_cons, ih, Expr.calls, List.any_cons, Bool.or_assoc]

private theorem Region.calls_joined (op : Operator) (unit : Int) (es : List Expr) :
    (joined op unit es).calls fn = es.any (Expr.calls fn) := by
  cases es with
  | nil => rfl
  | cons first rest => rw [joined, calls_foldl_bin, List.any_cons]

/-- The condition of a region calls what its constraints call. -/
theorem Region.calls_condition {region : Region} :
    region.condition.calls fn = true ↔
      ∃ piece ∈ region.pieces, ∃ constraint ∈ piece, constraint.calls fn = true := by
  simp only [condition, calls_joined, List.any_map, List.any_eq_true, Function.comp]

private theorem ArrayDecl.calls_of_extentGuard {extent guard : Expr}
    (guarded : extentGuard extent = some guard) (called : guard.calls fn = true) :
    extent.calls fn = true := by
  cases extent with
  | lit n =>
    by_cases positive : 0 < n
    · simp [extentGuard, Expr.literal?, positive] at guarded
    · obtain rfl : Expr.lit 0 = guard := by
        simpa [extentGuard, Expr.literal?, positive] using guarded
      cases called
  | _ =>
    cases guarded
    simpa only [Expr.calls, Bool.or_false] using called

/-- The test around the reading of a buffer calls nothing but what the extents call. -/
theorem ArrayDecl.calledIn_of_gist {array : ArrayDecl} {context : Region}
    (called : (array.sizeGuard.gist context).condition.calls fn = true) :
    CalledIn fn array.extents := by
  obtain ⟨simple, member, constraint, inside, calls⟩ := Region.calls_condition.mp called
  obtain ⟨piece, listed, kept⟩ := Region.exists_of_mem_gist member inside
  obtain ⟨extent, declared, guarded⟩ := (mem_sizeGuard listed).mp kept
  exact ⟨extent, declared, calls_iff_mem_subterms.mp (calls_of_extentGuard guarded calls)⟩

end Guard

section Launch

private theorem Geometry.symbolsOf_globalSizes (grid : List Expr) (block : List Int) :
    Term.symbolsOf (globalSizes grid block) = grid := by
  fun_induction globalSizes grid block with
  | case1 block => simp [Term.symbolsOf_eq_flatMap, List.flatMap_map, Term.symbols]
  | case2 grid _ => simp [Term.symbolsOf_eq_flatMap, List.flatMap_map, Term.symbols]
  | case3 g grid b block ih => exact congrArg (g :: ·) ih

theorem Geometry.calleesOf_globalSizes (grid : List Expr) (block : List Int) :
    Term.calleesOf (globalSizes grid block) = [] := by
  fun_induction globalSizes grid block with
  | case1 block => simp [Term.calleesOf_eq_flatMap, List.flatMap_map, Term.callees]
  | case2 grid _ => simp [Term.calleesOf_eq_flatMap, List.flatMap_map, Term.callees]
  | case3 g grid b block ih => exact ih

private theorem HostCode.mem_gridSize_of_launchBody {kernel : Kernel} {args : List Argument}
    {e : Expr} (member : e ∈ Code.symbolsOf
      (launchBody kernel args (.ofSizes kernel.gridSize kernel.blockSize))) :
    e ∈ kernel.gridSize := by
  rw [symbolsOf_of_isSimple (isSimple_launchBody ..)] at member
  obtain ⟨stmt, inside, found⟩ := List.mem_flatMap.mp member
  rcases launchBody_cases inside with
    ⟨⟨kind, _, _⟩, _, _, rfl⟩ | rfl | rfl | rfl | rfl | rfl | rfl | rfl
  · cases kind <;> cases found
  · simp only [Stmt.terms, Geometry.ofSizes] at found
    split at found
    · cases found
    · rwa [Geometry.symbolsOf_globalSizes] at found
  · rw [Stmt.terms, Term.symbolsOf_eq_flatMap, List.flatMap_map] at found
    obtain ⟨_, _, symbol⟩ := List.mem_flatMap.mp found
    cases symbol
  all_goals cases found

/-- The code of the tree holds no other symbolic expressions than the tree. -/
theorem Emits.mem_symbols {job : Job} {nodes : List Node} {code : HostCode}
    (emits : Emits job nodes code) {e : Expr} (member : e ∈ Code.symbolsOf code.stmts) :
    e ∈ Node.symbolsOf nodes := by
  induction emits with
  | nil => exact member
  | cons _ _ ihHead ihTail =>
    rw [symbolsOf_append] at member
    rcases List.mem_append.mp member with here | later
    · exact List.mem_append_left _ (by simpa [Node.symbolsOf] using ihHead here)
    · exact List.mem_append_right _ (ihTail later)
  | loop _ ih =>
    simp only [Code.symbolsOf, Stmt.symbols, Node.symbolsOf, Node.symbols, List.append_nil,
      List.mem_append] at member ⊢
    exact member.imp_right ih
  | branch _ _ ihPositive ihNegative =>
    simp only [Code.symbolsOf, Stmt.symbols, Node.symbolsOf, Node.symbols, List.append_nil,
      List.mem_cons, List.mem_append] at member ⊢
    exact member.imp_right (Or.imp ihPositive ihNegative)
  | block _ ih => simpa [Node.symbolsOf, Node.symbols] using ih member
  | statement => cases member
  | launch _ _ =>
    simp only [Code.symbolsOf, Stmt.symbols, Node.symbolsOf, Node.symbols,
      List.append_nil] at member ⊢
    exact HostCode.mem_gridSize_of_launchBody member

end Launch

namespace HostProgram

/-- Where the symbolic expressions of the host program come from: the tree, the extents,
and the tests around the reading of buffers. -/
inductive Symbol (job : Job) (tree : Node) : Expr → Prop where
  | tree {e : Expr} (member : e ∈ tree.symbols) : Symbol job tree e
  | extent {array : ArrayDecl} {e : Expr} (listed : array ∈ job.program.arrays)
      (member : e ∈ array.extents) : Symbol job tree e
  | guard {array : ArrayDecl} (listed : array ∈ job.program.arrays) :
      Symbol job tree (job.algebra.gist array.sizeGuard job.program.context).condition

section Body

variable {job : Job} {tree : Node} {e : Expr}

private theorem symbols_byteSize (array : ArrayDecl) :
    (Buffer.byteSize array).symbols = array.extents :=
  rfl

private theorem symbols_hostData (array : ArrayDecl) :
    (Buffer.hostData job array).symbols = [] := by
  unfold Buffer.hostData
  split <;> rfl

private theorem symbols_allocationSize (array : ArrayDecl) :
    (Buffer.allocationSize job array).symbols = array.extents := by
  unfold Buffer.allocationSize
  split
  · rfl
  · simp [Term.symbols, Term.symbolsOf, symbols_byteSize]

private theorem symbols_create (array : ArrayDecl) (initialCopy : Bool) :
    (Buffer.create job array initialCopy).symbols = array.extents := by
  cases initialCopy <;>
    simp [Buffer.create, Stmt.symbols, Code.symbolsOf, Stmt.terms, Stmt.checkErr, Term.symbols,
      Term.symbolsOf, Term.errAddress, symbols_allocationSize, symbols_hostData]

private theorem symbols_readBack (array : ArrayDecl) :
    (Buffer.readBack job array).symbols = array.extents := by
  simp [Buffer.readBack, Stmt.checkCall, Stmt.symbols, Stmt.terms, Term.symbols,
    Term.symbolsOf, symbols_byteSize, symbols_hostData]

private theorem symbol_of_copyBack {array : ArrayDecl} (listed : array ∈ job.program.arrays)
    (member : e ∈ (Buffer.copyBack job array).symbols) : Symbol job tree e := by
  simp only [Buffer.copyBack] at member
  split at member
  · rw [symbols_readBack] at member
    exact .extent listed member
  · simp only [Stmt.symbols, Code.symbolsOf, symbols_readBack, List.append_nil,
      List.mem_cons] at member
    rcases member with rfl | inside
    · exact .guard listed
    · exact .extent listed inside

/-- The host program holds no other symbolic expressions. -/
theorem symbol_of_body {code : HostCode} (emits : Emits job [tree] code) {kernelPath : String}
    (member : e ∈ Code.symbolsOf (body job kernelPath (Buffer.createAll job) code.stmts)) :
    Symbol job tree e := by
  have declares : Code.symbolsOf (Buffer.declareAll job) = [] := by
    simp [Buffer.declareAll, symbolsOf_map, Stmt.symbols, Stmt.terms, Term.symbolsOf]
  have releases : Code.symbolsOf (Buffer.releaseAll job) = [] := by
    simp [Buffer.releaseAll, symbolsOf_map, Stmt.symbols, Code.symbolsOf, Stmt.terms,
      Stmt.checkCall, Term.symbols, Term.symbolsOf]
  have setUp : Code.symbolsOf (setUp job.options kernelPath) = [] := rfl
  have release : Code.symbolsOf release = [] := rfl
  have blank : Code.symbolsOf [.blank] = [] := rfl
  simp only [body, symbolsOf_append, declares, setUp, blank, releases, release, List.nil_append,
    List.append_nil, List.mem_append] at member
  rcases member with (created | emitted) | copied
  · rw [Buffer.createAll, symbolsOf_map] at created
    obtain ⟨array, listed, inside⟩ := List.mem_flatMap.mp created
    rw [symbols_create] at inside
    exact .extent (List.mem_filter.mp listed).1 inside
  · exact .tree (by simpa [Node.symbolsOf] using emits.mem_symbols emitted)
  · rw [Buffer.copyBackAll, symbolsOf_map] at copied
    obtain ⟨array, listed, inside⟩ := List.mem_flatMap.mp copied
    exact symbol_of_copyBack (List.mem_filter.mp (List.mem_filter.mp listed).1).1 inside

end Body

section Callees

variable {job : Job}

/-- What the host program calls by name besides its own helpers. -/
def interface : List String :=
  ["opencl_create_device", "clCreateContext", "clCreateCommandQueue", "opencl_build_program",
    "clCreateBuffer", "clCreateKernel", "clSetKernelArg", "clEnqueueNDRangeKernel", "clFinish",
    "clReleaseKernel", "clEnqueueReadBuffer", "clReleaseMemObject", "clReleaseCommandQueue",
    "clReleaseProgram", "clReleaseContext"]

theorem callees_hostData (array : ArrayDecl) : (Buffer.hostData job array).callees = [] := by
  unfold Buffer.hostData
  split <;> rfl

theorem callees_create (array : ArrayDecl) (initialCopy : Bool) :
    calleesOf [Buffer.create job array initialCopy] =
      "clCreateBuffer" :: (Buffer.allocationSize job array).callees := by
  cases initialCopy <;>
    simp [calleesOf, leavesOf, Stmt.leaves, Buffer.create, Stmt.terms, Stmt.checkErr,
      Term.callees, Term.calleesOf, Term.errAddress, callees_hostData]

theorem callees_readBack (array : ArrayDecl) :
    Term.calleesOf (Buffer.readBack job array).terms = ["clEnqueueReadBuffer"] := by
  simp [Buffer.readBack, Buffer.byteSize, Stmt.checkCall, Stmt.terms, Term.callees,
    Term.calleesOf, callees_hostData]

theorem callees_copyBack (array : ArrayDecl) :
    calleesOf [Buffer.copyBack job array] = ["clEnqueueReadBuffer"] := by
  have read := @callees_readBack job array
  have leaves : (Buffer.readBack job array).leaves = [Buffer.readBack job array] := rfl
  rcases Buffer.copyBack_cases job array with same | ⟨cond, same⟩
  · simp [same, calleesOf, leavesOf, leaves, read]
  · simp [same, calleesOf, leavesOf, Stmt.leaves, leaves, read]

private theorem callee_of_emitted {nodes : List Node} {code : HostCode}
    (emits : Emits job nodes code)
    {name : String} (member : name ∈ calleesOf code.stmts) : name ∈ interface := by
  obtain ⟨stmt, leaf, called⟩ := List.mem_flatMap.mp member
  rcases emits.leaf_cases leaf with ⟨_, _, _, rfl⟩ | ⟨kernel, args, _, inside⟩
  · cases called
  · rcases HostCode.launchBody_cases inside with
      ⟨⟨kind, _, _⟩, _, _, rfl⟩ | rfl | rfl | rfl | rfl | rfl | rfl | rfl
    · obtain rfl : name = "clSetKernelArg" := by cases kind <;> exact List.mem_singleton.mp called
      decide
    · simp only [Stmt.terms, Geometry.ofSizes] at called
      split at called
      · cases called
      · rw [Geometry.calleesOf_globalSizes] at called
        cases called
    · rw [Stmt.terms, Term.calleesOf_eq_flatMap, List.flatMap_map] at called
      obtain ⟨_, _, callee⟩ := List.mem_flatMap.mp called
      cases callee
    · rw [List.mem_singleton.mp called]
      decide
    · cases called
    all_goals
      rw [List.mem_singleton.mp called]
      decide

/-- The host program calls functions of the interface, and the helper that bounds sizes. -/
theorem callee_of_body {tree : Node} {code : HostCode} (emits : Emits job [tree] code)
    {kernelPath name : String}
    (member : name ∈ calleesOf (body job kernelPath (Buffer.createAll job) code.stmts)) :
    name = Builtin.max.name ∨ name ∈ interface := by
  have declares : calleesOf (Buffer.declareAll job) = [] := by
    rw [Buffer.declareAll, calleesOf_map]
    exact List.flatMap_eq_nil_iff.mpr fun _ _ => rfl
  have blank : calleesOf [.blank] = [] := rfl
  simp only [body, calleesOf_append, declares, blank, List.nil_append, List.append_nil,
    List.mem_append] at member
  rcases member with ((((atStart | created) | emitted) | copied) | released) | atEnd
  · have calls : ∀ fn ∈ ["opencl_create_device", "clCreateContext", "clCreateCommandQueue",
        "opencl_build_program"], fn ∈ interface := by decide
    exact .inr (calls name atStart)
  · rw [Buffer.createAll, calleesOf_map] at created
    obtain ⟨array, _, called⟩ := List.mem_flatMap.mp created
    rw [callees_create, List.mem_cons] at called
    rcases called with rfl | bound
    · exact .inr (by decide)
    · unfold Buffer.allocationSize at bound
      split at bound
      · cases bound
      · exact .inl (List.mem_singleton.mp bound)
  · exact .inr (callee_of_emitted emits emitted)
  · rw [Buffer.copyBackAll, calleesOf_map] at copied
    obtain ⟨array, _, called⟩ := List.mem_flatMap.mp copied
    rw [callees_copyBack] at called
    exact .inr (List.mem_singleton.mp called ▸ by decide)
  · rw [Buffer.releaseAll, calleesOf_map] at released
    obtain ⟨array, _, called⟩ := List.mem_flatMap.mp released
    obtain rfl : name = "clReleaseMemObject" := List.mem_singleton.mp called
    exact .inr (by decide)
  · have calls : ∀ fn ∈ ["clReleaseCommandQueue", "clReleaseProgram", "clReleaseContext"],
        fn ∈ interface := by decide
    exact .inr (calls name atEnd)

end Callees

section Helpers

variable {job : Job} {program : Program} {tree : Node} {fn : Builtin}

/-- An expression of the tree or an extent calls the helper. -/
def Needs (program : Program) (tree : Node) (fn : Builtin) : Prop :=
  CalledIn fn tree.symbols ∨ ∃ array ∈ program.arrays, CalledIn fn array.extents

theorem mem_builtins_iff_needs :
    fn ∈ tree.builtins (Expr.builtins (program.arrays.flatMap (·.extents))) ↔
      Needs program tree fn := by
  have extents : CalledIn fn (program.arrays.flatMap (·.extents)) ↔
      ∃ array ∈ program.arrays, CalledIn fn array.extents := by
    simp only [CalledIn, List.mem_flatMap]
    grind
  simp only [Node.builtins, Expr.builtins, List.mem_filter, Builtin.mem_all, true_and,
    Bool.or_eq_true, List.contains_iff_mem, Expr.anyCalls_iff_calledIn, extents,
    Node.calls_iff_calledIn, Needs]
  exact or_comm

private theorem nodup_builtins (needed : List Builtin) : (tree.builtins needed).Nodup :=
  List.Pairwise.filter _ (by decide)

/-- Whatever stands in the lines after the first one. -/
theorem definedName?_checkReturn (second third fourth fifth sixth : String) :
    definedName? ("#define openclCheckReturn(ret) \\\n" ++ second ++ third ++ fourth ++ fifth ++
      sixth) = some "openclCheckReturn" := by
  rw [definedName?, String.toList_append, String.toList_append, String.toList_append,
    String.toList_append, String.toList_append]
  rfl

private theorem introduces_checkDefinition :
    (Item.define checkDefinition).introduces fn = false := by
  have name : definedName? checkDefinition = some "openclCheckReturn" :=
    definedName?_checkReturn ..
  rw [Item.introduces, name]
  cases fn <;> decide

/-- The maximum is defined once, and any other helper once if it is needed. -/
theorem countP_helpers :
    (helpers program tree).countP (Item.introduces fn) =
      if fn = .max ∨ fn ∈ tree.builtins (Expr.builtins (program.arrays.flatMap (·.extents)))
      then 1 else 0 := by
  generalize needed : tree.builtins (Expr.builtins (program.arrays.flatMap (·.extents))) = fns
  have distinct : (fns.filter (· != .max)).Nodup :=
    List.Pairwise.filter _ (needed ▸ nodup_builtins _)
  have always : [Item.define checkDefinition, .blank, .define Builtin.max.definition].countP
      (Item.introduces fn) = if fn = .max then 1 else 0 := by
    rw [List.countP_cons, introduces_checkDefinition, List.countP_cons, List.countP_cons,
      Builtin.introduces_definition]
    cases fn <;> rfl
  have others : ((fns.filter (· != .max)).map fun fn => Item.define fn.definition).countP
      (Item.introduces fn) = (fns.filter (· != .max)).count fn := by
    rw [List.countP_map, List.count]
    exact List.countP_congr fun other _ => by rw [Function.comp, Builtin.introduces_definition]
  rw [helpers, needed, List.countP_append, always, others, distinct.count]
  by_cases max : fn = .max
  · simp [max]
  · simp [max, List.mem_filter]

/-- What the code of the tree calls is needed. -/
theorem needs_of_calls (plain : job.algebra = .syntactic) {code : HostCode}
    (emits : Emits job [tree] code) {kernelPath : String} {item : Item}
    (same : item.body = body job kernelPath (Buffer.createAll job) code.stmts)
    (calls : item.Calls fn) : fn = .max ∨ Needs job.program tree fn := by
  rw [Item.Calls, same] at calls
  rcases calls with ⟨e, member, args, found⟩ | called
  · right
    cases symbol_of_body emits member with
    | tree listed => exact .inl ⟨e, listed, args, found⟩
    | extent listed inside => exact .inr ⟨_, listed, e, inside, args, found⟩
    | guard listed =>
      rw [plain] at found
      have called := calls_iff_mem_subterms.mpr ⟨args, found⟩
      exact .inr ⟨_, listed, ArrayDecl.calledIn_of_gist called⟩
  · left
    rcases callee_of_body emits called with max | api
    · cases fn with
      | max => rfl
      | min | floorDiv => exact absurd max (by decide)
    · cases fn <;> exact absurd api (by decide)

/-- Each helper is defined once before the code that calls it. Apart from the maximum,
which is always there, a helper is defined only if it is needed. -/
structure Helped (program : Program) (tree : Node) (file : File) : Prop where
  complete : ∀ fn before item after, file = before ++ item :: after → item.Calls fn →
    before.countP (Item.introduces fn) = 1
  needed : ∀ fn, fn ≠ .max →
    ((∃ item ∈ file, item.introduces fn = true) ↔ Needs program tree fn)
  /-- Besides the helpers only the check of results is defined, each by its own text. -/
  defined : ∀ line, Item.define line ∈ file →
    line = checkDefinition ∨ ∃ fn : Builtin, line = fn.definition

private theorem define_of_helpers {line : String}
    (member : Item.define line ∈ helpers program tree) :
    line = checkDefinition ∨ ∃ fn : Builtin, line = fn.definition := by
  rcases List.mem_append.mp member with always | other
  · simp only [List.mem_cons, Item.define.injEq, reduceCtorEq, List.not_mem_nil, or_false,
      false_or] at always
    exact always.imp_right fun max => ⟨.max, max⟩
  · obtain ⟨fn, _, same⟩ := List.mem_map.mp other
    cases same
    exact .inr ⟨fn, rfl⟩

private theorem define_of_file {headerName line : String} {stmts : List Stmt}
    (member : Item.define line ∈ file job headerName tree stmts) :
    line = checkDefinition ∨ ∃ fn : Builtin, line = fn.definition := by
  rcases List.mem_append.mp member with opening | last
  · rcases List.mem_append.mp opening with included | helper
    · simp at included
    · exact define_of_helpers helper
  · have same := List.mem_singleton.mp last
    cases function : job.options.hostFunction <;> rw [function] at same <;> cases same

/-- The code of the host file is its last item, and only helpers stand before it. -/
theorem exists_opening (job : Job) (headerName : String) (tree : Node) (stmts : List Stmt) :
    ∃ opening last, file job headerName tree stmts = opening ++ [last] ∧
      last.body = stmts ∧ (∀ fn, last.introduces fn = false) ∧
      (∀ item ∈ opening, item.body = []) ∧
      ∀ fn, opening.countP (Item.introduces fn) =
        (helpers job.program tree).countP (Item.introduces fn) := by
  refine ⟨_, _, rfl, ?_, ?_, ?_, ?_⟩
  · cases job.options.hostFunction <;> rfl
  · cases job.options.hostFunction <;> exact fun _ => rfl
  · intro item member
    rcases List.mem_append.mp member with included | helper
    · simp only [List.mem_cons, List.not_mem_nil, or_false] at included
      rcases included with rfl | rfl | rfl | rfl <;> rfl
    · rcases List.mem_append.mp helper with always | other
      · simp only [List.mem_cons, List.not_mem_nil, or_false] at always
        rcases always with rfl | rfl | rfl <;> rfl
      · obtain ⟨fn, _, rfl⟩ := List.mem_map.mp other
        rfl
  · intro fn
    rw [List.countP_append]
    exact Nat.zero_add _

/-- An item that calls something is the last one, if nothing is called before it. -/
theorem eq_of_calls {opening before after : File} {last item : Item}
    (quiet : ∀ other ∈ opening, other.body = [])
    (split : opening ++ [last] = before ++ item :: after) (calls : item.Calls fn) :
    before = opening ∧ item = last := by
  rcases List.append_eq_append_iff.mp split with ⟨part, rfl, rest⟩ | ⟨part, rfl, rest⟩
  · cases part with
    | nil =>
      cases rest
      exact ⟨List.append_nil opening, rfl⟩
    | cons first others => simp at rest
  · cases part with
    | nil =>
      cases rest
      exact ⟨(List.append_nil before).symm, rfl⟩
    | cons first others =>
      cases rest
      exact absurd calls (Item.not_calls_of_body (quiet item (by simp)))

theorem helped_file (plain : job.algebra = .syntactic) {code : HostCode}
    (emits : Emits job [tree] code) (kernelPath headerName : String) :
    Helped job.program tree (file job headerName tree
      (body job kernelPath (Buffer.createAll job) code.stmts)) := by
  obtain ⟨opening, last, whole, same, other, quiet, counted⟩ := exists_opening job headerName tree
    (body job kernelPath (Buffer.createAll job) code.stmts)
  refine ⟨?_, ?_, fun _ => define_of_file⟩
  all_goals rw [whole]
  · intro fn before item after split calls
    obtain ⟨rfl, rfl⟩ := eq_of_calls quiet split calls
    have needed := needs_of_calls plain emits same calls
    rw [counted, countP_helpers, if_pos (needed.imp_right mem_builtins_iff_needs.mpr)]
  · intro fn different
    have present : (∃ item ∈ opening ++ [last], item.introduces fn = true) ↔
        0 < opening.countP (Item.introduces fn) := by
      rw [List.countP_pos_iff]
      simp [other]
    rw [present, counted, countP_helpers, ← mem_builtins_iff_needs]
    split
    · rename_i needed
      exact ⟨fun _ => needed.resolve_left different, fun _ => Nat.one_pos⟩
    · rename_i unneeded
      exact ⟨nofun, fun needed => absurd (.inr needed) unneeded⟩

end Helpers

end HostProgram

end Offload
