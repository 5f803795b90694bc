import Offload.Proofs.Host.Checking

/-! The two sides of a launch. The host code binds, one by one, the parameters that
the kernel definition declares, and finds the definition by its name. -/

namespace Offload

open Code

mutual

/-- The launches of a tree, in preorder, each with the body of its kernel. -/
def Node.launches : Node → List (Kernel × Node)
  | .loop _ _ _ _ body | .block body => Node.launchesOf body
  | .branch _ thn els => Node.launchesOf thn ++ Node.launchesOf els
  | .launch kernel body => [(kernel, body)]
  | .statement .. | .copy _ | .sync => []

def Node.launchesOf : List Node → List (Kernel × Node)
  | [] => []
  | node :: rest => node.launches ++ Node.launchesOf rest

end

namespace Code

/-- The variable and the name of a kernel object that the statement creates. -/
def Stmt.createdKernel? : Stmt → Option (String × String)
  | .define .clKernel [(object, .call "clCreateKernel" [_, .str name, _])] => some (object, name)
  | _ => none

/-- Whether the statement binds an argument of a kernel object. -/
def Stmt.bindsArgument : Stmt → Bool
  | .check (.call fn _) => fn == "clSetKernelArg"
  | _ => false

mutual

/-- The scopes that create a kernel object, in the order of the text. -/
def Stmt.launchScopes : Stmt → List (List Stmt)
  | .loop _ _ _ _ _ body => launchScopesOf body
  | .branch _ thn els => launchScopesOf thn ++ launchScopesOf els
  | .scope body =>
    if body.any (·.createdKernel?.isSome) then [body] else launchScopesOf body
  | _ => []

def launchScopesOf : List Stmt → List (List Stmt)
  | [] => []
  | stmt :: rest => stmt.launchScopes ++ launchScopesOf rest

end

def Item.isFunction : Item → Bool
  | .defineFn .. => true
  | _ => false

def Item.defines (name : String) : Item → Bool
  | .defineFn _ _ defined _ _ => defined == name
  | _ => false

/-- Binds what the parameter declares to its position: the buffer of the array for a
global pointer, and the value itself otherwise. -/
def Param.binding (kernel : String) (param : Param) (position : Nat) : Stmt :=
  match param.type with
  | .pointer _ .global =>
    .checkCall "clSetKernelArg" [.var kernel, .int position, .sizeOf .clMem,
      .voidPointer (.addressOf (.var ("dev_" ++ param.name)))]
  | type =>
    .checkCall "clSetKernelArg" [.var kernel, .int position, .sizeOf type,
      .addressOf (.var param.name)]

end Code

/-- A launch as it stands in the tree, in the host code and in the kernel module. -/
structure LaunchSite where
  kernel : Kernel
  body : Node
  scope : List Stmt
  definition : KernelDef

/-- The scope creates one kernel object, by the name of the definition, and binds
the parameters of the definition in order. It calls the functions for it in no other
statement. -/
structure LaunchSite.Agrees (job : Job) (site : LaunchSite) : Prop where
  named : site.definition.name = site.kernel.name
  defined : ∃ args, site.kernel.arguments job = .ok args ∧
    site.kernel.define job args site.body = .ok site.definition
  created : site.scope.filterMap Stmt.createdKernel? =
    [(site.definition.name, site.definition.name)]
  bound : site.scope.filter Stmt.bindsArgument =
    site.definition.params.zipIdx.map fun (param, position) =>
      param.binding site.definition.name position
  known : ∀ stmt ∈ site.scope,
    stmt.callCount "clCreateKernel" = stmt.createdKernel?.isSome.toNat ∧
      stmt.callCount "clSetKernelArg" = stmt.bindsArgument.toNat

namespace Argument

/-- Arguments that are passed by value are no global pointers. -/
theorem type_ne_pointer {job : Job} {kernel : Kernel} {args : List Argument}
    (receives : kernel.arguments job = .ok args) {arg : Argument} (member : arg ∈ args)
    (target : Ty) (memory : Memory) : arg.type ≠ .pointer target memory := by
  rw [Kernel.arguments_eq_ok receives] at member
  simp only [List.mem_append, List.mem_map] at member
  rcases member with (⟨array, _, rfl⟩ | ⟨name, _, rfl⟩) | ⟨name, _, rfl⟩
  · exact nofun
  · exact nofun
  · exact nofun

private theorem bind_eq_binding {arg : Argument}
    (plain : ∀ target memory, arg.type ≠ .pointer target memory) (kernel : String)
    (position : Nat) : arg.bind kernel position = arg.param.binding kernel position := by
  rcases arg with ⟨kind, name, type⟩
  cases kind with
  | buffer => rfl
  | readOnlyScalar | parameter | iterator =>
    cases type with
    | pointer target memory => exact absurd rfl (plain target memory)
    | _ => rfl

private theorem bindAll_eq_binding {args : List Argument}
    (plain : ∀ arg ∈ args, ∀ target memory, arg.type ≠ .pointer target memory)
    (kernel : String) :
    bindAll kernel args = (args.map param).zipIdx.map fun (param, position) =>
      param.binding kernel position := by
  rw [bindAll, List.zipIdx_map, List.map_map]
  apply List.map_congr_left
  rintro ⟨arg, position⟩ member
  exact bind_eq_binding (plain arg (List.fst_mem_of_mem_zipIdx member)) kernel position

end Argument

section Launch

variable {job : Job} {kernel : Kernel} {body : Node} {args : List Argument}
  {definition : KernelDef}

private theorem bindsArgument_bind (name : String) (arg : Argument) (position : Nat) :
    (arg.bind name position).bindsArgument = true := by
  rcases arg with ⟨kind, _, _⟩
  cases kind <;> rfl

private theorem createdKernel?_bind (name : String) (arg : Argument) (position : Nat) :
    (arg.bind name position).createdKernel? = none := by
  rcases arg with ⟨kind, _, _⟩
  cases kind <;> rfl

private theorem filter_launchBody (kernel : Kernel) (args : List Argument) (geometry : Geometry) :
    (HostCode.launchBody kernel args geometry).filter Stmt.bindsArgument =
      Argument.bindAll kernel.name args := by
  have all : ∀ stmt ∈ Argument.bindAll kernel.name args, stmt.bindsArgument = true := by
    intro stmt member
    obtain ⟨⟨arg, position⟩, _, rfl⟩ := List.mem_map.mp member
    exact bindsArgument_bind kernel.name arg position
  simp [HostCode.launchBody, List.filter_append, List.filter_eq_self.mpr all, Stmt.bindsArgument,
    Stmt.checkCall, Stmt.checkErr]

theorem created_launchBody (kernel : Kernel) (args : List Argument) (geometry : Geometry) :
    (HostCode.launchBody kernel args geometry).filterMap Stmt.createdKernel? =
      [(kernel.name, kernel.name)] := by
  have none : (Argument.bindAll kernel.name args).filterMap Stmt.createdKernel? = [] := by
    apply List.filterMap_eq_nil_iff.mpr
    intro stmt member
    obtain ⟨⟨arg, position⟩, _, rfl⟩ := List.mem_map.mp member
    exact createdKernel?_bind kernel.name arg position
  rw [HostCode.launchBody, List.filterMap_append, List.filterMap_append, none]
  rfl

private theorem callCount_of_launchBody {stmt : Stmt}
    (member : stmt ∈ HostCode.launchBody kernel args (.ofSizes kernel.gridSize kernel.blockSize)) :
    stmt.callCount "clCreateKernel" = stmt.createdKernel?.isSome.toNat ∧
      stmt.callCount "clSetKernelArg" = stmt.bindsArgument.toNat := by
  rcases HostCode.launchBody_cases member with
    ⟨⟨kind, _, _⟩, _, position, rfl⟩ | rfl | rfl | rfl | rfl | rfl | rfl | rfl
  · cases kind <;> exact ⟨rfl, rfl⟩
  · rw [Stmt.callCount, Stmt.callCount, Stmt.terms, Geometry.calleesOf_global]
    exact ⟨rfl, rfl⟩
  · rw [Stmt.callCount, Stmt.callCount, Stmt.terms, Geometry.calleesOf_group]
    exact ⟨rfl, rfl⟩
  all_goals exact ⟨rfl, rfl⟩

theorem agrees_of_launch (receives : kernel.arguments job = .ok args)
    (defines : kernel.define job args body = .ok definition) :
    LaunchSite.Agrees job ⟨kernel, body,
      HostCode.launchBody kernel args (.ofSizes kernel.gridSize kernel.blockSize), definition⟩ := by
  obtain ⟨_, _, _, _, same⟩ := Kernel.define_eq_ok defines
  have name : definition.name = kernel.name := by rw [same]
  have params : definition.params = args.map Argument.param := by rw [same]
  refine ⟨name, ⟨args, receives, defines⟩, ?_, ?_, fun _ => callCount_of_launchBody⟩
  · rw [name]
    exact created_launchBody kernel args _
  · rw [name, params, filter_launchBody]
    exact Argument.bindAll_eq_binding (fun _ => Argument.type_ne_pointer receives) kernel.name

end Launch

theorem launchScopesOf_append (first second : List Stmt) :
    launchScopesOf (first ++ second) = launchScopesOf first ++ launchScopesOf second := by
  induction first with
  | nil => rfl
  | cons stmt rest ih => simp [launchScopesOf, ih]

private theorem launchesOf_append (first second : List Node) :
    Node.launchesOf (first ++ second) = Node.launchesOf first ++ Node.launchesOf second := by
  induction first with
  | nil => rfl
  | cons node rest ih => simp [Node.launchesOf, ih]

theorem launchScopesOf_scope {body : List Stmt} {created : String × String}
    (creates : body.filterMap Stmt.createdKernel? = [created]) :
    launchScopesOf [.scope body] = [body] := by
  have member : created ∈ body.filterMap Stmt.createdKernel? := by simp [creates]
  obtain ⟨stmt, inside, found⟩ := List.mem_filterMap.mp member
  have any : body.any (·.createdKernel?.isSome) = true :=
    List.any_eq_true.mpr ⟨stmt, inside, by simp [found]⟩
  simp [launchScopesOf, Stmt.launchScopes, any]

/-- Launches, scopes and definitions that belong together, one by one. -/
structure Sited (job : Job) (launches : List (Kernel × Node)) (scopes : List (List Stmt))
    (definitions : List KernelDef) (sites : List LaunchSite) : Prop where
  launches : sites.map (fun site => (site.kernel, site.body)) = launches
  scopes : sites.map LaunchSite.scope = scopes
  definitions : sites.map LaunchSite.definition = definitions
  agree : ∀ site ∈ sites, site.Agrees job

theorem Sited.append {job : Job} {launches others : List (Kernel × Node)}
    {scopes moreScopes : List (List Stmt)} {definitions moreDefinitions : List KernelDef}
    {sites moreSites : List LaunchSite} (first : Sited job launches scopes definitions sites)
    (second : Sited job others moreScopes moreDefinitions moreSites) :
    Sited job (launches ++ others) (scopes ++ moreScopes) (definitions ++ moreDefinitions)
      (sites ++ moreSites) where
  launches := by rw [List.map_append, first.launches, second.launches]
  scopes := by rw [List.map_append, first.scopes, second.scopes]
  definitions := by rw [List.map_append, first.definitions, second.definitions]
  agree site member := (List.mem_append.mp member).elim (first.agree site) (second.agree site)

/-- Every launch of a part of the tree has its scope and its definition. -/
theorem exists_sited {job : Job} {nodes : List Node} {code : HostCode}
    (emits : Emits job nodes code) :
    ∃ sites, Sited job (Node.launchesOf nodes) (launchScopesOf code.stmts) code.kernels sites := by
  induction emits with
  | nil => exact ⟨[], rfl, rfl, rfl, nofun⟩
  | @cons node rest _ _ _ _ ihHead ihTail =>
    obtain ⟨first, head⟩ := ihHead
    obtain ⟨others, tail⟩ := ihTail
    refine ⟨first ++ others, ?_⟩
    rw [← List.singleton_append, launchesOf_append, launchScopesOf_append]
    exact head.append tail
  | loop _ ih => simpa [Node.launchesOf, Node.launches, launchScopesOf, Stmt.launchScopes] using ih
  | branch _ _ ihPositive ihNegative =>
    obtain ⟨first, positive⟩ := ihPositive
    obtain ⟨second, negative⟩ := ihNegative
    refine ⟨first ++ second, ?_⟩
    simpa [Node.launchesOf, Node.launches, launchScopesOf, Stmt.launchScopes]
      using positive.append negative
  | block _ ih => simpa [Node.launchesOf, Node.launches] using ih
  | statement => exact ⟨[], rfl, rfl, rfl, nofun⟩
  | @launch kernel body args definition receives defines =>
    have agrees := agrees_of_launch receives defines
    refine ⟨[_], ?_, ?_, ?_, List.forall_mem_singleton.mpr agrees⟩
    · rfl
    · exact (launchScopesOf_scope agrees.created).symm
    · rfl

private theorem functions_definitions (helperDefined isFirst : Bool) (kernels : List KernelDef) :
    (KernelModule.definitions helperDefined isFirst kernels).filter Item.isFunction =
      kernels.map KernelDef.item := by
  induction kernels generalizing helperDefined isFirst with
  | nil => rfl
  | cons kernel rest ih =>
    simp only [KernelModule.definitions, List.filter_append]
    split <;> split <;> exact congrArg (kernel.item :: ·) (ih _ _)

/-- The functions of the kernel module are the definitions, in order. -/
theorem functions_file (program : Program) (kernels : List KernelDef) :
    (KernelModule.file program kernels).filter Item.isFunction = kernels.map KernelDef.item := by
  have preamble : (KernelModule.preamble program).filter Item.isFunction = [] := by
    unfold KernelModule.preamble
    split <;> split <;> simp [Item.isFunction]
  rw [KernelModule.file, List.filter_append, preamble, functions_definitions, List.nil_append]

theorem launchScopesOf_map {α : Type} {emit : α → Stmt}
    (quiet : ∀ x, (emit x).launchScopes = []) (xs : List α) :
    launchScopesOf (xs.map emit) = [] := by
  induction xs with
  | nil => rfl
  | cons x rest ih => rw [List.map_cons, launchScopesOf, quiet, ih, List.nil_append]

/-- What the host program does around the code of the tree launches nothing. -/
theorem launchScopesOf_body (job : Job) (kernelPath : String) (stmts : List Stmt) :
    launchScopesOf (HostProgram.body job kernelPath (Buffer.createAll job) stmts) =
      launchScopesOf stmts := by
  have declares : launchScopesOf (Buffer.declareAll job) = [] :=
    launchScopesOf_map (fun _ => rfl) _
  have creates : launchScopesOf (Buffer.createAll job) = [] :=
    launchScopesOf_map (fun _ => rfl) _
  have reads : launchScopesOf (Buffer.copyBackAll job) = [] := by
    apply launchScopesOf_map
    intro array
    rcases Buffer.copyBack_cases job array with same | ⟨cond, same⟩
    · rw [same]
      rfl
    · rw [same]
      rfl
  have releases : launchScopesOf (Buffer.releaseAll job) = [] :=
    launchScopesOf_map (fun _ => rfl) _
  have setUp : launchScopesOf (HostProgram.setUp job.options kernelPath) = [] := rfl
  have release : launchScopesOf HostProgram.release = [] := rfl
  have blank : launchScopesOf [.blank] = [] := rfl
  simp only [HostProgram.body, launchScopesOf_append, declares, setUp, blank, creates, reads,
    releases, release, List.nil_append, List.append_nil]

theorem Kernel.id_eq_of_name {first second : Kernel} (same : first.name = second.name) :
    first.id = second.id := by
  have digits : toString first.id = toString second.id :=
    (String.append_right_inj "kernel").mp same
  have lists : Nat.toDigits 10 first.id = Nat.toDigits 10 second.id := by
    simpa using congrArg String.toList digits
  have read := congrArg (Nat.ofDigitChars 10 · 0) lists
  simpa [Nat.ofDigitChars_ten_toDigits] using read

theorem Sited.names {job : Job} {launches : List (Kernel × Node)} {scopes : List (List Stmt)}
    {definitions : List KernelDef} {sites : List LaunchSite}
    (sited : Sited job launches scopes definitions sites) :
    definitions.map KernelDef.name = launches.map (·.1.name) := by
  rw [← sited.definitions, ← sited.launches, List.map_map, List.map_map]
  exact List.map_congr_left fun site member => (sited.agree site member).named

private theorem nodup_names {launches : List (Kernel × Node)}
    (distinct : (launches.map (·.1.id)).Nodup) : (launches.map (·.1.name)).Nodup := by
  apply List.pairwise_map.mpr
  apply (List.pairwise_map.mp distinct).imp
  intro first second different same
  exact different (Kernel.id_eq_of_name same)

/-- The launches of a tree, the scopes of the host program that create kernel objects,
and the functions of the kernel module belong together one by one. Where no two
launches share an id, the name given for a kernel object finds its definition. -/
theorem launches_agree_with_definitions {job : Job} {kernelPath headerName : String} {tree : Node}
    {files : Files} (generated : (job.generate kernelPath headerName tree).result = .ok files) :
    ∃ definitions sites,
      files.kernel.filter Item.isFunction = definitions.map KernelDef.item ∧
      Sited job tree.launches (launchScopesOf files.host.code) definitions sites ∧
      ((tree.launches.map (·.1.id)).Nodup →
        (definitions.map KernelDef.name).Nodup ∧
        ∀ definition ∈ definitions,
          files.kernel.filter (Item.defines definition.name) = [definition.item]) := by
  obtain ⟨code, emits, host, kernel⟩ := Job.exists_emits_of_generate generated
  obtain ⟨sites, sitedTree⟩ := exists_sited emits
  have sited : Sited job tree.launches (launchScopesOf files.host.code) code.kernels sites := by
    rw [host, launchScopesOf_body]
    simpa [Node.launchesOf] using sitedTree
  have functions : files.kernel.filter Item.isFunction = code.kernels.map KernelDef.item := by
    rw [kernel, functions_file]
  refine ⟨code.kernels, sites, functions, sited, ?_⟩
  intro distinct
  have names : (code.kernels.map KernelDef.name).Nodup := sited.names ▸ nodup_names distinct
  refine ⟨names, ?_⟩
  intro definition member
  have found : (code.kernels.map KernelDef.item).filter (Item.defines definition.name) =
      [definition.item] := by
    rw [List.filter_map]
    exact congrArg (List.map KernelDef.item) (filter_key names member)
  rw [← found, ← functions, List.filter_filter]
  apply List.filter_congr
  intro item _
  cases item with
  | defineFn => simp [Item.isFunction]
  | _ => rfl

/-- The two launches of the sample, under a loop and under a branch. -/
theorem launches_agree_in_sample :
    ∃ files, (Sample.job.generate "code.cl" "code.h" Sample.tree).result = .ok files ∧
      ∃ definitions sites,
        Sited Sample.job Sample.tree.launches (launchScopesOf files.host.code) definitions sites ∧
        definitions.map KernelDef.name = ["kernel0", "kernel7"] ∧
        ∀ definition ∈ definitions,
          files.kernel.filter (Item.defines definition.name) = [definition.item] := by
  obtain ⟨files, generated⟩ := Sample.exists_files
  obtain ⟨definitions, sites, _, sited, resolves⟩ := launches_agree_with_definitions generated
  refine ⟨files, generated, definitions, sites, sited, ?_, (resolves (by decide)).2⟩
  rw [sited.names]
  decide

end Offload
