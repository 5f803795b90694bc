import Offload.Code.Basic

/-! An abstract machine for code with loops and branches. A language only says which
tasks its pieces stand for, so that programs of two languages run on the same machine
and can be compared step by step. -/

namespace Offload

open Code

/-- What code does apart from its control flow. -/
inductive Action where
  | statement (text : String)
  | copy (target source : Term)
  | barrier
  /-- A launch, known by the statements of its scope. -/
  | launch (scope : List Stmt)
  /-- Any other statement that generated code may hold. -/
  | other (stmt : Stmt)

/-- The meaning of expressions, of iterators and of actions in states `σ`. An
expression need not have a value. -/
structure World (σ : Type) where
  value : σ → Expr → Option Int
  read : σ → String → Int
  write : σ → String → Int → σ
  perform : Action → σ → σ

/-- What is still to be done. A loop is entered once, and from then on it is tested
before every round and advanced after it. -/
inductive Task (κ : Type) where
  | act (action : Action)
  | loop (iter : String) (init cond inc : Expr) (body : List κ)
  | branch (cond : Expr) (thn els : List κ)
  | test (iter : String) (cond inc : Expr) (body : List κ)
  | advance (iter : String) (cond inc : Expr) (body : List κ)

/-- The machine in the middle of a run: the tasks that are left, the state, and the
actions performed so far, each with the state it was performed in. -/
structure Config (κ σ : Type) where
  tasks : List (Task κ)
  state : σ
  performed : List (Action × σ) := []

namespace Config

variable {κ σ : Type} (world : World σ) (view : κ → List (Task κ))

/-- One step. The machine stays where it is if nothing is left, or if an expression
that it needs has no value. -/
def step (config : Config κ σ) : Config κ σ :=
  match config.tasks with
  | [] => config
  | .act action :: rest =>
    { tasks := rest
      state := world.perform action config.state
      performed := config.performed ++ [(action, config.state)] }
  | .loop iter init cond inc body :: rest =>
    match world.value config.state init with
    | none => config
    | some n =>
      { config with
        tasks := .test iter cond inc body :: rest
        state := world.write config.state iter n }
  | .branch cond thn els :: rest =>
    match world.value config.state cond with
    | none => config
    | some n => { config with tasks := (if n ≠ 0 then thn else els).flatMap view ++ rest }
  | .test iter cond inc body :: rest =>
    match world.value config.state cond with
    | none => config
    | some n =>
      { config with
        tasks := if n ≠ 0 then body.flatMap view ++ .advance iter cond inc body :: rest
          else rest }
  | .advance iter cond inc body :: rest =>
    match world.value config.state inc with
    | none => config
    | some n =>
      { config with
        tasks := .test iter cond inc body :: rest
        state := world.write config.state iter (world.read config.state iter + n) }

def run : Nat → Config κ σ → Config κ σ
  | 0, config => config
  | steps + 1, config => run steps (config.step world view)

/-- The machine before the first step of a program. -/
def start (program : List κ) (state : σ) : Config κ σ := { tasks := program.flatMap view, state }

end Config

section Alike

variable {κ ι σ : Type}

/-- Tasks of two languages with the same actions under the same control flow. -/
inductive Alike (view : κ → List (Task κ)) (other : ι → List (Task ι)) :
    List (Task κ) → List (Task ι) → Prop where
  | nil : Alike view other [] []
  | act {action : Action} {rest : List (Task κ)} {rest' : List (Task ι)}
      (next : Alike view other rest rest') :
      Alike view other (.act action :: rest) (.act action :: rest')
  | loop {iter : String} {init cond inc : Expr} {body : List κ} {body' : List ι}
      {rest : List (Task κ)} {rest' : List (Task ι)}
      (inside : Alike view other (body.flatMap view) (body'.flatMap other))
      (next : Alike view other rest rest') :
      Alike view other (.loop iter init cond inc body :: rest)
        (.loop iter init cond inc body' :: rest')
  | branch {cond : Expr} {thn els : List κ} {thn' els' : List ι}
      {rest : List (Task κ)} {rest' : List (Task ι)}
      (positive : Alike view other (thn.flatMap view) (thn'.flatMap other))
      (negative : Alike view other (els.flatMap view) (els'.flatMap other))
      (next : Alike view other rest rest') :
      Alike view other (.branch cond thn els :: rest) (.branch cond thn' els' :: rest')
  | test {iter : String} {cond inc : Expr} {body : List κ} {body' : List ι}
      {rest : List (Task κ)} {rest' : List (Task ι)}
      (inside : Alike view other (body.flatMap view) (body'.flatMap other))
      (next : Alike view other rest rest') :
      Alike view other (.test iter cond inc body :: rest) (.test iter cond inc body' :: rest')
  | advance {iter : String} {cond inc : Expr} {body : List κ} {body' : List ι}
      {rest : List (Task κ)} {rest' : List (Task ι)}
      (inside : Alike view other (body.flatMap view) (body'.flatMap other))
      (next : Alike view other rest rest') :
      Alike view other (.advance iter cond inc body :: rest)
        (.advance iter cond inc body' :: rest')

variable {view : κ → List (Task κ)} {other : ι → List (Task ι)}

theorem Alike.append {first second : List (Task κ)} {first' second' : List (Task ι)}
    (head : Alike view other first first') (tail : Alike view other second second') :
    Alike view other (first ++ second) (first' ++ second') := by
  induction head with
  | nil => exact tail
  | act _ ih => exact .act ih
  | loop inside _ _ ih => exact .loop inside ih
  | branch positive negative _ _ _ ih => exact .branch positive negative ih
  | test inside _ _ ih => exact .test inside ih
  | advance inside _ _ ih => exact .advance inside ih

theorem Alike.eq_nil_iff {tasks : List (Task κ)} {tasks' : List (Task ι)}
    (alike : Alike view other tasks tasks') : tasks = [] ↔ tasks' = [] := by
  cases alike <;> simp

/-- Two machines at the same point of a run. -/
structure Config.Agree (view : κ → List (Task κ)) (other : ι → List (Task ι))
    (config : Config κ σ) (config' : Config ι σ) : Prop where
  tasks : Alike view other config.tasks config'.tasks
  state : config.state = config'.state
  performed : config.performed = config'.performed

/-- Machines that agree take the same step. -/
theorem Config.Agree.step {config : Config κ σ} {config' : Config ι σ}
    (agree : config.Agree view other config') (world : World σ) :
    (config.step world view).Agree view other (config'.step world other) := by
  obtain ⟨tasks, state, performed⟩ := config
  obtain ⟨tasks', state', performed'⟩ := config'
  obtain ⟨alike, rfl, rfl⟩ := agree
  cases alike with
  | nil => exact ⟨.nil, rfl, rfl⟩
  | act next => exact ⟨next, rfl, rfl⟩
  | @loop _ init _ _ _ _ _ _ inside next =>
    cases found : world.value state init with
    | none => simpa [Config.step, found] using ⟨.loop inside next, rfl, rfl⟩
    | some n => simpa [Config.step, found] using ⟨.test inside next, rfl, rfl⟩
  | @branch cond _ _ _ _ _ _ positive negative next =>
    cases found : world.value state cond with
    | none => simpa [Config.step, found] using ⟨.branch positive negative next, rfl, rfl⟩
    | some n =>
      by_cases zero : n = 0
      · simpa [Config.step, found, zero] using ⟨negative.append next, rfl, rfl⟩
      · simpa [Config.step, found, zero] using ⟨positive.append next, rfl, rfl⟩
  | @test _ cond _ _ _ _ _ inside next =>
    cases found : world.value state cond with
    | none => simpa [Config.step, found] using ⟨.test inside next, rfl, rfl⟩
    | some n =>
      by_cases zero : n = 0
      · simpa [Config.step, found, zero] using ⟨next, rfl, rfl⟩
      · simpa [Config.step, found, zero] using ⟨inside.append (.advance inside next), rfl, rfl⟩
  | @advance _ _ inc _ _ _ _ inside next =>
    cases found : world.value state inc with
    | none => simpa [Config.step, found] using ⟨.advance inside next, rfl, rfl⟩
    | some n => simpa [Config.step, found] using ⟨.test inside next, rfl, rfl⟩

/-- Machines that agree still do so after any number of steps. -/
theorem Config.Agree.run {config : Config κ σ} {config' : Config ι σ}
    (agree : config.Agree view other config') (world : World σ) (steps : Nat) :
    (config.run world view steps).Agree view other (config'.run world other steps) := by
  induction steps generalizing config config' with
  | zero => exact agree
  | succ steps ih => exact ih (agree.step world)

end Alike

end Offload
