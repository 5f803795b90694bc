import Offload.Fault

/-! Computations that report what they do. The report of a computation that
fails holds everything up to the failure. -/

namespace Offload

/-- The three files of one run. -/
inductive Artifact where
  | host | kernel | header
  deriving DecidableEq, Repr, Inhabited

def Artifact.label : Artifact → String
  | host => "host"
  | kernel => "kernel"
  | header => "header"

inductive Level where
  | debug | info
  deriving DecidableEq, Repr, Inhabited

inductive Event where
  | launching (kernel : String) (args : String) (workDim : Nat)
  | defined (kernel : String)
  | allocating (array : String) (initialCopy : Bool)
  | rendered (artifact : Artifact) (bytes : Nat)
  | listing (title code : String)
  | wrote (path : String) (bytes : Nat)
  deriving DecidableEq, Repr, Inhabited

namespace Event

def level : Event → Level
  | wrote .. => .info
  | _ => .debug

/-- The headline of an event. A listing shows the code itself, under a title in
which an underscore stands for the elapsed time. -/
def message : Event → String
  | launching .. => "launching kernel"
  | defined _ => "emitted kernel definition"
  | allocating .. => "allocating device buffer"
  | rendered .. => "rendered artifact"
  | listing title code => "===== " ++ title ++ " (time: _ us) =====\n" ++ code
  | wrote .. => "wrote artifact"

end Event

structure Traced (α : Type) where
  events : List Event
  result : Except Fault α

namespace Traced

variable {α β : Type}

def ofExcept (result : Except Fault α) : Traced α := ⟨[], result⟩

def fail (fault : Fault) : Traced α := ⟨[], .error fault⟩

def report (event : Event) : Traced Unit := ⟨[event], .ok ()⟩

protected def bind (x : Traced α) (next : α → Traced β) : Traced β :=
  match x.result with
  | .ok a => ⟨x.events ++ (next a).events, (next a).result⟩
  | .error fault => ⟨x.events, .error fault⟩

instance : Monad Traced where
  pure a := ⟨[], .ok a⟩
  bind := Traced.bind

@[simp] theorem pure_events (a : α) : (pure a : Traced α).events = [] := rfl

@[simp] theorem pure_result (a : α) : (pure a : Traced α).result = .ok a := rfl

theorem bind_of_ok {x : Traced α} {a : α} (found : x.result = .ok a) (next : α → Traced β) :
    x >>= next = ⟨x.events ++ (next a).events, (next a).result⟩ := by
  simp [Bind.bind, Traced.bind, found]

theorem bind_of_error {x : Traced α} {fault : Fault} (failed : x.result = .error fault)
    (next : α → Traced β) : x >>= next = ⟨x.events, .error fault⟩ := by
  simp [Bind.bind, Traced.bind, failed]

instance : LawfulMonad Traced := LawfulMonad.mk' Traced
  (by
    intro α x
    rcases x with ⟨events, fault | a⟩ <;> simp [Functor.map, Traced.bind])
  (by
    intro α β a next
    simp [Bind.bind, Pure.pure, Traced.bind])
  (by
    intro α β γ x f g
    rcases x with ⟨events, fault | a⟩
    · rfl
    · rcases h : f a with ⟨more, fault | b⟩ <;> simp [Bind.bind, Traced.bind, h])

end Traced

end Offload
