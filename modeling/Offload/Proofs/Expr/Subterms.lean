import Offload.Expr.Printer

namespace Offload.Expr

/-- Induction over expressions, with the hypothesis for each argument of a call. -/
@[elab_as_elim, induction_eliminator]
theorem induct {motive : Expr → Prop}
    (lit : ∀ value, motive (lit value))
    (var : ∀ name, motive (var name))
    (neg : ∀ arg, motive arg → motive (neg arg))
    (bin : ∀ op lhs rhs, motive lhs → motive rhs → motive (bin op lhs rhs))
    (call : ∀ fn args, (∀ arg ∈ args, motive arg) → motive (call fn args))
    (select : ∀ cond thn els, motive cond → motive thn → motive els →
      motive (select cond thn els))
    (e : Expr) : motive e :=
  @Expr.rec motive (fun args => ∀ arg ∈ args, motive arg) lit var neg bin call select
    (fun _ member => nomatch member)
    (fun _ _ head tail arg member => by
      rcases List.mem_cons.mp member with same | member
      · exact same ▸ head
      · exact tail arg member) e

mutual

/-- The expression itself and everything inside it. -/
def subterms : Expr → List Expr
  | lit n => [lit n]
  | var x => [var x]
  | neg arg => neg arg :: arg.subterms
  | bin op lhs rhs => bin op lhs rhs :: (lhs.subterms ++ rhs.subterms)
  | call fn args => call fn args :: subtermsOf args
  | select cond thn els =>
    select cond thn els :: (cond.subterms ++ thn.subterms ++ els.subterms)

def subtermsOf : List Expr → List Expr
  | [] => []
  | e :: rest => e.subterms ++ subtermsOf rest

end

theorem mem_subtermsOf {e : Expr} {args : List Expr} :
    e ∈ subtermsOf args ↔ ∃ arg ∈ args, e ∈ arg.subterms := by
  induction args with
  | nil => simp [subtermsOf]
  | cons first rest ih => simp [subtermsOf, ih]

/-- A condition that holds at every subterm. -/
def Everywhere (holds : Expr → Prop) (e : Expr) : Prop := ∀ s ∈ e.subterms, holds s

instance (holds : Expr → Prop) [DecidablePred holds] (e : Expr) :
    Decidable (e.Everywhere holds) :=
  inferInstanceAs (Decidable (∀ s ∈ e.subterms, holds s))

section Everywhere

variable {holds : Expr → Prop}

theorem everywhere_neg {arg : Expr} :
    (neg arg).Everywhere holds ↔ holds (neg arg) ∧ arg.Everywhere holds := by
  simp [Everywhere, subterms]

theorem everywhere_bin {op : Operator} {lhs rhs : Expr} :
    (bin op lhs rhs).Everywhere holds ↔
      holds (bin op lhs rhs) ∧ lhs.Everywhere holds ∧ rhs.Everywhere holds := by
  simp [Everywhere, subterms, or_imp, forall_and]

theorem everywhere_call {fn : Builtin} {args : List Expr} :
    (call fn args).Everywhere holds ↔
      holds (call fn args) ∧ ∀ arg ∈ args, arg.Everywhere holds := by
  simp only [Everywhere, subterms, List.mem_cons, forall_eq_or_imp, mem_subtermsOf]
  constructor
  · rintro ⟨here, inside⟩
    exact ⟨here, fun arg member s inner => inside s ⟨arg, member, inner⟩⟩
  · rintro ⟨here, inside⟩
    exact ⟨here, fun s ⟨arg, member, inner⟩ => inside arg member s inner⟩

theorem everywhere_select {cond thn els : Expr} :
    (select cond thn els).Everywhere holds ↔
      holds (select cond thn els) ∧ cond.Everywhere holds ∧ thn.Everywhere holds ∧
        els.Everywhere holds := by
  simp [Everywhere, subterms, or_imp, forall_and]

theorem Everywhere.self {e : Expr} (everywhere : e.Everywhere holds) : holds e := by
  apply everywhere
  cases e <;> simp [subterms]

/-- What follows at an expression from a condition on its subterms follows at each
of its subterms. -/
theorem Everywhere.imp {other : Expr → Prop} {e : Expr} (everywhere : e.Everywhere holds)
    (implies : ∀ s, s.Everywhere holds → other s) : e.Everywhere other := by
  have here := implies e everywhere
  induction e with
  | lit n => exact fun s member => List.mem_singleton.mp member ▸ here
  | var x => exact fun s member => List.mem_singleton.mp member ▸ here
  | neg arg ih =>
    obtain ⟨_, inner⟩ := everywhere_neg.mp everywhere
    exact everywhere_neg.mpr ⟨here, ih inner (implies arg inner)⟩
  | bin op lhs rhs ihLeft ihRight =>
    obtain ⟨_, left, right⟩ := everywhere_bin.mp everywhere
    exact everywhere_bin.mpr
      ⟨here, ihLeft left (implies lhs left), ihRight right (implies rhs right)⟩
  | call fn args ih =>
    obtain ⟨_, inner⟩ := everywhere_call.mp everywhere
    exact everywhere_call.mpr ⟨here, fun arg member =>
      ih arg member (inner arg member) (implies arg (inner arg member))⟩
  | select cond thn els ihCond ihThn ihEls =>
    obtain ⟨_, first, second, third⟩ := everywhere_select.mp everywhere
    exact everywhere_select.mpr ⟨here, ihCond first (implies cond first),
      ihThn second (implies thn second), ihEls third (implies els third)⟩

end Everywhere

theorem texts_eq_map (args : List Expr) : texts args = args.map text := by
  induction args with
  | nil => rfl
  | cons first rest ih => simp [texts, ih]

end Offload.Expr
