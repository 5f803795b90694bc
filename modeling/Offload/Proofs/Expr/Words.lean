import Offload.Proofs.Expr.Constants

/-! Constant folding on machine words. A checked step gives up where its result does not fit.
A step that is not checked would be stopped there, and no step of a folding is. -/

namespace Offload

/-- What stops a step that is not checked. -/
inductive Trap where
  | overflow
  | zeroDivisor

/-- A computation on words. It gives a result, gives up, or is stopped. -/
abbrev Steps := OptionT (Except Trap)

namespace Words

def stop (trap : Trap) : Steps Int64 := OptionT.mk (.error trap)

/-- Gives up where the word is not the exact result. -/
def checked (exact : Int) (result : Int64) : Steps Int64 :=
  if result.toInt = exact then pure result else failure

/-- Is stopped where the word is not the exact result. -/
def unchecked (exact : Int) (result : Int64) : Steps Int64 :=
  if result.toInt = exact then pure result else stop .overflow

def div (n d : Int64) : Steps Int64 :=
  if d = 0 then failure else checked (n.toInt.tdiv d.toInt) (n / d)

def rem (n d : Int64) : Steps Int64 :=
  if d = 0 ∨ (n = Int64.minValue ∧ d = -1) then failure else pure (n % d)

def divEuclid (n d : Int64) : Steps Int64 :=
  if d = 0 then failure else checked (n.toInt / d.toInt) (Int64.ofInt (n.toInt / d.toInt))

/-- The remainder is not checked: it is stopped where its quotient has no value. -/
def remEuclid (n d : Int64) : Steps Int64 :=
  if d = 0 then stop .zeroDivisor
  else if n = Int64.minValue ∧ d = -1 then stop .overflow
  else pure (Int64.ofInt (n.toInt % d.toInt))

/-- Rounding down takes a remainder and lowers a quotient, neither of them checked. -/
def floorDiv (n d : Int64) : Steps Int64 := do
  let q ← divEuclid n d
  if d < 0 then
    let r ← remEuclid n d
    if r ≠ 0 then unchecked (q.toInt - 1) (q - 1) else pure q
  else
    pure q

def flag (b : Bool) : Steps Int64 := pure (if b then 1 else 0)

end Words

open Words

def Operator.onWords : Operator → Int64 → Int64 → Steps Int64
  | .add, l, r => checked (l.toInt + r.toInt) (l + r)
  | .sub, l, r => checked (l.toInt - r.toInt) (l - r)
  | .mul, l, r => checked (l.toInt * r.toInt) (l * r)
  | .div, l, r => Words.div l r
  | .rem, l, r => Words.rem l r
  | .eq, l, r => flag (l == r)
  | .ne, l, r => flag (l != r)
  | .le, l, r => flag (l ≤ r)
  | .ge, l, r => flag (r ≤ l)
  | .lt, l, r => flag (l < r)
  | .gt, l, r => flag (r < l)
  | .and, l, r => flag (l != 0 && r != 0)
  | .or, l, r => flag (l != 0 || r != 0)

def Builtin.onWords : Builtin → List Int64 → Steps Int64
  | .min, w :: rest => pure (rest.foldl Min.min w)
  | .max, w :: rest => pure (rest.foldl Max.max w)
  | .floorDiv, [n, d] => Words.floorDiv n d
  | _, _ => failure

namespace Expr

mutual

/-- Folds an expression in words, step by step. -/
def fold : Expr → Steps Int64
  | lit n => checked n (Int64.ofInt n)
  | var _ => failure
  | neg arg => do
    let w ← arg.fold
    checked (-w.toInt) (-w)
  | bin op lhs rhs => do
    let l ← lhs.fold
    let r ← rhs.fold
    op.onWords l r
  | call fn args => do
    let found ← foldAll args
    fn.onWords found
  | select cond thn els => do
    let c ← cond.fold
    if c ≠ 0 then thn.fold else els.fold

def foldAll : List Expr → Steps (List Int64)
  | [] => pure []
  | e :: rest => do
    let w ← e.fold
    let found ← foldAll rest
    pure (w :: found)

end

end Expr

namespace Words

theorem inWord_toInt (w : Int64) : InWord w.toInt := ⟨Int64.le_toInt w, Int64.toInt_lt w⟩

theorem toInt_ofInt_eq_iff {n : Int} : (Int64.ofInt n).toInt = n ↔ InWord n := by
  constructor
  · exact fun same => same ▸ inWord_toInt (Int64.ofInt n)
  · exact fun fits => Int64.toInt_ofInt_of_le fits.1 fits.2

/-- The computation that ends with a value, or by giving up where there is none. -/
def settled (found : Option Int) : Steps Int64 := OptionT.mk (.ok (found.map Int64.ofInt))

private theorem settled_some_bind (n : Int) (next : Int64 → Steps Int64) :
    settled (some n) >>= next = next (Int64.ofInt n) := rfl

theorem settled_bind {found : Option Int} {next : Int64 → Steps Int64} {value : Int → Option Int}
    (continues : ∀ n, found = some n → next (Int64.ofInt n) = settled (value n)) :
    settled found >>= next = settled (found.bind value) := by
  cases found with
  | none => rfl
  | some n => exact continues n rfl

private theorem checked_eq_settled {n : Int} {result : Int64} (wraps : result = Int64.ofInt n) :
    checked n result = settled (word n) := by
  rw [checked, wraps]
  simp only [toInt_ofInt_eq_iff]
  by_cases fits : InWord n
  · rw [if_pos fits, word_eq_some_iff_inWord.mpr ⟨rfl, fits⟩]
    rfl
  · have absent : word n = none := if_neg fits
    rw [if_neg fits, absent]
    rfl

private theorem unchecked_eq_settled {n : Int} {result : Int64} (wraps : result = Int64.ofInt n)
    (fits : InWord n) : unchecked n result = settled (some n) := by
  rw [unchecked, wraps, if_pos (toInt_ofInt_eq_iff.mpr fits)]
  rfl

private theorem flag_eq_settled (b : Bool) : flag b = settled (some (truth b)) := by
  cases b <;> rfl

private theorem beq_eq_toInt_beq (l r : Int64) : (l == r) = (l.toInt == r.toInt) := by
  rw [Bool.eq_iff_iff, beq_iff_eq, beq_iff_eq, Int64.toInt_inj]

theorem eq_zero_iff {w : Int64} : w = 0 ↔ w.toInt = 0 := by
  rw [← Int64.toInt_inj, Int64.toInt_zero]

theorem ofInt_ne_zero_iff {n : Int} (fits : InWord n) : Int64.ofInt n ≠ 0 ↔ n ≠ 0 := by
  rw [Ne, eq_zero_iff, toInt_ofInt_eq_iff.mpr fits]

theorem quotientOverflows_iff {n d : Int64} :
    (n = Int64.minValue ∧ d = -1) ↔ (n.toInt = -0x8000000000000000 ∧ d.toInt = -1) := by
  rw [← Int64.toInt_inj, ← Int64.toInt_inj]
  exact Iff.rfl

private theorem div_eq_settled (n d : Int64) :
    Words.div n d = settled (Operator.value .div n.toInt d.toInt) := by
  simp only [Words.div, Operator.value, eq_zero_iff]
  split
  · rfl
  · refine checked_eq_settled (Int64.toInt_inj.mp ?_)
    rw [Int64.toInt_div, Int64.toInt_ofInt]

private theorem rem_eq_settled (n d : Int64) :
    Words.rem n d = settled (Operator.value .rem n.toInt d.toInt) := by
  simp only [Words.rem, Operator.value, eq_zero_iff, quotientOverflows_iff]
  split
  · rfl
  · rw [← Int64.toInt_mod, settled, Option.map_some, Int64.ofInt_toInt]
    rfl

private theorem divEuclid_eq_settled (n d : Int64) :
    divEuclid n d = settled (if d.toInt = 0 then none else word (n.toInt / d.toInt)) := by
  simp only [divEuclid, eq_zero_iff]
  split
  · rfl
  · exact checked_eq_settled rfl

/-- Where the quotient fits, its remainder is not stopped. -/
private theorem remEuclid_eq_settled {n d : Int64} (nonzero : d.toInt ≠ 0)
    (fits : InWord (n.toInt / d.toInt)) :
    remEuclid n d = settled (some (n.toInt % d.toInt)) := by
  have defined : ¬ (n.toInt = -0x8000000000000000 ∧ d.toInt = -1) := by
    rintro ⟨least, unit⟩
    rw [least, unit] at fits
    exact absurd fits (by decide)
  rw [remEuclid, if_neg (mt eq_zero_iff.mp nonzero), if_neg (mt quotientOverflows_iff.mp defined)]
  rfl

private theorem inWord_emod (n d : Int64) : InWord (n.toInt % d.toInt) := by
  by_cases zero : d.toInt = 0
  · rw [zero, Int.emod_zero]
    exact inWord_toInt n
  have least := Int.emod_nonneg n.toInt zero
  have most := Int.emod_lt n.toInt zero
  have divisor := inWord_toInt d
  unfold InWord at *
  omega

private theorem toInt_min (x y : Int64) : (Min.min x y).toInt = Min.min x.toInt y.toInt := by
  rw [Int.min_def, ← apply_ite Int64.toInt]
  exact congrArg Int64.toInt (ite_congr (propext Int64.le_iff_toInt_le) (fun _ => rfl) fun _ => rfl)

private theorem toInt_max (x y : Int64) : (Max.max x y).toInt = Max.max x.toInt y.toInt := by
  rw [Int.max_def, ← apply_ite Int64.toInt]
  exact congrArg Int64.toInt (ite_congr (propext Int64.le_iff_toInt_le) (fun _ => rfl) fun _ => rfl)

theorem foldl_eq_settled {choose : Int64 → Int64 → Int64} {exact : Int → Int → Int}
    (agrees : ∀ x y, (choose x y).toInt = exact x.toInt y.toInt) (w : Int64) (rest : List Int64) :
    (pure (rest.foldl choose w) : Steps Int64) =
      settled (some ((rest.map Int64.toInt).foldl exact w.toInt)) := by
  rw [List.foldl_map, List.foldl_hom Int64.toInt fun x y => (agrees x y).symm, settled,
    Option.map_some, Int64.ofInt_toInt]
  rfl

private theorem floorDiv_eq_settled (n d : Int64) :
    Words.floorDiv n d = settled (floorQuotient n.toInt d.toInt) := by
  have steps : Words.floorDiv n d =
      settled ((if d.toInt = 0 then none else word (n.toInt / d.toInt)).bind fun q =>
        some (if d.toInt < 0 ∧ n.toInt % d.toInt ≠ 0 then q - 1 else q)) := by
    rw [Words.floorDiv, divEuclid_eq_settled]
    refine settled_bind fun q found => ?_
    split at found
    · cases found
    rename_i nonzero
    obtain ⟨⟨⟩, fits⟩ := word_eq_some_iff_inWord.mp found
    by_cases negative : d < 0
    · have below : d.toInt < 0 := Int64.lt_iff_toInt_lt.mp negative
      have tested := ofInt_ne_zero_iff (inWord_emod n d)
      rw [if_pos negative, remEuclid_eq_settled nonzero fits, settled_some_bind]
      by_cases remains : n.toInt % d.toInt ≠ 0
      · have lowered := inWord_lowered (inWord_toInt n) (inWord_toInt d) ⟨below, remains⟩
        rw [if_pos (tested.mpr remains), if_pos ⟨below, remains⟩, toInt_ofInt_eq_iff.mpr fits]
        exact unchecked_eq_settled (Int64.ofInt_sub _ 1).symm lowered.2
      · rw [if_neg (mt tested.mp remains), if_neg fun lowers => remains lowers.2]
        rfl
    · rw [if_neg negative, if_neg fun lowers => negative (Int64.lt_iff_toInt_lt.mpr lowers.1)]
      rfl
  rw [steps, floorQuotient]
  split
  · rfl
  · rw [Option.map_eq_bind]
    rfl

end Words

theorem Operator.onWords_eq_settled (op : Operator) (l r : Int64) :
    op.onWords l r = settled (op.value l.toInt r.toInt) := by
  cases op with
  | add =>
    exact checked_eq_settled (by rw [Int64.ofInt_add, Int64.ofInt_toInt, Int64.ofInt_toInt])
  | sub =>
    exact checked_eq_settled (by rw [Int64.ofInt_sub, Int64.ofInt_toInt, Int64.ofInt_toInt])
  | mul =>
    exact checked_eq_settled (by rw [Int64.ofInt_mul, Int64.ofInt_toInt, Int64.ofInt_toInt])
  | div => exact div_eq_settled l r
  | rem => exact rem_eq_settled l r
  | eq | ne | and | or =>
    simp only [onWords, value, flag_eq_settled, bne, beq_eq_toInt_beq, Int64.toInt_zero]
  | le | ge | lt | gt =>
    simp only [onWords, value, flag_eq_settled, Int64.le_iff_toInt_le, Int64.lt_iff_toInt_lt]

theorem Builtin.onWords_eq_settled (fn : Builtin) (args : List Int64) :
    fn.onWords args = settled (fn.value (args.map Int64.toInt)) := by
  match fn, args with
  | .min, w :: rest => exact foldl_eq_settled toInt_min w rest
  | .max, w :: rest => exact foldl_eq_settled toInt_max w rest
  | .floorDiv, [n, d] => exact floorDiv_eq_settled n d
  | .min, [] | .max, [] | .floorDiv, [] | .floorDiv, [_] | .floorDiv, _ :: _ :: _ :: _ => rfl

namespace Expr

private theorem foldAll_eq {args : List Expr}
    (each : ∀ arg ∈ args, arg.fold = settled arg.constant?) :
    foldAll args = OptionT.mk (.ok ((values (fun _ => none) args).map (List.map Int64.ofInt))) := by
  induction args with
  | nil => rfl
  | cons arg rest ih =>
    obtain ⟨here, later⟩ := List.forall_mem_cons.mp each
    rw [foldAll, here, ih later, values, ← constant?]
    cases arg.constant? with
    | none => rfl
    | some n => cases values (fun _ => none) rest <;> rfl

/-- No step of a folding is stopped, and its result is the constant. -/
theorem fold_eq_settled (e : Expr) : e.fold = settled e.constant? := by
  induction e with
  | lit n => exact checked_eq_settled rfl
  | var x => rfl
  | neg arg ih =>
    rw [fold, ih]
    refine settled_bind fun n found => ?_
    rw [toInt_ofInt_eq_iff.mpr (inWord_of_constant? found)]
    exact checked_eq_settled (Int64.ofInt_neg n).symm
  | bin op lhs rhs ihLeft ihRight =>
    rw [fold, ihLeft, ihRight]
    refine settled_bind fun l left => settled_bind fun r right => ?_
    rw [op.onWords_eq_settled, toInt_ofInt_eq_iff.mpr (inWord_of_constant? left),
      toInt_ofInt_eq_iff.mpr (inWord_of_constant? right)]
  | call fn args ih =>
    rw [fold, foldAll_eq ih, constant?, value]
    cases found : values (fun _ => none) args with
    | none => rfl
    | some inner =>
      have same : (inner.map Int64.ofInt).map Int64.toInt = inner := by
        rw [List.map_map]
        refine (List.map_congr_left fun n member => ?_).trans (List.map_id inner)
        exact toInt_ofInt_eq_iff.mpr (inWord_of_values found n member)
      calc fn.onWords (inner.map Int64.ofInt)
          = settled (fn.value ((inner.map Int64.ofInt).map Int64.toInt)) :=
            fn.onWords_eq_settled _
        _ = settled (fn.value inner) := by rw [same]
  | select cond thn els ihCond ihThn ihEls =>
    rw [fold, ihCond]
    refine settled_bind fun c test => ?_
    have tested := ofInt_ne_zero_iff (inWord_of_constant? test)
    by_cases nonzero : c ≠ 0
    · rw [if_pos (tested.mpr nonzero), if_pos nonzero, ihThn]
      rfl
    · rw [if_neg (mt tested.mp nonzero), if_neg nonzero, ihEls]
      rfl

/-- Folding is exact. It finds the value over the integers where everything on the way to it
fits into a word, and nothing elsewhere. Done in words, it ends with that same value or gives
up: no step is stopped. -/
theorem folding_exact (e : Expr) :
    (∀ n, e.constant? = some n ↔ e.unbounded = some n ∧ e.FitsOnTheWay) ∧
      ∃ folded, e.fold.run = .ok folded ∧ folded.map Int64.toInt = e.constant? := by
  refine ⟨e.foldsExactly, e.constant?.map Int64.ofInt, ?_, ?_⟩
  · rw [fold_eq_settled]
    rfl
  · cases found : e.constant? with
    | none => rfl
    | some n => exact congrArg some (toInt_ofInt_eq_iff.mpr (inWord_of_constant? found))

end Expr

end Offload
