import Offload.Proofs.Reading.Token

/-! The grammar of C for integer expressions with parenthesised conditionals and
calls of the built-in functions. A parser that reads tokens from left to right
finds every tree the grammar gives, so no text has two of them. -/

namespace Offload.Reading

/-- How tightly a binary operator binds, from `||` up to the products. -/
def rank : Operator → Nat
  | .or => 1
  | .and => 2
  | .eq | .ne => 3
  | .le | .ge | .lt | .gt => 4
  | .add | .sub => 5
  | .mul | .div | .rem => 6

/-- The rank of operands: signs, names, constants, calls and parentheses. -/
def unary : Nat := 7

/-- The built-in function of that name. -/
def function? : String → Option Builtin
  | "min" => some .min
  | "max" => some .max
  | "floord" => some .floorDiv
  | _ => none

/-- The trees of a token list at a rank. All binary operators group to the left:
the left operand may have the operator's own rank, the right one binds tighter. -/
inductive Derives : Nat → List Token → Expr → Prop where
  | binary {op : Operator} {ts us : List Token} {l r : Expr}
      (left : Derives (rank op) ts l) (right : Derives (rank op + 1) us r) :
      Derives (rank op) (ts ++ .op op :: us) (.bin op l r)
  | tighter {k : Nat} {ts : List Token} {t : Expr}
      (below : k < unary) (inner : Derives (k + 1) ts t) : Derives k ts t
  | negation {ts : List Token} {t : Expr} (arg : Derives unary ts t) :
      Derives unary (.op .sub :: ts) (.neg t)
  | constant (n : Nat) : Derives unary [.number n] (.lit n)
  | name {x : String} (plain : function? x = none) : Derives unary [.name x] (.var x)
  | group {ts : List Token} {t : Expr} (inner : Derives 1 ts t) :
      Derives unary (.lparen :: (ts ++ [.rparen])) t
  | call {x : String} {fn : Builtin} {ts us : List Token} {a b : Expr}
      (known : function? x = some fn) (first : Derives 1 ts a) (second : Derives 1 us b) :
      Derives unary (.name x :: .lparen :: (ts ++ .comma :: (us ++ [.rparen]))) (.call fn [a, b])
  | conditional {ts us vs : List Token} {c t e : Expr}
      (cond : Derives 1 ts c) (thn : Derives 1 us t) (els : Derives 1 vs e) :
      Derives unary (.lparen :: (ts ++ .question :: (us ++ .colon :: (vs ++ [.rparen]))))
        (.select c t e)

theorem Derives.weaken {j k : Nat} {ts : List Token} {t : Expr} (derivation : Derives k ts t)
    (le : j ≤ k) (bound : k ≤ unary) : Derives j ts t := by
  obtain ⟨steps, rfl⟩ := Nat.exists_eq_add_of_le le
  induction steps with
  | zero => exact derivation
  | succ steps ih =>
    have inner : Derives (j + steps) ts t := .tighter (by omega) derivation
    exact ih inner (by omega) (by omega)

/-- The text is an expression with that tree. -/
def Reads (text : String) (tree : Expr) : Prop := Derives 1 (tokens text) tree

/-- What the parser has begun and not finished, innermost first. -/
inductive Frame where
  | sign
  | binary (op : Operator) (lhs : Expr)
  | group
  | first (fn : Builtin)
  | second (fn : Builtin) (a : Expr)
  | thn (cond : Expr)
  | els (cond thn : Expr)
  deriving Inhabited

/-- Finishes the operators that bind at least as tightly as the rank. -/
def reduce (k : Nat) : Expr → List Frame → Expr × List Frame
  | t, .sign :: frames => reduce k (.neg t) frames
  | t, .binary op l :: frames =>
    if k ≤ rank op then reduce k (.bin op l t) frames else (t, .binary op l :: frames)
  | t, frames => (t, frames)

mutual

/-- Reads on where an operand has to come. -/
def operand (frames : List Frame) : List Token → Option Expr
  | .number n :: rest => proceed (.lit n) frames rest
  | .op .sub :: rest => operand (.sign :: frames) rest
  | .lparen :: rest => operand (.group :: frames) rest
  | .name x :: rest =>
    match function? x, rest with
    | none, rest => proceed (.var x) frames rest
    | some fn, .lparen :: rest => operand (.first fn :: frames) rest
    | some _, _ => none
  | _ => none

/-- Reads on after an operand. -/
def proceed (t : Expr) (frames : List Frame) : List Token → Option Expr
  | [] =>
    match reduce 0 t frames with
    | (t, []) => some t
    | _ => none
  | .op op :: rest =>
    match reduce (rank op) t frames with
    | (l, frames) => operand (.binary op l :: frames) rest
  | .rparen :: rest =>
    match reduce 0 t frames with
    | (t, .group :: frames) => proceed t frames rest
    | (b, .second fn a :: frames) => proceed (.call fn [a, b]) frames rest
    | (e, .els c t :: frames) => proceed (.select c t e) frames rest
    | _ => none
  | .comma :: rest =>
    match reduce 0 t frames with
    | (a, .first fn :: frames) => operand (.second fn a :: frames) rest
    | _ => none
  | .question :: rest =>
    match reduce 0 t frames with
    | (c, .group :: frames) => operand (.thn c :: frames) rest
    | _ => none
  | .colon :: rest =>
    match reduce 0 t frames with
    | (t, .thn c :: frames) => operand (.els c t :: frames) rest
    | _ => none
  | _ => none

end

/-- The tree of a token list, if it has one. -/
def parse? (ts : List Token) : Option Expr := operand [] ts

/-- Whether tokens may follow an expression of that rank: a binary operator next
to it binds no tighter. -/
def Follows (k : Nat) : List Token → Prop
  | .op op :: _ => rank op ≤ k
  | _ => True

theorem Follows.mono {j k : Nat} {rest : List Token} (follows : Follows j rest) (le : j ≤ k) :
    Follows k rest := by
  unfold Follows at *
  split at follows
  · exact Nat.le_trans follows le
  · trivial

/-- No unfinished operator takes an operand of that rank as its own. -/
def Settled (k : Nat) : List Frame → Prop
  | .sign :: _ => False
  | .binary op _ :: _ => rank op < k
  | _ => True

theorem Settled.mono {j k : Nat} {frames : List Frame} (settled : Settled j frames) (le : j ≤ k) :
    Settled k frames := by
  unfold Settled at *
  split at settled
  · exact settled
  · exact Nat.lt_of_lt_of_le settled le
  · trivial

private theorem reduce_of_settled {k : Nat} {frames : List Frame} (settled : Settled k frames)
    (t : Expr) : reduce k t frames = (t, frames) := by
  unfold Settled at settled
  split at settled
  · exact settled.elim
  · simp [reduce, Nat.not_le.mpr settled]
  · unfold reduce
    split <;> simp_all

theorem one_le_rank (op : Operator) : 1 ≤ rank op := by
  cases op <;> decide

theorem rank_lt_unary (op : Operator) : rank op < unary := by
  cases op <;> decide

theorem one_lt_unary : 1 < unary := by decide

theorem six_lt_unary : 6 < unary := by decide

private theorem proceed_sign (t : Expr) (frames : List Frame) (rest : List Token) :
    proceed t (.sign :: frames) rest = proceed (.neg t) frames rest := by
  cases rest with
  | nil => simp [proceed, reduce]
  | cons token rest => cases token <;> simp [proceed, reduce]

private theorem proceed_binary {op : Operator} {rest : List Token}
    (follows : Follows (rank op) rest) (l t : Expr) (frames : List Frame) :
    proceed t (.binary op l :: frames) rest = proceed (.bin op l t) frames rest := by
  cases rest with
  | nil => simp [proceed, reduce]
  | cons token rest =>
    cases token with
    | op next =>
      have weaker : rank next ≤ rank op := follows
      simp [proceed, reduce, weaker]
    | _ => simp [proceed, reduce]

private theorem operand_call {x : String} {fn : Builtin} (known : function? x = some fn)
    (frames : List Frame) (rest : List Token) :
    operand frames (.name x :: .lparen :: rest) = operand (.first fn :: frames) rest := by
  rw [operand.eq_def]
  simp only [known]

/-- The parser takes an expression off the tokens, provided that neither what
waits before it nor what comes after it binds its outermost operands tighter. -/
theorem operand_of_derives {k : Nat} {ts : List Token} {t : Expr} (derivation : Derives k ts t)
    (frames : List Frame) (rest : List Token) (settled : k < unary → Settled k frames)
    (follows : Follows k rest) : operand frames (ts ++ rest) = proceed t frames rest := by
  induction derivation generalizing frames rest with
  | @binary op ts us l r left right ihLeft ihRight =>
    have here : Settled (rank op) frames := settled (rank_lt_unary op)
    have next : Settled (rank op + 1) (.binary op l :: frames) := Nat.lt_succ_self (rank op)
    calc operand frames (ts ++ .op op :: us ++ rest)
        = operand frames (ts ++ .op op :: (us ++ rest)) := by simp
      _ = proceed l frames (.op op :: (us ++ rest)) :=
          ihLeft frames _ (fun _ => here) (Nat.le_refl (rank op))
      _ = operand (.binary op l :: frames) (us ++ rest) := by
          simp [proceed, reduce_of_settled here]
      _ = proceed r (.binary op l :: frames) rest :=
          ihRight _ rest (fun _ => next) (follows.mono (Nat.le_succ _))
      _ = proceed (.bin op l r) frames rest := proceed_binary follows l r frames
  | tighter below inner ih =>
    exact ih frames rest (fun _ => (settled below).mono (Nat.le_succ _))
      (follows.mono (Nat.le_succ _))
  | @negation ts t arg ih =>
    calc operand frames (.op .sub :: ts ++ rest)
        = operand (.sign :: frames) (ts ++ rest) := by simp [operand]
      _ = proceed t (.sign :: frames) rest := ih _ rest (fun below => absurd below (by simp)) follows
      _ = proceed (.neg t) frames rest := proceed_sign t frames rest
  | constant n => simp [operand]
  | name plain => simp [operand, plain]
  | @group ts t inner ih =>
    calc operand frames (.lparen :: (ts ++ [.rparen]) ++ rest)
        = operand (.group :: frames) (ts ++ .rparen :: rest) := by simp [operand]
      _ = proceed t (.group :: frames) (.rparen :: rest) := ih _ _ (fun _ => trivial) trivial
      _ = proceed t frames rest := by simp [proceed, reduce]
  | @call x fn ts us a b known first second ihFirst ihSecond =>
    calc operand frames (.name x :: .lparen :: (ts ++ .comma :: (us ++ [.rparen])) ++ rest)
        = operand (.first fn :: frames) (ts ++ .comma :: (us ++ .rparen :: rest)) := by
          simp [operand_call known]
      _ = proceed a (.first fn :: frames) (.comma :: (us ++ .rparen :: rest)) :=
          ihFirst _ _ (fun _ => trivial) trivial
      _ = operand (.second fn a :: frames) (us ++ .rparen :: rest) := by simp [proceed, reduce]
      _ = proceed b (.second fn a :: frames) (.rparen :: rest) :=
          ihSecond _ _ (fun _ => trivial) trivial
      _ = proceed (.call fn [a, b]) frames rest := by simp [proceed, reduce]
  | @conditional ts us vs c t e cond thn els ihCond ihThn ihEls =>
    calc operand frames
          (.lparen :: (ts ++ .question :: (us ++ .colon :: (vs ++ [.rparen]))) ++ rest)
        = operand (.group :: frames)
            (ts ++ .question :: (us ++ .colon :: (vs ++ .rparen :: rest))) := by simp [operand]
      _ = proceed c (.group :: frames) (.question :: (us ++ .colon :: (vs ++ .rparen :: rest))) :=
          ihCond _ _ (fun _ => trivial) trivial
      _ = operand (.thn c :: frames) (us ++ .colon :: (vs ++ .rparen :: rest)) := by
          simp [proceed, reduce]
      _ = proceed t (.thn c :: frames) (.colon :: (vs ++ .rparen :: rest)) :=
          ihThn _ _ (fun _ => trivial) trivial
      _ = operand (.els c t :: frames) (vs ++ .rparen :: rest) := by simp [proceed, reduce]
      _ = proceed e (.els c t :: frames) (.rparen :: rest) := ihEls _ _ (fun _ => trivial) trivial
      _ = proceed (.select c t e) frames rest := by simp [proceed, reduce]

theorem parse?_of_derives {ts : List Token} {t : Expr} (derivation : Derives 1 ts t) :
    parse? ts = some t := by
  have whole := operand_of_derives derivation [] [] (fun _ => trivial) trivial
  simpa [parse?, proceed, reduce] using whole

/-- No text is an expression in two ways. -/
theorem Reads.unique {text : String} {t u : Expr} (first : Reads text t) (second : Reads text u) :
    t = u :=
  Option.some.inj ((parse?_of_derives first).symm.trans (parse?_of_derives second))

end Offload.Reading
