import Dsl41.Conditions.Syntax

/-!
# The left-to-right reading

An expression is a first operand and steps, each an operator and an operand. Read from left to
right, with one level for both operators, it has the value that `_build`'s tree has under
`_cond_true`.
-/

namespace Dsl41.Conditions

open Infra Oracle

variable (truth : Oracle.Atom → Bool)

/-! ## The reading -/

def Expr.first : Expr → Operand
  | .operand o => o
  | .binop left _ _ _ => left.first

/-- Whether the operator is `&`, and the operand, from left to right. -/
def Expr.steps : Expr → List (Bool × Operand)
  | .operand _ => []
  | .binop left op right _ => left.steps ++ [(isAnd op, right)]

def applyOp (is_and : Bool) (left right : Bool) : Bool := if is_and then left && right else left || right

/-- The truth of the atom that the tree is lowered to. -/
def AtomTree.value (a : AtomTree) : Bool :=
  match a.build none with
  | .ok c => c.erase.holds truth
  | .error _ => false

mutual

def Operand.value : Operand → Bool
  | .atom a _ => a.value truth
  | .paren inner _ => inner.value

def Expr.value : Expr → Bool
  | .operand o => o.value
  | .binop left op right _ => applyOp (isAnd op) left.value right.value

end

/-- The value of an expression is that of its operands from left to right. -/
theorem Expr.value_eq_foldl : ∀ e : Expr,
    e.value truth = e.steps.foldl (fun v step => applyOp step.1 v (step.2.value truth)) (e.first.value truth)
  | .operand o => by rw [Expr.value]; rfl
  | .binop left op right span => by
    rw [Expr.value, Expr.steps, Expr.first, List.foldl_append, ← Expr.value_eq_foldl left]
    rfl

/-! ## What the built tree holds -/

variable {truth} {c left right : Cond} {span : Option CondSpan}

@[simp] theorem allHold_eq : ∀ {l : List Oracle.Cond}, Cond.allHold truth l = l.all (Oracle.Cond.holds truth)
  | [] => rfl
  | c :: l => by rw [Oracle.Cond.allHold, allHold_eq, List.all_cons]

@[simp] theorem anyHolds_eq : ∀ {l : List Oracle.Cond}, Cond.anyHolds truth l = l.any (Oracle.Cond.holds truth)
  | [] => rfl
  | c :: l => by rw [Oracle.Cond.anyHolds, anyHolds_eq, List.any_cons]

@[simp] theorem eraseAll_eq : ∀ {l : List Cond}, eraseAll l = l.map Cond.erase
  | [] => rfl
  | c :: l => by rw [eraseAll, eraseAll_eq, List.map_cons]

/-- `_cond_true`, of the tree with its spans. -/
def Cond.holds (truth : Oracle.Atom → Bool) (c : Cond) : Bool := c.erase.holds truth

@[simp] theorem holds_and {operands : List Cond} :
    (Cond.and operands span).holds truth = operands.all (Cond.holds truth) := by
  rw [Cond.holds, Cond.erase, Oracle.Cond.holds, allHold_eq, eraseAll_eq, List.all_map]
  rfl

@[simp] theorem holds_or {operands : List Cond} :
    (Cond.or operands span).holds truth = operands.any (Cond.holds truth) := by
  rw [Cond.holds, Cond.erase, Oracle.Cond.holds, anyHolds_eq, eraseAll_eq, List.any_map]
  rfl

@[simp] theorem holds_paren : (Cond.paren c span).holds truth = c.holds truth := by
  rw [Cond.holds, Cond.erase, Oracle.Cond.holds]
  rfl

theorem holds_combine (is_and : Bool) :
    (combine is_and left right span).holds truth = applyOp is_and (left.holds truth) (right.holds truth) := by
  cases is_and with
  | true =>
    simp only [combine, applyOp, if_true, holds_and]
    split
    · rw [List.all_append, holds_and, List.all_cons, List.all_nil, Bool.and_true]
    · rw [List.all_cons, List.all_cons, List.all_nil, Bool.and_true]
  | false =>
    simp only [combine, applyOp, Bool.false_eq_true, if_false, holds_or]
    split
    · rw [List.any_append, holds_or, List.any_cons, List.any_nil, Bool.or_false]
    · rw [List.any_cons, List.any_cons, List.any_nil, Bool.or_false]

/-! ## The walk down the spine -/

/-- The walk and the fold back are one combination for each operator. -/
theorem Expr.build_binop {left : Expr} {op : String} {right : Operand} :
    (Expr.binop left op right span).build = do
      let result ← left.build
      return combine (isAnd op) result (← right.build) span := by
  simp only [Expr.build, Expr.leftmost, Expr.spine, List.reverse_cons, List.foldlM_append, bind_assoc]
  refine bind_congr fun first => bind_congr fun result => ?_
  simp only [List.foldlM_cons, foldStep, List.foldlM_nil, bind_pure]

theorem Expr.build_operand {o : Operand} : (Expr.operand o).build = o.build := by
  simp only [Expr.build, Expr.leftmost, Expr.spine, List.reverse_nil, List.foldlM_nil, bind_pure]

theorem Operand.build_paren {inner : Expr} :
    (Operand.paren inner span).build = do return .paren (← inner.build) span := by
  rw [Operand.build, Expr.build]
  simp only [bind_assoc]

/-- The span of an atom does not decide what it says. -/
theorem AtomTree.build_holds {a : AtomTree} (h : a.build span = .ok c) : c.holds truth = a.value truth := by
  cases a with
  | status_atom kw job lookback =>
    obtain ⟨l, hl, h⟩ := bind_eq_ok.mp h
    cases hstatus : statusByKw.lookup (lower kw) with
    | none =>
      rw [hstatus] at h
      cases h
    | some status =>
      rw [hstatus] at h
      obtain rfl := pure_eq_ok.mp h
      simp only [AtomTree.value, AtomTree.build, hl, hstatus, Infra.ok_bind]
      rfl
  | exitcode_atom kw job lookback op value =>
    obtain ⟨l, hl, h⟩ := bind_eq_ok.mp h
    obtain rfl := pure_eq_ok.mp h
    simp only [AtomTree.value, AtomTree.build, hl, Infra.ok_bind]
    rfl
  | global_atom kw name op value =>
    obtain rfl := pure_eq_ok.mp h
    rfl

mutual

theorem Operand.build_holds : ∀ (o : Operand) {c : Cond}, o.build = .ok c → c.holds truth = o.value truth
  | .atom a span, c, h => by
    rw [Operand.value]
    exact AtomTree.build_holds h
  | .paren inner span, c, h => by
    rw [Operand.build_paren] at h
    obtain ⟨c', hinner, hc⟩ := bind_eq_ok.mp h
    obtain rfl := pure_eq_ok.mp hc
    rw [holds_paren, Operand.value, Expr.build_holds inner hinner]

/-- The tree that is built holds what the expression says, read from left to right. -/
theorem Expr.build_holds : ∀ (e : Expr) {c : Cond}, e.build = .ok c → c.holds truth = e.value truth
  | .operand o, c, h => by
    rw [Expr.build_operand] at h
    rw [Expr.value, Operand.build_holds o h]
  | .binop left op right span, c, h => by
    rw [Expr.build_binop] at h
    obtain ⟨l, hleft, h⟩ := bind_eq_ok.mp h
    obtain ⟨r, hright, hc⟩ := bind_eq_ok.mp h
    obtain rfl := pure_eq_ok.mp hc
    rw [holds_combine, Expr.value, Expr.build_holds left hleft, Operand.build_holds right hright]

end

end Dsl41.Conditions
