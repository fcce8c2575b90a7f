/- Pushing negations inwards and dropping constants keeps the value of an expression. -/
import Mathlib.Algebra.Order.Ring.Nat
import Mathlib.Tactic.SplitIfs
import LinuxKernel.Foundation.Fuel
import LinuxKernel.Scripts.Kconfig

namespace Kconfig

open Fuel

variable {a : Assignment} {x y : Tristate}

/-- `EXPR_OR` or `EXPR_AND` -/
def Op.apply : Op → Tristate → Tristate → Tristate
  | or => EXPR_OR
  | and => EXPR_AND

def Op.unit : Op → Tristate
  | or => .no
  | and => .yes

/-- The symbol that an operation can drop -/
def Op.neutral : Op → Symbol
  | or => symbolNo
  | and => symbolYes

def Op.dual : Op → Op
  | or => and
  | and => or

theorem Op.apply_comm (t : Op) : t.apply x y = t.apply y x := by
  cases t <;> cases x <;> cases y <;> rfl

@[simp] theorem Op.apply_unit (t : Op) : t.apply x t.unit = x := by
  cases t <;> cases x <;> rfl

@[simp] theorem Op.unit_apply (t : Op) : t.apply t.unit x = x := by
  cases t <;> cases x <;> rfl

@[simp] theorem EXPR_NOT_not : EXPR_NOT (EXPR_NOT x) = x := by
  cases x <;> rfl

theorem EXPR_NOT_apply (t : Op) : EXPR_NOT (t.apply x y) = t.dual.apply (EXPR_NOT x) (EXPR_NOT y) := by
  cases t <;> cases x <;> cases y <;> rfl

@[simp] theorem calc_two (t : Op) (l r : Expr) :
    exprCalcValue a (.two t l r) = t.apply (exprCalcValue a l) (exprCalcValue a r) := by
  cases t <;> rfl

@[simp] theorem calc_not (e : Expr) : exprCalcValue a (.not e) = EXPR_NOT (exprCalcValue a e) := by
  rw [exprCalcValue]

@[simp] theorem calc_neutral (t : Op) : exprCalcValue a (.symbol t.neutral) = t.unit := by
  cases t <;> rfl

theorem calc_comp_flip (t : Comp) (l r : Symbol) :
    exprCalcValue a (.comp t.flip l r) = EXPR_NOT (exprCalcValue a (.comp t l r)) := by
  cases t <;> rw [Comp.flip, exprCalcValue, exprCalcValue] <;> split <;> rfl

theorem boolean_cases (name : String) :
    (a.curr name .boolean).tri = .no ∨ (a.curr name .boolean).tri = .yes := by
  have := a.boolean name
  cases h : (a.curr name .boolean).tri <;> simp_all

theorem type_eq_boolean {s : Symbol} (h : s.type = .boolean) : ∃ name, s = .config name .boolean := by
  cases s with
  | const name => cases h
  | config name type => exact ⟨name, by rw [← h, Symbol.type]⟩

theorem calc_transformComp (t : Comp) (l r : Symbol) :
    exprCalcValue a (transformComp t l r) = exprCalcValue a (.comp t l r) := by
  by_cases boolean : l.type = .boolean
  · obtain ⟨name, rfl⟩ := type_eq_boolean boolean
    have values := boolean_cases (a := a) name
    cases t with
    | equal | unequal =>
      rw [transformComp, if_neg (not_not.mpr boolean)]
      split_ifs with h h h
      on_goal 4 => rfl
      all_goals
        subst h
        rcases values with v | v <;>
          simp [exprCalcValue, symGetStringValue, symTri, v, Tristate.string, EXPR_NOT, symbolNo,
            symbolMod, symbolYes]
  · cases t with
    | equal | unequal => rw [transformComp, if_pos boolean]

/-- The work that is left: a negation doubles it, since it is pushed to both sides of an operation. -/
def weight : Expr → Nat
  | .symbol _ => 1
  | .comp _ _ _ => 2
  | .not e => 2 * weight e
  | .two _ l r => weight l + weight r + 1

theorem weight_pos (e : Expr) : 0 < weight e := by
  induction e with
  | symbol s => exact Nat.one_pos
  | comp t l r => exact Nat.two_pos
  | not e ih | two t l r ihl ihr =>
    rw [weight]
    omega

theorem weight_transformComp (t : Comp) (l r : Symbol) : weight (transformComp t l r) ≤ 2 := by
  cases t <;> rw [transformComp] <;> split_ifs <;> simp [weight]

/-- What `expr_transform` returns for an expression. -/
structure Transformed (e e' : Expr) : Prop where
  weight : weight e' ≤ weight e
  value : ∀ a, exprCalcValue a e' = exprCalcValue a e

theorem exprTransform_ensures (e : Expr) : Ensures (exprTransform · e) (Transformed e) := by
  -- on the weight, which goes down even where the new expression is larger
  generalize bound : weight e = k
  induction k using Nat.strong_induction_on generalizing e with
  | _ k ih =>
  have again : ∀ e', weight e' < k → Ensures (exprTransform · e') (Transformed e') := fun e' lt => ih _ lt e' rfl
  cases e with
  | symbol s => exact .succ (.const ⟨le_rfl, fun _ => rfl⟩) fun n => rfl
  | comp t l r => exact .succ (.const ⟨weight_transformComp t l r, fun a => calc_transformComp t l r⟩) fun n => rfl
  | two t l r =>
    rw [weight] at bound
    apply Ensures.succ _ fun n => rfl
    refine .bind (again l (by omega)) fun l' left => ?_
    refine .bind (again r (by omega)) fun r' right => ?_
    refine .const ⟨?_, fun a => by simp [left.value, right.value]⟩
    have := left.weight
    have := right.weight
    rw [weight, weight]
    omega
  | not e =>
    rw [weight] at bound
    have pos := weight_pos e
    apply Ensures.succ _ fun n => rfl
    refine .bind (again e (by omega)) fun e' inner => ?_
    have less := inner.weight
    cases e' with
    | symbol s =>
      have value : ∀ s', (∀ a, symTri a s' = EXPR_NOT (symTri a s)) → Transformed (.not e) (.symbol s') := by
        intro s' eq
        refine ⟨weight_pos (.not e), fun a => ?_⟩
        rw [calc_not, ← inner.value a]
        exact eq a
      change Ensures (fun n => if s = symbolYes then _ else _) _
      split_ifs with yes mod no
      · subst yes
        exact .const (value _ fun _ => rfl)
      · subst mod
        exact .const (value _ fun _ => rfl)
      · subst no
        exact .const (value _ fun _ => rfl)
      · refine .const ⟨?_, fun a => by rw [calc_not, calc_not, inner.value]⟩
        simp only [weight]
        omega
    | comp t l r =>
      refine .const ⟨by simp only [weight] at less ⊢; omega, fun a => ?_⟩
      rw [calc_comp_flip, calc_not, inner.value]
    | not y =>
      rw [weight] at less
      refine (again y (by omega)).mono fun y' result => ⟨?_, fun a => ?_⟩
      · rw [weight]
        exact result.weight.trans (by omega)
      · rw [result.value, calc_not, ← inner.value, calc_not, EXPR_NOT_not]
    | two t l r =>
      rw [weight] at less
      have swap : Ensures (exprTransform · (.two t.dual (.not l) (.not r))) (Transformed (.not e)) := by
        refine (again _ (by simp only [weight]; omega)).mono fun e'' result => ⟨?_, fun a => ?_⟩
        · refine result.weight.trans ?_
          simp only [weight]
          omega
        · rw [result.value, calc_two, calc_not, calc_not, calc_not, ← EXPR_NOT_apply, ← calc_two, inner.value]
      cases t with
      | or | and => exact swap

theorem isSymbol_eq {s : Symbol} {e : Expr} : e.isSymbol s = true ↔ e = .symbol s := by
  cases e <;> simp [Expr.isSymbol]

def IsYn (e : Expr) : Prop := e = .symbol symbolYes ∨ e = .symbol symbolNo

/-- One side decides, one side goes away, or both stay. -/
theorem exprEliminateYn_two (t : Op) (l r : Expr) {l' r' e : Expr} (left : exprEliminateYn l = l')
    (right : exprEliminateYn r = r')
    (result : exprEliminateYn (.two t l r) = e) :
    e = .symbol t.dual.neutral ∧ (l' = e ∨ r' = e) ∨ e = l' ∧ r' = .symbol t.neutral ∨
    e = r' ∧ l' = .symbol t.neutral ∨ e = .two t l' r' ∧ ¬IsYn l' ∧ ¬IsYn r' := by
  cases t with
  | or | and =>
    rw [exprEliminateYn, left, right] at result
    simp only [isSymbol_eq] at result
    subst result
    split_ifs with lno lyes rno ryes <;> simp_all [IsYn, Op.neutral, Op.dual]

theorem Op.apply_dual_unit (t : Op) : t.apply t.dual.unit x = t.dual.unit := by
  cases t <;> cases x <;> rfl

theorem calc_exprEliminateYn (e : Expr) : exprCalcValue a (exprEliminateYn e) = exprCalcValue a e := by
  induction e with
  | symbol s | comp t l r | not e => rfl
  | two t l r ihl ihr =>
    rw [calc_two, ← ihl, ← ihr]
    rcases exprEliminateYn_two t l r rfl rfl rfl with ⟨eq, one | one⟩ | ⟨eq, one⟩ | ⟨eq, one⟩ | ⟨eq, -⟩
    · rw [one, eq, calc_neutral, t.apply_dual_unit]
    · rw [one, eq, calc_neutral, t.apply_comm, t.apply_dual_unit]
    · rw [eq, one, calc_neutral, t.apply_unit]
    · rw [eq, one, calc_neutral, t.unit_apply]
    · rw [eq, calc_two]

/-- `expr_transform` ends for every expression, and its result and that of `expr_eliminate_yn` have the value of
the expression under every assignment. -/
theorem expr_transform_preserves_value (e : Expr) :
    (∃ e', Ends (exprTransform · e) e' ∧ ∀ a, exprCalcValue a e' = exprCalcValue a e) ∧
    ∀ a, exprCalcValue a (exprEliminateYn e) = exprCalcValue a e := by
  obtain ⟨e', ends, result⟩ := exprTransform_ensures e
  exact ⟨⟨e', ends, result.value⟩, fun a => calc_exprEliminateYn e⟩

end Kconfig
