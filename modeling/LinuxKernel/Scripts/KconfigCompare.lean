/- `expr_trans_compare` of scripts/kconfig/expr.c: a comparison with a constant is pushed to the symbols. -/
import LinuxKernel.Scripts.KconfigTransform

namespace Kconfig

variable {a : Assignment}

/-- `symbol_no`, `symbol_mod` and `symbol_yes` -/
def Tristate.symbol : Tristate → Symbol
  | no => symbolNo
  | mod => symbolMod
  | yes => symbolYes

/-- `if (type == E_UNEQUAL) e = expr_alloc_one(E_NOT, e)` -/
def notUnequal (e : Expr) : Comp → Expr
  | .equal => e
  | .unequal => .not e

/-- `expr_trans_compare`, for one of the three constants. -/
def exprTransCompare (sym : Tristate) : Expr → Comp → Expr
  | .two op left right, type =>
    let e1 := exprTransCompare sym left .equal
    let e2 := exprTransCompare sym right .equal
    match sym with
    | .yes => notUnequal (.two op e1 e2) type
    | .no => notUnequal (.two op.dual e1 e2) type
    | .mod => notUnequal (.two op left right) type
  | .not left, type => exprTransCompare sym left type.flip
  | .comp t l r, type =>
    match type, sym with
    | .equal, .yes => .comp t l r
    | .equal, .mod => .symbol symbolNo
    | .equal, .no => .not (.comp t l r)
    | .unequal, .yes => .not (.comp t l r)
    | .unequal, .mod => .symbol symbolYes
    | .unequal, .no => .comp t l r
  | .symbol s, type => .comp type s sym.symbol

def Comp.holds (type : Comp) (x y : Tristate) : Tristate :=
  match type with
  | equal => if x = y then .yes else .no
  | unequal => if x = y then .no else .yes

/-- A boolean or tristate symbol, or one of the three constants. -/
def Symbol.Logical (s : Symbol) : Prop :=
  s.type = .boolean ∨ s.type = .tristate ∨ ∃ x : Tristate, s = x.symbol

/-- The symbols that are terms of their own are logical. -/
def OverLogical : Expr → Prop
  | .symbol s => s.Logical
  | .comp _ _ _ => True
  | .not e => OverLogical e
  | .two _ l r => OverLogical l ∧ OverLogical r

/-- `m` is taken for the other one of `n` and `y`. -/
def Tristate.round (sym x : Tristate) : Tristate := if x = sym then sym else EXPR_NOT sym

/-- The value of the expression when `m` is rounded in the symbols already, and not at the end. -/
def calcRounded (a : Assignment) (sym : Tristate) : Expr → Tristate
  | .symbol s => sym.round (symTri a s)
  | .two .and left right => EXPR_AND (calcRounded a sym left) (calcRounded a sym right)
  | .two .or left right => EXPR_OR (calcRounded a sym left) (calcRounded a sym right)
  | .not left => EXPR_NOT (calcRounded a sym left)
  | .comp t l r => exprCalcValue a (.comp t l r)

theorem Symbol.Logical.string {s : Symbol} (h : s.Logical) : symGetStringValue a s = (symTri a s).string := by
  rcases h with boolean | tristate | ⟨x, rfl⟩
  · obtain ⟨name, rfl⟩ := type_eq_boolean boolean
    rfl
  · cases s with
    | const name => cases tristate
    | config name type =>
      cases tristate
      rfl
  · cases x <;> rfl

theorem Tristate.string_inj {x y : Tristate} : x.string = y.string ↔ x = y := by
  cases x <;> cases y <;> decide

theorem symTri_symbol (x : Tristate) : symTri a x.symbol = x := by
  cases x <;> rfl

theorem calc_notUnequal (e : Expr) (type : Comp) {x y : Tristate} (h : exprCalcValue a e = Comp.equal.holds x y) :
    exprCalcValue a (notUnequal e type) = type.holds x y := by
  cases type with
  | equal => exact h
  | unequal =>
    rw [notUnequal, calc_not, h]
    cases x <;> cases y <;> rfl

theorem calc_comp_ne_mod (t : Comp) (l r : Symbol) : exprCalcValue a (.comp t l r) ≠ .mod := by
  cases t <;> rw [exprCalcValue] <;> split <;> decide

theorem Tristate.round_eq {sym : Tristate} (const : sym ≠ .mod) (x : Tristate) : sym.round x = sym ↔ x = sym := by
  cases sym <;> cases x <;> first | decide | contradiction

theorem calcRounded_ne_mod {sym : Tristate} (const : sym ≠ .mod) (e : Expr) : calcRounded a sym e ≠ .mod := by
  induction e with
  | symbol s => cases sym <;> cases h : symTri a s <;> simp_all [calcRounded, Tristate.round, EXPR_NOT]
  | comp t l r => exact calc_comp_ne_mod t l r
  | not e ih =>
    rw [calcRounded]
    cases h : calcRounded a sym e <;> first | decide | contradiction
  | two op l r ihl ihr =>
    cases op <;> rw [calcRounded] <;> cases h : calcRounded a sym l <;> cases h' : calcRounded a sym r <;>
      first | decide | contradiction

/-- The comparison is made in the symbols, and a negation then takes `m` for its opposite. -/
theorem calc_exprTransCompare {sym : Tristate} (const : sym ≠ .mod) {e : Expr} (logical : OverLogical e)
    (type : Comp) :
    exprCalcValue a (exprTransCompare sym e type) = type.holds (calcRounded a sym e) sym := by
  induction e generalizing type with
  | symbol s =>
    have const' : sym.symbol.Logical := .inr (.inr ⟨sym, rfl⟩)
    have same : symGetStringValue a s = symGetStringValue a sym.symbol ↔ symTri a s = sym := by
      rw [Symbol.Logical.string logical, const'.string, symTri_symbol, Tristate.string_inj]
    cases type <;> simp only [exprTransCompare, exprCalcValue, Comp.holds, same, calcRounded, Tristate.round_eq const]
  | comp t l r =>
    have two := calc_comp_ne_mod (a := a) t l r
    cases type <;> cases sym <;> simp only [exprTransCompare, calc_not, calcRounded] <;>
      cases h : exprCalcValue a (.comp t l r) <;> first | rfl | contradiction
  | not e ih =>
    rw [exprTransCompare, ih logical, calcRounded]
    have two := calcRounded_ne_mod (a := a) const e
    generalize calcRounded a sym e = x at *
    cases type <;> cases sym <;> cases x <;> first | rfl | contradiction
  | two op l r ihl ihr =>
    have left := ihl logical.1 .equal
    have right := ihr logical.2 .equal
    cases sym with
    | mod => contradiction
    | no | yes =>
      apply calc_notUnequal
      rw [calc_two, left, right]
      cases op <;> rw [calcRounded] <;> cases calcRounded a _ l <;> cases calcRounded a _ r <;> rfl

/-- The comparison of the values is computed if and only if `m` may as well be rounded in the symbols. -/
theorem expr_trans_compare_iff {sym : Tristate} (const : sym ≠ .mod) {e : Expr} (logical : OverLogical e)
    (type : Comp) :
    exprCalcValue a (exprTransCompare sym e type) = type.holds (exprCalcValue a e) sym ↔
      calcRounded a sym e = sym.round (exprCalcValue a e) := by
  rw [calc_exprTransCompare const logical]
  have two := calcRounded_ne_mod (a := a) const e
  cases type <;> cases sym <;> cases h : calcRounded a _ e <;> cases exprCalcValue a e <;>
    first | decide | contradiction

def notFoo : Expr := .not (.symbol (.config "FOO" .tristate))

def everywhere (x : Tristate) : Assignment :=
  ⟨fun _ type => if type = .tristate then ⟨"", x⟩ else ⟨"", .no⟩, fun _ => by simp⟩

/-- The second negation makes good for the first. -/
theorem expr_trans_compare_iff_twice : exprCalcValue (everywhere .mod) (.not notFoo) = .mod ∧
    exprCalcValue (everywhere .mod) (exprTransCompare .yes (.not notFoo) .equal) = .no :=
  ⟨rfl, (@expr_trans_compare_iff _ .yes (by decide) (.not notFoo) (.inr (.inl rfl)) .equal).mpr rfl⟩

/-- `!FOO` is `m`, but `!FOO = y` becomes `FOO != y`, which is `y`, and `!FOO != n` becomes `FOO = n`. -/
theorem expr_trans_compare_module : exprCalcValue (everywhere .mod) notFoo = .mod ∧ OverLogical notFoo ∧
    exprCalcValue (everywhere .mod) (exprTransCompare .yes notFoo .equal) = .yes ∧
    exprCalcValue (everywhere .mod) (exprTransCompare .no notFoo .unequal) = .no :=
  ⟨rfl, .inr (.inl rfl), rfl, rfl⟩

end Kconfig
