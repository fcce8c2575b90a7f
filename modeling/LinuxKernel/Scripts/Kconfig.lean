/- The expressions of scripts/kconfig/expr.c, their values and the functions that rewrite them. -/
import Mathlib.Data.Nat.Notation

namespace Kconfig

inductive Tristate
  | no | mod | yes
deriving DecidableEq

def Tristate.toNat : Tristate → Nat
  | no => 0
  | mod => 1
  | yes => 2

def EXPR_OR (dep1 dep2 : Tristate) : Tristate := if dep2.toNat < dep1.toNat then dep1 else dep2

def EXPR_AND (dep1 dep2 : Tristate) : Tristate := if dep1.toNat < dep2.toNat then dep1 else dep2

/-- `2 - dep` -/
def EXPR_NOT : Tristate → Tristate
  | .no => .yes
  | .mod => .mod
  | .yes => .no

/-- `enum symbol_type` -/
inductive SymbolType
  | unknown | boolean | tristate | int | hex | string | other
deriving DecidableEq

/-- `struct symbol` as `sym_lookup` finds it: a constant (`SYMBOL_CONST`) or a symbol that is configured. -/
inductive Symbol
  | const (name : String)
  | config (name : String) (type : SymbolType)
deriving DecidableEq

def Symbol.type : Symbol → SymbolType
  | const _ => .unknown
  | config _ type => type

def symbolYes : Symbol := .const "y"

def symbolMod : Symbol := .const "m"

def symbolNo : Symbol := .const "n"

/-- `struct symbol_value` -/
structure SymbolValue where
  val : String
  tri : Tristate

/-- What `sym_calc_value` finds for the configured symbols. A boolean symbol is never `m`. -/
structure Assignment where
  curr : String → SymbolType → SymbolValue
  boolean : ∀ name, (curr name .boolean).tri ≠ .mod

/-- `sym->curr.tri`; a constant other than `y` and `m` has no. -/
def symTri (a : Assignment) : Symbol → Tristate
  | .const name => if name = "y" then .yes else if name = "m" then .mod else .no
  | .config name type => (a.curr name type).tri

def Tristate.string : Tristate → String
  | no => "n"
  | mod => "m"
  | yes => "y"

def symGetStringValue (a : Assignment) : Symbol → String
  | .const name => name
  | .config name .boolean => (a.curr name .boolean).tri.string
  | .config name .tristate => (a.curr name .tristate).tri.string
  | .config name type => (a.curr name type).val

/-- `E_OR` and `E_AND` -/
inductive Op
  | or | and
deriving DecidableEq

/-- `E_EQUAL` and `E_UNEQUAL` -/
inductive Comp
  | equal | unequal
deriving DecidableEq

/-- `struct expr` of a dependency, which is not NULL. -/
inductive Expr
  | symbol (sym : Symbol)
  | comp (type : Comp) (left right : Symbol)
  | not (left : Expr)
  | two (type : Op) (left right : Expr)
deriving DecidableEq

namespace Expr

/-- `e->type == E_SYMBOL && e->left.sym == sym` -/
def isSymbol (sym : Symbol) : Expr → Bool
  | symbol s => s = sym
  | _ => false

end Expr

def exprCalcValue (a : Assignment) : Expr → Tristate
  | .symbol sym => symTri a sym
  | .two .and left right => EXPR_AND (exprCalcValue a left) (exprCalcValue a right)
  | .two .or left right => EXPR_OR (exprCalcValue a left) (exprCalcValue a right)
  | .not left => EXPR_NOT (exprCalcValue a left)
  | .comp .equal left right => if symGetStringValue a left = symGetStringValue a right then .yes else .no
  | .comp .unequal left right => if symGetStringValue a left = symGetStringValue a right then .no else .yes

def exprEliminateYn : Expr → Expr
  | .two .and left right =>
    let left := exprEliminateYn left
    let right := exprEliminateYn right
    if left.isSymbol symbolNo then .symbol symbolNo
    else if left.isSymbol symbolYes then right
    else if right.isSymbol symbolNo then .symbol symbolNo
    else if right.isSymbol symbolYes then left
    else .two .and left right
  | .two .or left right =>
    let left := exprEliminateYn left
    let right := exprEliminateYn right
    if left.isSymbol symbolNo then right
    else if left.isSymbol symbolYes then .symbol symbolYes
    else if right.isSymbol symbolNo then left
    else if right.isSymbol symbolYes then .symbol symbolYes
    else .two .or left right
  | e => e

/-- The bound on the depth of the calls is used up. -/
inductive Fault
  | fuel
deriving DecidableEq

/-- The cases `E_EQUAL` and `E_UNEQUAL` of `expr_transform` -/
def transformComp : Comp → Symbol → Symbol → Expr
  | .equal, left, right =>
    if left.type ≠ .boolean then .comp .equal left right
    else if right = symbolNo then .not (.symbol left)
    else if right = symbolMod then .symbol symbolNo
    else if right = symbolYes then .symbol left
    else .comp .equal left right
  | .unequal, left, right =>
    if left.type ≠ .boolean then .comp .unequal left right
    else if right = symbolNo then .symbol left
    else if right = symbolMod then .symbol symbolYes
    else if right = symbolYes then .not (.symbol left)
    else .comp .unequal left right

/-- `E_EQUAL ? E_UNEQUAL : E_EQUAL` -/
def Comp.flip : Comp → Comp
  | equal => unequal
  | unequal => equal

def exprTransform : Nat → Expr → Except Fault Expr
  | 0, _ => .error .fuel
  | _ + 1, .symbol sym => .ok (.symbol sym)
  | _ + 1, .comp type left right => .ok (transformComp type left right)
  | n + 1, .two type left right => do
    let left ← exprTransform n left
    let right ← exprTransform n right
    return .two type left right
  | n + 1, .not left => do
    match ← exprTransform n left with
    -- `!!a -> a`
    | .not a => exprTransform n a
    -- `!a='x' -> a!='x'`
    | .comp type l r => return .comp type.flip l r
    -- `!(a || b) -> !a && !b`
    | .two .or a b => exprTransform n (.two .and (.not a) (.not b))
    -- `!(a && b) -> !a || !b`
    | .two .and a b => exprTransform n (.two .or (.not a) (.not b))
    | .symbol sym =>
      if sym = symbolYes then return .symbol symbolNo
      else if sym = symbolMod then return .symbol symbolMod
      else if sym = symbolNo then return .symbol symbolYes
      else return .not (.symbol sym)

end Kconfig
