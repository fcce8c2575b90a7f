/- The text searches of lib/ts_bm.c and lib/ts_kmp.c in a text that is one block. -/
import Mathlib.Algebra.Group.Int.Defs
import Mathlib.Algebra.Group.Nat.Defs
import Mathlib.Data.Nat.Notation
import Mathlib.Logic.Function.Basic
import LinuxKernel.Foundation.Width

namespace TextSearch

open Function Width

/-- `islower`, with the rows of `_ctype` that have `_L`. -/
def islower (c : UInt8) : Bool := (97 ≤ c && c ≤ 122) || (223 ≤ c && c ≠ 247)

/-- `isupper`, with the rows of `_ctype` that have `_U`. -/
def isupper (c : UInt8) : Bool := (65 ≤ c && c ≤ 90) || (192 ≤ c && c ≤ 222 && c ≠ 215)

def toupper (c : UInt8) : UInt8 := if islower c then c - 32 else c

def tolower (c : UInt8) : UInt8 := if isupper c then c + 32 else c

/-- `icase ? toupper(c) : c` -/
def fold (icase : Bool) (c : UInt8) : UInt8 := if icase then toupper c else c

def UINT_MAX : Nat := 2 ^ 32 - 1

def toInt (n : Nat) : Int := if n < 2 ^ 31 then n else (n : Int) - 2 ^ 32

/-- `max_t(int, a, b)` -/
def maxInt (a b : Nat) : Nat := if toInt a < toInt b then b else a

structure TsBm where
  pattern : List UInt8
  badShift : UInt8 → Nat
  goodShift : Nat → Nat

/-- `pattern[x]` -/
def at_ (pattern : List UInt8) (x : Int) : UInt8 := pattern.getD x.toNat 0

/-- The loop of `subpattern`, with `g` rounds left. -/
def subpatternFrom (pattern : List UInt8) (i j : Int) : Nat → Int → Int → Bool
  | 0, _, _ => false
  | g + 1, x, y =>
    if at_ pattern x = at_ pattern y then
      if y - 1 < 0 then true
      else if g = 0 then at_ pattern (i - 1) != at_ pattern (j - 1)
      else subpatternFrom pattern i j g (x - 1) (y - 1)
    else false

def subpattern (pattern : List UInt8) (i j : Int) (g : Nat) : Bool :=
  subpatternFrom pattern i j g (i + g - 1) (j + g - 1)

/-- `for (j = i-1; j >= 1-g ; j--) if (subpattern(bm->pattern, i, j, g))`, for at most so many `j`. -/
def findOverlap (pattern : List UInt8) (i : Int) (g : Nat) : Nat → Int → Option Int
  | 0, _ => none
  | n + 1, j =>
    if 1 - (g : Int) ≤ j then
      if subpattern pattern i j g then some j else findOverlap pattern i g n (j - 1)
    else none

/-- The body of the first loop of `compute_prefix_tbl` -/
def badShiftStep (pattern : List UInt8) (icase : Bool) (tbl : UInt8 → Nat) (i : Nat) : UInt8 → Nat :=
  let c := pattern.getD i 0
  let tbl := update tbl c (pattern.length - 1 - i)
  if icase then update tbl (tolower c) (pattern.length - 1 - i) else tbl

def badShiftTbl (pattern : List UInt8) (icase : Bool) : UInt8 → Nat :=
  (List.range (pattern.length - 1)).foldl (badShiftStep pattern icase) fun _ => pattern.length

/-- The body of the last loop of `compute_prefix_tbl` for `g = n + 1` and `i = patlen - g` -/
def goodShiftStep (pattern : List UInt8) (tbl : Nat → Nat) (n : Nat) : Nat → Nat :=
  let g : Nat := n + 1
  let i : Int := (pattern.length : Int) - g
  match findOverlap pattern i g pattern.length (i - 1) with
  | some j => update tbl g ((pattern.length : Int) - j - g).toNat
  | none => tbl

def goodShiftTbl (pattern : List UInt8) : Nat → Nat :=
  (List.range (pattern.length - 1)).foldl (goodShiftStep pattern) fun g => if g = 0 then 1 else pattern.length

def bmInit (pattern : List UInt8) (icase : Bool) : TsBm :=
  let pattern := pattern.map (fold icase)
  ⟨pattern, badShiftTbl pattern icase, goodShiftTbl pattern⟩

/-- The first `i` at which the text that ends at `shift` differs. -/
def mismatch (bm : TsBm) (icase : Bool) (text : List UInt8) (shift : Nat) : Option Nat :=
  (List.range bm.pattern.length).find? fun i =>
    fold icase (text.getD (shift - i) 0) != bm.pattern.getD (bm.pattern.length - 1 - i) 0

/-- The inner loop of `bm_find`, for at most so many rounds: the `shift` at which the pattern is found. -/
def bmSearch (bm : TsBm) (icase : Bool) (text : List UInt8) : Nat → Nat → Option Nat
  | 0, _ => none
  | n + 1, shift =>
    if shift < text.length then
      match mismatch bm icase text shift with
      | none => some shift
      | some i =>
        let bs := bm.badShift (text.getD (shift - i) 0)
        bmSearch bm icase text n (maxInt (u32 (2 ^ 32 + shift - i + bs)) (u32 (shift + bm.goodShift i)))
    else none

/-- `bm_find`, where the text at `consumed` is one block. -/
def bmFind (bm : TsBm) (icase : Bool) (text : List UInt8) (consumed : Nat) : Nat :=
  match bmSearch bm icase text (text.length + 1) (bm.pattern.length - 1) with
  | some shift => u32 (consumed + (shift - (bm.pattern.length - 1)))
  | none => UINT_MAX

structure TsKmp where
  pattern : List UInt8
  prefixTbl : Nat → Nat

/-- `while (q > 0 && pattern[q] != c) q = prefix_tbl[q - 1];` for at most so many rounds. -/
def fallBack (pattern : List UInt8) (tbl : Nat → Nat) (c : UInt8) : Nat → Nat → Nat
  | 0, q => q
  | n + 1, q =>
    if 0 < q ∧ pattern.getD q 0 ≠ c then fallBack pattern tbl c n (tbl (q - 1)) else q

/-- `q` after one more character; it goes down in each round of the loop. -/
def advance (pattern : List UInt8) (tbl : Nat → Nat) (q : Nat) (c : UInt8) : Nat :=
  let q := fallBack pattern tbl c q q
  if pattern.getD q 0 = c then q + 1 else q

/-- `compute_prefix_tbl` of the pattern with its characters folded: `k` and the table, which is allocated with
zeros. -/
def prefixTblLoop (pattern : List UInt8) : Nat → Nat × (Nat → Nat)
  | 0 => (0, fun _ => 0)
  | n + 1 =>
    let (k, tbl) := prefixTblLoop pattern n
    -- this round has `q = n + 1`
    let k := advance pattern tbl k (pattern.getD (n + 1) 0)
    (k, update tbl (n + 1) k)

def kmpInit (pattern : List UInt8) (icase : Bool) : TsKmp :=
  let pattern := pattern.map (fold icase)
  ⟨pattern, (prefixTblLoop pattern (pattern.length - 1)).2⟩

/-- The loop of `kmp_find` over the text from `i` on: the `i` behind the pattern. -/
def kmpSearch (kmp : TsKmp) (icase : Bool) : List UInt8 → Nat → Nat → Option Nat
  | [], _, _ => none
  | c :: text, i, q =>
    let q := advance kmp.pattern kmp.prefixTbl q (fold icase c)
    if q = kmp.pattern.length then some (i + 1) else kmpSearch kmp icase text (i + 1) q

/-- `kmp_find`, where the text at `consumed` is one block. -/
def kmpFind (kmp : TsKmp) (icase : Bool) (text : List UInt8) (consumed : Nat) : Nat :=
  match kmpSearch kmp icase text 0 0 with
  | some i => u32 (2 ^ 32 + u32 (consumed + i) - kmp.pattern.length)
  | none => UINT_MAX

end TextSearch
