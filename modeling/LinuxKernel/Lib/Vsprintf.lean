/- format_decode() and vsnprintf() of lib/vsprintf.c; pointers into a buffer are offsets from its start. -/
import LinuxKernel.Foundation.Loop
import LinuxKernel.Lib.VsprintfText

namespace Vsprintf

open Emit (Sink Cursor)

/-- `skip_atoi`: the number so far, the digits and what follows them. -/
def skipAtoi (i : BitVec 32) : List UInt8 → BitVec 32 × List UInt8
  | [] => (i, [])
  | c :: fmt => if isdigit c then skipAtoi (i * 10 + BitVec.ofNat 32 c.toNat - 48) fmt else (i, c :: fmt)

/-- The bit of a flag character. -/
def flagOf (c : UInt8) : Option UInt8 :=
  if c = ch '-' then some Flag.left
  else if c = ch '+' then some Flag.plus
  else if c = ch ' ' then some Flag.space
  else if c = ch '#' then some Flag.special
  else if c = ch '0' then some Flag.zeropad
  else none

/-- The loop over the flags after the '%'. -/
def decodeFlags (flags : UInt8) : List UInt8 → UInt8 × List UInt8
  | [] => (flags, [])
  | c :: fmt =>
    match flagOf c with
    | some flag => decodeFlags (flags ||| flag) fmt
    | none => (flags, c :: fmt)

/-- `TOLOWER` -/
def lower (c : UInt8) : UInt8 := c ||| 0x20

def integerType (qualifier : UInt8) (signed : Bool) : FormatType :=
  if qualifier = ch 'L' then .longLong
  else if qualifier = ch 'l' then if signed then .long else .ulong
  else if lower qualifier = ch 'z' then .sizeT
  else if qualifier = ch 't' then .ptrdiff
  else if qualifier = ch 'H' then if signed then .byte else .ubyte
  else if qualifier = ch 'h' then if signed then .short else .ushort
  else if signed then .int else .uint

/-- What a conversion character stands for: a type, whether or not the character is taken, or an integer with its
base and the flag it sets. -/
inductive Conversion
  | token (type : FormatType) (taken : Bool)
  | integer (base : ℕ) (flag : UInt8)

def conversionOf (c : UInt8) : Conversion :=
  if c = ch 'c' then .token .char true
  else if c = ch 's' then .token .str true
  else if c = ch 'p' then .token .ptr false
  else if c = ch 'n' then .token .nrchars true
  else if c = ch '%' then .token .percentChar true
  else if c = ch 'o' then .integer 8 0
  else if c = ch 'x' then .integer 16 Flag.small
  else if c = ch 'X' then .integer 16 0
  else if c = ch 'd' ∨ c = ch 'i' then .integer 10 Flag.sign
  else if c = ch 'u' then .integer 10 0
  else .token .invalid false

/-- The switch on the conversion; the result is the spec and where the format goes on. -/
def decodeConversion (fmt : List UInt8) (spec : Spec) : Spec × List UInt8 :=
  match conversionOf (charAt fmt 0) with
  | .token type taken => ({ spec with base := 10, type }, if taken then fmt.tail else fmt)
  | .integer base flag =>
    let spec := { spec with base, flags := spec.flags ||| flag }
    ({ spec with type := integerType spec.qualifier (spec.has Flag.sign) }, fmt.tail)

/-- From the label `qualifier` on. -/
def decodeQualifier (fmt : List UInt8) (spec : Spec) : Spec × List UInt8 :=
  let c := charAt fmt 0
  if c = ch 'h' ∨ lower c = ch 'l' ∨ lower c = ch 'z' ∨ c = ch 't' then
    let next := charAt fmt 1
    if c = next ∧ c = ch 'l' then decodeConversion (fmt.drop 2) { spec with qualifier := ch 'L' }
    else if c = next ∧ c = ch 'h' then decodeConversion (fmt.drop 2) { spec with qualifier := ch 'H' }
    else decodeConversion fmt.tail { spec with qualifier := c }
  else decodeConversion fmt { spec with qualifier := 255 }

def int16 (i : BitVec 32) : ℤ := s16 i.toInt

/-- From the label `precision` on. -/
def decodePrecision (fmt : List UInt8) (spec : Spec) : Spec × List UInt8 :=
  if charAt fmt 0 = ch '.' then
    let fmt := fmt.tail
    if isdigit (charAt fmt 0) then
      let (i, fmt) := skipAtoi 0 fmt
      decodeQualifier fmt { spec with precision := max (int16 i) 0 }
    else if charAt fmt 0 = ch '*' then ({ spec with precision := -1, type := .precision }, fmt.tail)
    else decodeQualifier fmt { spec with precision := -1 }
  else decodeQualifier fmt { spec with precision := -1 }

/-- After the flags. -/
def decodeWidth (fmt : List UInt8) (spec : Spec) : Spec × List UInt8 :=
  if isdigit (charAt fmt 0) then
    let (i, fmt) := skipAtoi 0 fmt
    decodePrecision fmt { spec with fieldWidth := int16 i }
  else if charAt fmt 0 = ch '*' then ({ spec with fieldWidth := -1, type := .width }, fmt.tail)
  else decodePrecision fmt { spec with fieldWidth := -1 }

def literal (fmt : List UInt8) : List UInt8 := fmt.takeWhile fun c => c != 0 && c != ch '%'

/-- One token of the format: the spec after it, and where the format goes on. -/
def formatDecode (fmt : List UInt8) (spec : Spec) : Spec × List UInt8 :=
  if spec.type = .width then
    -- we finished early by reading the field width
    if spec.fieldWidth < 0 then
      decodePrecision fmt
        { spec with fieldWidth := s16 (-spec.fieldWidth), flags := spec.flags ||| Flag.left, type := .none }
    else decodePrecision fmt { spec with type := .none }
  else if spec.type = .precision then
    -- we finished early by reading the precision
    decodeQualifier fmt { spec with precision := max spec.precision 0, type := .none }
  else if literal fmt ≠ [] ∨ charAt fmt 0 = 0 then
    ({ spec with type := .none }, fmt.drop (literal fmt).length)
  else
    let (flags, fmt) := decodeFlags 0 fmt.tail
    decodeWidth fmt { spec with type := .none, flags }

structure Source (α : Type) where
  int : α → BitVec 32 × α
  char : α → UInt8 × α
  /-- The text at the next pointer. -/
  str : α → List UInt8 × α
  ptr : α → ℕ × α
  num : FormatType → α → BitVec 64 × α
  /-- The pointer of a `%n`, if it is used. -/
  nrchars : α → Option ℕ × α

structure Print (α σ : Type) where
  fmt : List UInt8
  spec : Spec := {}
  args : α
  out : σ
  /-- The pointers that a `%n` wrote through. -/
  stored : List ℕ := []

/-- The rounds of `while (--width > 0)` and the width after them. -/
def countAbove (width : ℤ) : ℕ × ℤ :=
  if 0 < s16 (width - 1) then ((s16 (width - 1)).toNat, 0) else (0, s16 (width - 1))

variable {α σ : Type}

def printChar (sink : Sink UInt8 σ) (c : UInt8) (spec : Spec) (k : σ) : σ :=
  let (spaces, width) :=
    if spec.flags &&& Flag.left = 0 then countAbove spec.fieldWidth else (0, spec.fieldWidth)
  let k := sink.pad (ch ' ') spaces k
  let k := sink.put c k
  sink.pad (ch ' ') (countAbove width).1 k

/-- The switch on the type of a token; `old` is the format before it. -/
def printToken (m : Machine) (src : Source α) (sink : Sink UInt8 σ) (old : List UInt8) (p : Print α σ) : Print α σ :=
  match p.spec.type with
  | .none => { p with out := sink.copy (old.take (old.length - p.fmt.length)) p.out }
  | .width => { p with spec := { p.spec with fieldWidth := int16 (src.int p.args).1 }, args := (src.int p.args).2 }
  | .precision => { p with spec := { p.spec with precision := int16 (src.int p.args).1 }, args := (src.int p.args).2 }
  | .char => { p with out := printChar sink (src.char p.args).1 p.spec p.out, args := (src.char p.args).2 }
  | .str => { p with out := string sink m.bits (src.str p.args).1 p.spec p.out, args := (src.str p.args).2 }
  | .ptr =>
    { p with
      out := pointer m sink p.fmt.tail (src.ptr p.args).1 p.spec p.out
      args := (src.ptr p.args).2
      fmt := p.fmt.dropWhile isalnum }
  | .percentChar => { p with out := sink.put (ch '%') p.out }
  | .invalid => { p with out := sink.put (ch '%') p.out }
  | .nrchars =>
    { p with stored := (src.nrchars p.args).1.toList ++ p.stored, args := (src.nrchars p.args).2 }
  | type =>
    { p with out := number sink (src.num type p.args).1 p.spec p.out, args := (src.num type p.args).2 }

/-- One round of `while (*fmt)`. -/
def printRound (m : Machine) (src : Source α) (sink : Sink UInt8 σ) (p : Print α σ) : Print α σ ⊕ (σ × List ℕ) :=
  if charAt p.fmt 0 = 0 then .inr (p.out, p.stored)
  else
    let (spec, fmt) := formatDecode p.fmt p.spec
    .inl (printToken m src sink p.fmt { p with spec, fmt })

/-- A token that took no character of the format comes only after a width or a precision. -/
def rounds (fmt : List UInt8) : ℕ := 2 * fmt.length + 2

def print (m : Machine) (src : Source α) (sink : Sink UInt8 σ) (fmt : List UInt8) (args : α) (out : σ) :
    Option (σ × List ℕ) :=
  Loop.run (printRound m src sink) (rounds fmt) { fmt, args, out }

/-- `string()` prints no string from the first page. -/
def Machine.stringAt (m : Machine) (ptr : ℕ) : List UInt8 := if ptr < m.pageSize then text "(null)" else m.string ptr

/-- An unsigned long, or a pointer, in a slot of the argument list. -/
def Machine.ulong (m : Machine) (arg : BitVec 64) : ℕ := arg.toNat % 2 ^ m.bits

/-- `num = va_arg(args, …)` by the type of the conversion. -/
def vaNum (m : Machine) (type : FormatType) (arg : BitVec 64) : BitVec 64 :=
  match type with
  | .longLong => arg
  | .ulong => (arg.setWidth m.bits).setWidth 64
  | .long => (arg.setWidth m.bits).signExtend 64
  | .sizeT => (arg.setWidth m.bits).setWidth 64
  | .ptrdiff => (arg.setWidth m.bits).signExtend 64
  | .ubyte => (arg.setWidth 8).setWidth 64
  | .byte => (arg.setWidth 8).signExtend 64
  | .ushort => (arg.setWidth 16).setWidth 64
  | .short => (arg.setWidth 16).signExtend 64
  | .int => (arg.setWidth 32).signExtend 64
  | _ => (arg.setWidth 32).setWidth 64

/-- A `va_list`: the arguments, of which the first ones are taken. -/
def vaList (m : Machine) (args : ℕ → BitVec 64) : Source ℕ where
  int n := ((args n).setWidth 32, n + 1)
  char n := (UInt8.ofBitVec ((args n).setWidth 8), n + 1)
  str n := (m.stringAt (m.ulong (args n)), n + 1)
  ptr n := (m.ulong (args n), n + 1)
  num type n := (vaNum m type (args n), n + 1)
  nrchars n := (some (m.ulong (args n)), n + 1)

def toInt (n : ℕ) : ℤ := (n : ℤ).bmod (2 ^ 32)

/-- What a call gives: its value, the memory from `buf` on, and the pointers a `%n` wrote through. -/
structure Result where
  value : ℤ
  mem : ℕ → UInt8
  stored : List ℕ

def terminate (size : ℕ) (k : Cursor UInt8) : ℕ → UInt8 :=
  if 0 < size then Function.update k.mem (if k.pos < size then k.pos else size - 1) 0 else k.mem

/-- The text of vsnprintf() and bstr_printf() around the loop. -/
def printInto (m : Machine) (src : Source α) (mem : ℕ → UInt8) (size : ℕ) (fmt : List UInt8) (args : α) :
    Option Result :=
  if toInt size < 0 then some { value := 0, mem, stored := [] }
  else
    (print m src (Emit.bounded size) fmt args ⟨mem, 0⟩).map fun (k, stored) =>
      { value := toInt k.pos, mem := terminate size k, stored }

def vsnprintf (m : Machine) (mem : ℕ → UInt8) (size : ℕ) (fmt : List UInt8) (args : ℕ → BitVec 64) : Option Result :=
  printInto m (vaList m args) mem size fmt 0

end Vsprintf
