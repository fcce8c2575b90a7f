/- vbin_printf() and bstr_printf() of lib/vsprintf.c: the arguments of a format packed in a buffer of 32-bit words.
Offsets are from the start of the buffer, which is aligned to a word. -/
import LinuxKernel.Foundation.Lanes
import LinuxKernel.Lib.VsprintfBound

namespace Vsprintf

open Emit (Sink Cursor)
open Lanes (ofBytes)

/-- `PTR_ALIGN` -/
def align (a pos : ℕ) : ℕ := (pos + a - 1) / a * a

/-- `sizeof(type)` of what is packed for a conversion. -/
def Machine.argSize (m : Machine) : FormatType → ℕ
  | .longLong => 8
  | .ulong | .long | .sizeT | .ptrdiff | .ptr => m.bits / 8
  | .char | .ubyte | .byte => 1
  | .ushort | .short => 2
  | _ => 4

/-- Where an argument of this size is packed: one of eight bytes is two words. -/
def place (n pos : ℕ) : ℕ := align (if n = 8 then 4 else n) pos

/-- The order of the bytes of a value in memory. -/
def Machine.lane (m : Machine) (n i : ℕ) : ℕ := if m.bigEndian then n - 1 - i else i

/-- An argument that has been packed, and where it ends. -/
structure Packed where
  type : FormatType
  arg : BitVec 64
  stop : ℕ
  deriving DecidableEq

structure Pack where
  fmt : List UInt8
  spec : Spec := {}
  args : ℕ := 0
  str : ℕ := 0
  mem : ℕ → UInt8
  /-- What has been packed; the loop has no such record. -/
  packed : List Packed := []

def Machine.bytes (m : Machine) (n : ℕ) (value : BitVec 64) : List UInt8 :=
  (List.range n).map fun i => UInt8.ofBitVec (Lanes.byte value (m.lane n i))

/-- `save_arg(type)` -/
def saveArg (m : Machine) (limit : ℕ) (args : ℕ → BitVec 64) (p : Pack) : Pack :=
  let n := m.argSize p.spec.type
  let pos := place n p.str
  { p with
    mem := if pos + n ≤ limit then Emit.write p.mem pos (m.bytes n (args p.args)) else p.mem
    str := pos + n
    args := p.args + 1
    packed := { type := p.spec.type, arg := args p.args, stop := pos + n } :: p.packed }

/-- The text that is saved for a `%s`. -/
def Machine.savedString (m : Machine) (ptr : ℕ) : List UInt8 :=
  if 2 ^ m.bits - m.pageSize < ptr ∨ ptr < m.pageSize then text "(null)" else m.string ptr

def saveString (m : Machine) (limit : ℕ) (args : ℕ → BitVec 64) (p : Pack) : Pack :=
  let saved := m.savedString (m.ulong (args p.args)) ++ [0]
  { p with
    mem := if p.str + saved.length < limit then Emit.write p.mem p.str saved else p.mem
    str := p.str + saved.length
    args := p.args + 1
    packed := { type := .str, arg := args p.args, stop := p.str + saved.length } :: p.packed }

def packToken (m : Machine) (limit : ℕ) (args : ℕ → BitVec 64) (p : Pack) : Pack :=
  match p.spec.type with
  | .none | .invalid | .percentChar => p
  | .str => saveString m limit args p
  | .ptr => { saveArg m limit args p with fmt := p.fmt.dropWhile isalnum }
  | .nrchars => { p with args := p.args + 1 }
  | _ => saveArg m limit args p

def packRound (m : Machine) (limit : ℕ) (args : ℕ → BitVec 64) (p : Pack) : Pack ⊕ Pack :=
  if charAt p.fmt 0 = 0 then .inr p
  else
    let (spec, fmt) := formatDecode p.fmt p.spec
    .inl (packToken m limit args { p with spec, fmt })

/-- What vbin_printf() gives: the buffer, and the words of the packed arguments as its value. -/
structure Binary where
  value : ℤ
  words : ℕ
  mem : ℕ → UInt8
  packed : List Packed

def vbinPrintf (m : Machine) (bin : ℕ → UInt8) (size : ℕ) (fmt : List UInt8) (args : ℕ → BitVec 64) : Option Binary :=
  (Loop.run (packRound m (4 * size) args) (rounds fmt) { fmt, mem := bin }).map fun p =>
    let words := align 4 p.str / 4
    { value := toInt words, words, mem := p.mem, packed := p.packed }

/-- The arguments that a format takes and where each of them ends, in any buffer, with the number of words. -/
def layout (m : Machine) (fmt : List UInt8) (args : ℕ → BitVec 64) : Option (List Packed × ℕ) :=
  (Loop.run (packRound m 0 args) (rounds fmt) { fmt, mem := fun _ => 0 }).map fun p => (p.packed, align 4 p.str / 4)

/-- `get_arg(type)` of an unsigned type. -/
def Machine.load (m : Machine) (bin : ℕ → UInt8) (n pos : ℕ) : BitVec 64 :=
  (ofBytes n fun j => (bin (place n pos + m.lane n j)).toBitVec).setWidth 64

/-- The string at a place, in an address space of at most 2 ^ 64 bytes. -/
def stringFrom (bin : ℕ → UInt8) : ℕ → ℕ → List UInt8
  | 0, _ => []
  | bound + 1, pos => if bin pos = 0 then [] else bin pos :: stringFrom bin bound (pos + 1)

/-- `num = get_arg(…)` by the type of the conversion. -/
def binNum (m : Machine) (type : FormatType) (value : BitVec 64) : BitVec 64 :=
  match type with
  | .longLong => value
  | .ulong | .long => value
  | .sizeT => value
  | .ptrdiff => (value.setWidth m.bits).signExtend 64
  | .ubyte => value
  | .byte => (value.setWidth 8).signExtend 64
  | .ushort => value
  | .short => (value.setWidth 16).signExtend 64
  | .uint => value
  | _ => (value.setWidth 32).signExtend 64

def binArgs (m : Machine) (bin : ℕ → UInt8) : Source ℕ where
  int pos := ((m.load bin 4 pos).setWidth 32, place 4 pos + 4)
  char pos := (UInt8.ofBitVec ((m.load bin 1 pos).setWidth 8), place 1 pos + 1)
  str pos := (stringFrom bin (2 ^ 64) pos, pos + (stringFrom bin (2 ^ 64) pos).length + 1)
  ptr pos := ((m.load bin (m.argSize .ptr) pos).toNat, place (m.argSize .ptr) pos + m.argSize .ptr)
  num type pos := (binNum m type (m.load bin (m.argSize type) pos), place (m.argSize type) pos + m.argSize type)
  nrchars pos := (none, pos)

def bstrPrintf (m : Machine) (mem : ℕ → UInt8) (size : ℕ) (fmt : List UInt8) (bin : ℕ → UInt8) : Option Result :=
  printInto m (binArgs m bin) mem size fmt 0

end Vsprintf
