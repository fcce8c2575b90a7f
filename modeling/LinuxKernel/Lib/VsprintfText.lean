/- The text of one conversion: number(), string() and pointer() of lib/vsprintf.c. -/
import LinuxKernel.Foundation.Emit
import LinuxKernel.Lib.TextSearch
import Mathlib.Data.Int.Notation

namespace Vsprintf

open Emit (Sink)
open TextSearch (islower isupper toupper)

def ch (c : Char) : UInt8 := c.toUInt8

def text (s : String) : List UInt8 := s.toList.map ch

def isdigit (c : UInt8) : Bool := ch '0' ≤ c && c ≤ ch '9'

def isalnum (c : UInt8) : Bool := isupper c || islower c || isdigit c

/-- `fmt[i]`, the NUL after the last character included. -/
def charAt (fmt : List UInt8) (i : ℕ) : UInt8 := fmt.getD i 0

inductive FormatType
  | none | width | precision | char | str | ptr | percentChar | invalid | longLong | ulong | long | ubyte | byte
  | ushort | short | uint | int | nrchars | sizeT | ptrdiff
  deriving DecidableEq, Repr

namespace Flag

def zeropad : UInt8 := 1
def sign : UInt8 := 2
def plus : UInt8 := 4
def space : UInt8 := 8
def left : UInt8 := 16
def small : UInt8 := 32
def special : UInt8 := 64

end Flag

/-- `struct printf_spec`; the widths are numbers that fit in an `s16`. -/
structure Spec where
  type : FormatType := .none
  flags : UInt8 := 0
  base : ℕ := 0
  qualifier : UInt8 := 0
  fieldWidth : ℤ := 0
  precision : ℤ := 0
  deriving DecidableEq, Repr

def Spec.has (spec : Spec) (flag : UInt8) : Bool := spec.flags &&& flag != 0

def s16 (x : ℤ) : ℤ := x.bmod (2 ^ 16)

def digit (d : ℕ) : UInt8 := UInt8.ofNat (d + 48)

def putDecTrunc (q : ℕ) : List UInt8 :=
  let d1 := (q >>> 4) &&& 0xf
  let d2 := (q >>> 8) &&& 0xf
  let d3 := q >>> 12
  let d0 := 6 * (d3 + d2 + d1) + (q &&& 0xf)
  let q := (d0 * 0xcd) >>> 11
  let d0 := d0 - 10 * q
  let d1 := q + 9 * d3 + 5 * d2 + d1
  digit d0 ::
    if d1 = 0 then [] else
      let q := (d1 * 0xcd) >>> 11
      let d1 := d1 - 10 * q
      let d2 := q + 2 * d2
      digit d1 ::
        if d2 = 0 ∧ d3 = 0 then [] else
          let q := (d2 * 0xd) >>> 7
          let d2 := d2 - 10 * q
          let d3 := q + 4 * d3
          digit d2 ::
            if d3 = 0 then [] else
              let q := (d3 * 0xcd) >>> 11
              let d3 := d3 - 10 * q
              digit d3 :: if q = 0 then [] else [digit q]

def putDecFull (q : ℕ) : List UInt8 :=
  let d1 := (q >>> 4) &&& 0xf
  let d2 := (q >>> 8) &&& 0xf
  let d3 := q >>> 12
  let d0 := 6 * (d3 + d2 + d1) + (q &&& 0xf)
  let q := (d0 * 0xcd) >>> 11
  let d0 := d0 - 10 * q
  let d1 := q + 9 * d3 + 5 * d2 + d1
  let q := (d1 * 0xcd) >>> 11
  let d1 := d1 - 10 * q
  let d2 := q + 2 * d2
  let q := (d2 * 0xd) >>> 7
  let d2 := d2 - 10 * q
  let d3 := q + 4 * d3
  let q := (d3 * 0xcd) >>> 11
  let d3 := d3 - 10 * q
  [digit d0, digit d1, digit d2, digit d3, digit q]

/-- The loop of `put_dec`; a number has fewer rounds than its value. -/
def putDecLoop : ℕ → ℕ → List UInt8
  | 0, num => putDecTrunc num
  | rounds + 1, num =>
    if num < 100000 then putDecTrunc num
    else putDecFull (num % 100000) ++ putDecLoop rounds (num / 100000)

def putDec (num : ℕ) : List UInt8 := putDecLoop num num

/-- `digits[d]` -/
def upperDigit (d : ℕ) : UInt8 := if d < 10 then digit d else UInt8.ofNat (d - 10 + 65)

/-- The `do … while (num)` of the bases 8 and 16. -/
def baseDigits (mask shift : ℕ) (locase : UInt8) : ℕ → ℕ → List UInt8
  | 0, _ => []
  | rounds + 1, num =>
    (upperDigit (num &&& mask) ||| locase) ::
      if num >>> shift = 0 then [] else baseDigits mask shift locase rounds (num >>> shift)

/-- `tmp`, the digits in reverse order. -/
def numberDigits (num base : ℕ) (locase : UInt8) : List UInt8 :=
  if num = 0 then [ch '0']
  else if base ≠ 10 then baseDigits (base - 1) (if base = 16 then 4 else 3) locase num num
  else putDec num

/-- The sign, what is left of the number, and what is left of the width. -/
def numberSign (flags : UInt8) (num : BitVec 64) (width : ℤ) : Option UInt8 × BitVec 64 × ℤ :=
  if flags &&& Flag.sign = 0 then (none, num, width)
  else if num.toInt < 0 then (some (ch '-'), -num, s16 (width - 1))
  else if flags &&& Flag.plus ≠ 0 then (some (ch '+'), num, s16 (width - 1))
  else if flags &&& Flag.space ≠ 0 then (some (ch ' '), num, s16 (width - 1))
  else (none, num, width)

/-- The rounds of `while (--width >= 0)` and the width after them. -/
def countDown (width : ℤ) : ℕ × ℤ :=
  match s16 (width - 1) with
  | .ofNat n => (n + 1, -1)
  | .negSucc n => (0, .negSucc n)

section

variable {σ : Type*}

def number (sink : Sink UInt8 σ) (num : BitVec 64) (spec : Spec) (k : σ) : σ :=
  let needPfx := spec.has Flag.special && spec.base != 10
  let locase := spec.flags &&& Flag.small
  let flags := if spec.has Flag.left then spec.flags &&& ~~~Flag.zeropad else spec.flags
  let (sign, num, width) := numberSign flags num spec.fieldWidth
  let width := if needPfx then s16 (width - 1) else width
  let width := if needPfx && spec.base == 16 then s16 (width - 1) else width
  let tmp := numberDigits num.toNat spec.base locase
  -- printing 100 using %2d gives "100", not "00"
  let precision := if spec.precision < tmp.length then (tmp.length : ℤ) else spec.precision
  let width := s16 (width - precision)
  let (spaces, width) := if flags &&& (Flag.zeropad ||| Flag.left) = 0 then countDown width else (0, width)
  let k := sink.pad (ch ' ') spaces k
  let k := sink.puts sign.toList k
  let k := if needPfx then sink.put (ch '0') k else k
  let k := if needPfx && spec.base == 16 then sink.put (ch 'X' ||| locase) k else k
  let (padding, width) := if flags &&& Flag.left = 0 then countDown width else (0, width)
  let k := sink.pad (if flags &&& Flag.zeropad = 0 then ch ' ' else ch '0') padding k
  -- `while (i <= --spec.precision)`
  let k := sink.pad (ch '0') (precision - tmp.length).toNat k
  let k := sink.puts tmp.reverse k
  sink.pad (ch ' ') (countDown width).1 k

/-- The rounds of `while (len < width--)` and the width after them. -/
def fillUp (len : ℕ) (width : ℤ) : ℕ × ℤ :=
  if len < width then ((width - len).toNat, s16 (len - 1)) else (0, s16 (width - 1))

/-- A precision as a `size_t`: no precision is -1, the largest one. -/
def sizeT (bits : ℕ) (precision : ℤ) : ℕ := (precision % 2 ^ bits).toNat

/-- string() for the text at its pointer. -/
def string (sink : Sink UInt8 σ) (bits : ℕ) (s : List UInt8) (spec : Spec) (k : σ) : σ :=
  let len := min s.length (sizeT bits spec.precision)
  let (spaces, width) :=
    if spec.flags &&& Flag.left = 0 then fillUp len spec.fieldWidth else (0, spec.fieldWidth)
  let k := sink.pad (ch ' ') spaces k
  let k := sink.puts (s.take len) k
  sink.pad (ch ' ') (fillUp len width).1 k

end

structure Resource where
  start : BitVec 64
  «end» : BitVec 64
  flags : BitVec 64

/-- The machine with the memory that the conversions read. -/
structure Machine where
  /-- `BITS_PER_LONG` -/
  bits : ℕ
  word : bits = 32 ∨ bits = 64
  bigEndian : Bool
  pageSize : ℕ
  byte : ℕ → UInt8
  /-- The string at a pointer, without its NUL. -/
  string : ℕ → List UInt8
  string_nonzero : ∀ ptr, 0 ∉ string ptr
  resource : ℕ → Resource
  /-- `CONFIG_KALLSYMS`, and the names it gives. -/
  kallsyms : Bool
  sprintSymbol : ℕ → List UInt8
  kallsymsLookup : ℕ → List UInt8
  dereferenceFunctionDescriptor : ℕ → ℕ

def hexAsc (d : UInt8) : UInt8 := if d < 10 then d + 48 else d - 10 + 97

def packHexByte (b : UInt8) : List UInt8 := [hexAsc ((b &&& 0xf0) >>> 4), hexAsc (b &&& 0x0f)]

namespace Resource

def ioSpec : Spec :=
  { base := 16, fieldWidth := 6, precision := -1, flags := Flag.special ||| Flag.small ||| Flag.zeropad }

def memSpec : Spec :=
  { base := 16, fieldWidth := 10, precision := -1, flags := Flag.special ||| Flag.small ||| Flag.zeropad }

def busSpec : Spec := { base := 16, fieldWidth := 2, precision := -1, flags := Flag.small ||| Flag.zeropad }

def decSpec : Spec := { base := 10, precision := -1, flags := 0 }

def strSpec : Spec := { fieldWidth := -1, precision := 10, flags := Flag.left }

def flagSpec : Spec := { base := 16, precision := -1, flags := Flag.special ||| Flag.small }

def has (res : Resource) (flag : BitVec 64) : Bool := res.flags &&& flag != 0

/-- The name of the type, the spec of its addresses, and whether `%pR` decodes its flags. -/
def kind (res : Resource) : List UInt8 × Spec × Bool :=
  if res.has 0x100 then (text "io  ", ioSpec, true)
  else if res.has 0x200 then (text "mem ", memSpec, true)
  else if res.has 0x400 then (text "irq ", decSpec, true)
  else if res.has 0x800 then (text "dma ", decSpec, true)
  else if res.has 0x1000 then (text "bus ", busSpec, true)
  else (text "??? ", memSpec, false)

end Resource

/-- `sym` of resource_string(), which has room for the longest text. -/
def resourceString (bits : ℕ) (res : Resource) (fmt : List UInt8) : List UInt8 :=
  let str (s : List UInt8) := string Emit.whole bits s Resource.strSpec
  let (name, spec, known) := res.kind
  let decode := charAt fmt 0 = ch 'R' ∧ known = true
  let p := str name [ch '[']
  let p := number Emit.whole res.start spec p
  let p := if res.start ≠ res.end then number Emit.whole res.end spec (p ++ [ch '-']) else p
  let p :=
    if decode then
      let p := if res.has 0x100000 then str (text " 64bit") p else p
      let p := if res.has 0x2000 then str (text " pref") p else p
      let p := if res.has 0x200000 then str (text " window") p else p
      if res.has 0x10000000 then str (text " disabled") p else p
    else
      number Emit.whole res.flags Resource.flagSpec (str (text " flags ") p)
  p ++ [ch ']']

def macAddressString (addr : ℕ → UInt8) (fmt : List UInt8) : List UInt8 :=
  let separator := if charAt fmt 1 = ch 'F' then ch '-' else ch ':'
  (List.range 6).flatMap fun i =>
    packHexByte (addr i) ++ if charAt fmt 0 = ch 'M' ∧ i ≠ 5 then [separator] else []

def ip4String (bigEndian : Bool) (addr : ℕ → UInt8) (fmt : List UInt8) : List UInt8 :=
  let reversed := (charAt fmt 2 = ch 'h' ∧ bigEndian = false) ∨ charAt fmt 2 = ch 'l'
  (List.range 4).flatMap fun i =>
    let temp := putDecTrunc (addr (if reversed then 3 - i else i)).toNat
    let zeros := if charAt fmt 0 = ch 'i' then List.replicate (3 - temp.length) (ch '0') else []
    zeros ++ temp.reverse ++ if i < 3 then [ch '.'] else []

/-- `ntohs(in6.s6_addr16[i])` -/
def addr16 (addr : ℕ → UInt8) (i : ℕ) : UInt8 × UInt8 := (addr (2 * i), addr (2 * i + 1))

def ipv6AddrV4mapped (addr : ℕ → UInt8) : Bool :=
  (List.range 10).all (fun i => addr i == 0) && addr 10 == 0xff && addr 11 == 0xff

def ipv6AddrIsIsatap (addr : ℕ → UInt8) : Bool :=
  addr 8 ||| 0x02 == 0x02 && addr 9 == 0 && addr 10 == 0x5e && addr 11 == 0xfe

/-- `zerolength[i]`: the zero words from the i-th on, below `range`. -/
def zerolength (addr : ℕ → UInt8) (range i : ℕ) : ℕ :=
  ((List.range' i (range - i)).takeWhile fun j => addr16 addr j == (0, 0)).length

/-- The first longest run of at least two zero words: its length and its place. -/
def longestZeros (addr : ℕ → UInt8) (range : ℕ) : ℕ × Option ℕ :=
  (List.range range).foldl
    (fun best i => if best.1 < zerolength addr range i then (zerolength addr range i, some i) else best) (1, none)

def hexWord (word : UInt8 × UInt8) : List UInt8 :=
  let (hi, lo) := word
  if hi ≠ 0 then (if 0x0f < hi then packHexByte hi else [hexAsc hi]) ++ packHexByte lo
  else if 0x0f < lo then packHexByte lo
  else [hexAsc lo]

/-- The words from the i-th on, and whether a colon is due after them. -/
def emitWords (addr : ℕ → UInt8) (range longest : ℕ) (colonpos : Option ℕ) : ℕ → ℕ → Bool → List UInt8 × Bool
  | 0, _, needcolon => ([], needcolon)
  | rounds + 1, i, needcolon =>
    if range ≤ i then ([], needcolon)
    else if colonpos = some i then
      let (rest, need) := emitWords addr range longest colonpos rounds (i + longest) false
      ((if needcolon = true ∨ i = 0 then [ch ':'] else []) ++ [ch ':'] ++ rest, need)
    else
      let (rest, need) := emitWords addr range longest colonpos rounds (i + 1) true
      ((if needcolon then [ch ':'] else []) ++ hexWord (addr16 addr i) ++ rest, need)

def ip6CompressedString (bigEndian : Bool) (addr : ℕ → UInt8) : List UInt8 :=
  let useIPv4 := ipv6AddrV4mapped addr || ipv6AddrIsIsatap addr
  let range := if useIPv4 then 6 else 8
  let (longest, colonpos) := longestZeros addr range
  let (words, needcolon) := emitWords addr range longest colonpos range 0 false
  words ++
    if useIPv4 then
      (if needcolon then [ch ':'] else []) ++ ip4String bigEndian (fun i => addr (12 + i)) (text "I4")
    else []

def ip6String (addr : ℕ → UInt8) (fmt : List UInt8) : List UInt8 :=
  (List.range 8).flatMap fun i =>
    packHexByte (addr (2 * i)) ++ packHexByte (addr (2 * i + 1)) ++
      if charAt fmt 0 = ch 'I' ∧ i ≠ 7 then [ch ':'] else []

def ip6AddrString (bigEndian : Bool) (addr : ℕ → UInt8) (fmt : List UInt8) : List UInt8 :=
  if charAt fmt 0 = ch 'I' ∧ charAt fmt 2 = ch 'c' then ip6CompressedString bigEndian addr
  else ip6String addr fmt

def uuidString (addr : ℕ → UInt8) (fmt : List UInt8) : List UInt8 :=
  let option := charAt fmt 1
  let index :=
    if option = ch 'L' ∨ option = ch 'l' then [3, 2, 1, 0, 5, 4, 7, 6, 8, 9, 10, 11, 12, 13, 14, 15]
    else List.range 16
  let uuid := index.zipIdx.flatMap fun (j, i) =>
    packHexByte (addr j) ++ if i = 3 ∨ i = 5 ∨ i = 7 ∨ i = 9 then [ch '-'] else []
  if option = ch 'L' ∨ option = ch 'B' then uuid.map toupper else uuid

section

variable {σ : Type*}

def symbolString (m : Machine) (sink : Sink UInt8 σ) (value : ℕ) (spec : Spec) (ext : UInt8) (k : σ) : σ :=
  if m.kallsyms then
    let sym := if ext ≠ ch 'f' ∧ ext ≠ ch 's' then m.sprintSymbol value else m.kallsymsLookup value
    string sink m.bits sym spec k
  else
    number sink (BitVec.ofNat 64 value)
      { spec with
        fieldWidth := 2 * (m.bits / 8)
        flags := spec.flags ||| (Flag.special ||| Flag.small ||| Flag.zeropad)
        base := 16 } k

/-- `fmt` is what follows the 'p'. -/
def pointer (m : Machine) (sink : Sink UInt8 σ) (fmt : List UInt8) (ptr : ℕ) (spec : Spec) (k : σ) : σ :=
  let c := charAt fmt 0
  let addr := fun i => m.byte (ptr + i)
  if ptr = 0 then string sink m.bits (text "(null)") spec k
  else if c = ch 'F' ∨ c = ch 'f' then symbolString m sink (m.dereferenceFunctionDescriptor ptr) spec c k
  else if c = ch 'S' ∨ c = ch 's' then symbolString m sink ptr spec c k
  else if c = ch 'R' ∨ c = ch 'r' then
    string sink m.bits (resourceString m.bits (m.resource ptr) fmt) spec k
  else if c = ch 'M' ∨ c = ch 'm' then string sink m.bits (macAddressString addr fmt) spec k
  else if (c = ch 'I' ∨ c = ch 'i') ∧ charAt fmt 1 = ch '6' then
    string sink m.bits (ip6AddrString m.bigEndian addr fmt) spec k
  else if (c = ch 'I' ∨ c = ch 'i') ∧ charAt fmt 1 = ch '4' then
    string sink m.bits (ip4String m.bigEndian addr fmt) spec k
  else if c = ch 'U' then string sink m.bits (uuidString addr fmt) spec k
  else
    let spec := { spec with flags := spec.flags ||| Flag.small }
    let spec :=
      if spec.fieldWidth = -1 then
        { spec with fieldWidth := 2 * (m.bits / 8), flags := spec.flags ||| Flag.zeropad }
      else spec
    number sink (BitVec.ofNat 64 ptr) { spec with base := 16 } k

end

section

variable {σ τ : Type*} {R : σ → τ → Prop} {a : Sink UInt8 σ} {b : Sink UInt8 τ} (related : Emit.Related R a b)
  {s : σ} {t : τ}

include related

theorem number_related (num : BitVec 64) (spec : Spec) (h : R s t) :
    R (number a num spec s) (number b num spec t) := by
  apply related.pad
  apply related.puts
  apply related.pad
  apply related.pad
  apply related.put_if
  apply related.put_if
  apply related.puts
  exact related.pad _ _ h

theorem string_related (bits : ℕ) (text : List UInt8) (spec : Spec) (h : R s t) :
    R (string a bits text spec s) (string b bits text spec t) := by
  apply related.pad
  apply related.puts
  exact related.pad _ _ h

theorem symbolString_related (m : Machine) (value : ℕ) (spec : Spec) (ext : UInt8) (h : R s t) :
    R (symbolString m a value spec ext s) (symbolString m b value spec ext t) := by
  unfold symbolString
  split
  · exact string_related related _ _ _ h
  · exact number_related related _ _ h

theorem pointer_related (m : Machine) (fmt : List UInt8) (ptr : ℕ) (spec : Spec) (h : R s t) :
    R (pointer m a fmt ptr spec s) (pointer m b fmt ptr spec t) := by
  have str (text : List UInt8) := string_related related m.bits text spec h
  have symbol (value : ℕ) := symbolString_related related m value spec (charAt fmt 0) h
  apply Emit.rel_ite _ (str _)
  apply Emit.rel_ite _ (symbol _)
  apply Emit.rel_ite _ (symbol _)
  apply Emit.rel_ite _ (str _)
  apply Emit.rel_ite _ (str _)
  apply Emit.rel_ite _ (str _)
  apply Emit.rel_ite _ (str _)
  apply Emit.rel_ite _ (str _)
  exact number_related related _ _ h

end

end Vsprintf
