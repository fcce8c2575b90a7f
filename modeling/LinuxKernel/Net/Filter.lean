/- The socket filters of net/core/filter.c: access to the packet, the interpreter and the checker. -/
import Mathlib.Algebra.Group.Int.Defs
import Mathlib.Algebra.Group.Nat.Defs
import LinuxKernel.Foundation.Loop

namespace Filter

/-- `struct sock_filter`. -/
structure SockFilter where
  code : UInt16
  jt : UInt8
  jf : UInt8
  k : UInt32
  deriving DecidableEq, Repr

def bpfClass (code : UInt16) : UInt16 := code &&& 0x07
def bpfLd : UInt16 := 0x00
def bpfLdx : UInt16 := 0x01
def bpfSt : UInt16 := 0x02
def bpfStx : UInt16 := 0x03
def bpfAlu : UInt16 := 0x04
def bpfJmp : UInt16 := 0x05
def bpfRet : UInt16 := 0x06
def bpfMisc : UInt16 := 0x07
def bpfW : UInt16 := 0x00
def bpfH : UInt16 := 0x08
def bpfB : UInt16 := 0x10
def bpfImm : UInt16 := 0x00
def bpfAbs : UInt16 := 0x20
def bpfInd : UInt16 := 0x40
def bpfMem : UInt16 := 0x60
def bpfLen : UInt16 := 0x80
def bpfMsh : UInt16 := 0xa0
def bpfAdd : UInt16 := 0x00
def bpfSub : UInt16 := 0x10
def bpfMul : UInt16 := 0x20
def bpfDiv : UInt16 := 0x30
def bpfOr : UInt16 := 0x40
def bpfAnd : UInt16 := 0x50
def bpfLsh : UInt16 := 0x60
def bpfRsh : UInt16 := 0x70
def bpfNeg : UInt16 := 0x80
def bpfJa : UInt16 := 0x00
def bpfJeq : UInt16 := 0x10
def bpfJgt : UInt16 := 0x20
def bpfJge : UInt16 := 0x30
def bpfJset : UInt16 := 0x40
def bpfK : UInt16 := 0x00
def bpfX : UInt16 := 0x08
def bpfA : UInt16 := 0x10
def bpfTax : UInt16 := 0x00
def bpfTxa : UInt16 := 0x80

def bpfMaxinsns : Nat := 4096
def bpfMemwords : Nat := 16

inductive Src where
  | k
  | x
  deriving DecidableEq, Repr

inductive AluOp where
  | add
  | sub
  | mul
  | div
  | and
  | or
  | lsh
  | rsh
  deriving DecidableEq, Repr

inductive JmpOp where
  | jgt
  | jge
  | jeq
  | jset
  deriving DecidableEq, Repr

inductive Size where
  | w
  | h
  | b
  deriving DecidableEq, Repr

/-- The labels of the switch in `sk_run_filter`. -/
inductive Insn where
  | alu (op : AluOp) (src : Src)
  | neg
  | ja
  | jmp (op : JmpOp) (src : Src)
  | ldAbs (size : Size)
  | ldInd (size : Size)
  | ldLen
  | ldxLen
  | ldxMsh
  | ldImm
  | ldxImm
  | ldMem
  | ldxMem
  | tax
  | txa
  | retK
  | retA
  | st
  | stx
  deriving DecidableEq, Repr

def Src.code : Src → UInt16
  | .k => bpfK
  | .x => bpfX

def AluOp.code : AluOp → UInt16
  | .add => bpfAdd
  | .sub => bpfSub
  | .mul => bpfMul
  | .div => bpfDiv
  | .and => bpfAnd
  | .or => bpfOr
  | .lsh => bpfLsh
  | .rsh => bpfRsh

def JmpOp.code : JmpOp → UInt16
  | .jgt => bpfJgt
  | .jge => bpfJge
  | .jeq => bpfJeq
  | .jset => bpfJset

def Size.code : Size → UInt16
  | .w => bpfW
  | .h => bpfH
  | .b => bpfB

def Size.bytes : Size → Nat
  | .w => 4
  | .h => 2
  | .b => 1

def Insn.code : Insn → UInt16
  | .alu op src => bpfAlu ||| op.code ||| src.code
  | .neg => bpfAlu ||| bpfNeg
  | .ja => bpfJmp ||| bpfJa
  | .jmp op src => bpfJmp ||| op.code ||| src.code
  | .ldAbs size => bpfLd ||| size.code ||| bpfAbs
  | .ldInd size => bpfLd ||| size.code ||| bpfInd
  | .ldLen => bpfLd ||| bpfW ||| bpfLen
  | .ldxLen => bpfLdx ||| bpfW ||| bpfLen
  | .ldxMsh => bpfLdx ||| bpfB ||| bpfMsh
  | .ldImm => bpfLd ||| bpfImm
  | .ldxImm => bpfLdx ||| bpfImm
  | .ldMem => bpfLd ||| bpfMem
  | .ldxMem => bpfLdx ||| bpfMem
  | .tax => bpfMisc ||| bpfTax
  | .txa => bpfMisc ||| bpfTxa
  | .retK => bpfRet ||| bpfK
  | .retA => bpfRet ||| bpfA
  | .st => bpfSt
  | .stx => bpfStx

def Insn.all : List Insn :=
  ([.add, .sub, .mul, .div, .and, .or, .lsh, .rsh].flatMap fun op => [.alu op .x, .alu op .k]) ++
  [.neg, .ja] ++ ([.jgt, .jge, .jeq, .jset].flatMap fun op => [.jmp op .k, .jmp op .x]) ++
  ([.w, .h, .b].flatMap fun size => [.ldAbs size, .ldInd size]) ++
  [.ldLen, .ldxLen, .ldxMsh, .ldImm, .ldxImm, .ldMem, .ldxMem, .tax, .txa, .retK, .retA, .st, .stx]

/-- The label that a code selects, if any does. -/
def decode (code : UInt16) : Option Insn := Insn.all.find? fun i => i.code == code

inductive ByteOrder where
  | little
  | big

inductive SizeT where
  | bits32
  | bits64

def SizeT.bits : SizeT → Nat
  | .bits32 => 32
  | .bits64 => 64

/-- What the filter depends on of the machine it runs on. -/
structure Machine where
  order : ByteOrder
  sizeT : SizeT

/-- The fields of `struct sk_buff` that a filter reads. Bytes and headers are given by their distance
from `skb->head`; `paged` is the data outside the buffer, and `ifindex` what `skb->dev->ifindex`
reads. -/
structure SkBuff where
  memory : Int → UInt8
  data : Nat
  tail : Nat
  paged : List UInt8
  networkHeader : Int
  macHeader : Int
  protocol : UInt8 × UInt8
  pktType : UInt8
  ifindex : UInt32
  mark : UInt32
  queueMapping : UInt16
  data_le : data ≤ tail
  len_lt : tail - data + paged.length < 2 ^ 32

def toInt (n : Nat) : Int := Int.bmod n (2 ^ 32)

def SkBuff.headlen (skb : SkBuff) : Nat := skb.tail - skb.data

def SkBuff.len (skb : SkBuff) : UInt32 := .ofNat (skb.headlen + skb.paged.length)

def skbIsNonlinear (skb : SkBuff) : Bool := !skb.paged.isEmpty

def skfAdOff : Int := -0x1000
def skfNetOff : Int := -0x100000
def skfLlOff : Int := -0x200000

/-- Where a load finds its bytes: in the buffer, or copied into `tmp`. -/
inductive Pointer where
  | buf (addr : Int)
  | tmp (bytes : List UInt8)

/-- `skb_copy_bits`: the rest of the buffer from an offset on, then the data outside it. -/
def skbCopyBits (skb : SkBuff) (offset : Int) (len : Nat) : Option (List UInt8) :=
  let start := toInt skb.headlen
  if Int.bmod (toInt skb.len.toNat - len) (2 ^ 32) < offset then none
  else
    let copy := min (Int.bmod (start - offset) (2 ^ 32)).toNat len
    let header := (List.range copy).map fun (i : Nat) => skb.memory (skb.data + offset + i)
    let rest := (skb.paged.drop (offset + copy - start).toNat).take (len - copy)
    if rest.length = len - copy then some (header ++ rest) else none

def skbHeaderPointer (skb : SkBuff) (offset : Int) (len : Nat) : Option Pointer :=
  if len ≤ Int.bmod (toInt skb.headlen - offset) (2 ^ 32) then some (.buf (skb.data + offset))
  else (skbCopyBits skb offset len).map .tmp

/-- `__load_pointer`. -/
def rawLoadPointer (skb : SkBuff) (k : Int) : Option Int :=
  let ptr :=
    if skfNetOff ≤ k then some (skb.networkHeader + k - skfNetOff)
    else if skfLlOff ≤ k then some (skb.macHeader + k - skfLlOff)
    else none
  ptr.filter fun ptr => 0 ≤ ptr && ptr < skb.tail

def loadPointer (skb : SkBuff) (k : Int) (size : Nat) : Option Pointer :=
  if 0 ≤ k then skbHeaderPointer skb k size
  else if skfAdOff ≤ k then none
  else (rawLoadPointer skb k).map .buf

def span (addr : Int) (size : Nat) : List Int := (List.range size).map fun (i : Nat) => addr + i

/-- The bytes of the buffer that a load reads. -/
def Pointer.reads (size : Nat) : Pointer → List Int
  | .buf addr => span addr size
  | .tmp _ => []

def Pointer.bytes (skb : SkBuff) (size : Nat) : Pointer → List UInt8
  | .buf addr => (span addr size).map skb.memory
  | .tmp bytes => bytes

/-- `get_unaligned_be32`, `get_unaligned_be16` and the load of a byte. -/
def bigEndian (bytes : List UInt8) : UInt32 :=
  bytes.foldl (fun v b => v * 256 + b.toUInt32) 0

def sizeofNlattr : Nat := 4

def nlaAlign (len : Nat) : Nat := (len + 3) / 4 * 4

/-- A half word of the packet in the order of the machine. -/
def u16At (m : Machine) (skb : SkBuff) (addr : Int) : Nat :=
  let first := (skb.memory addr).toNat
  let second := (skb.memory (addr + 1)).toNat
  match m.order with
  | .little => first + 256 * second
  | .big => 256 * first + second

def nlaLen (m : Machine) (skb : SkBuff) (nla : Int) : Nat := u16At m skb nla

/-- `nla_type`, without the two flags above the type. -/
def nlaType (m : Machine) (skb : SkBuff) (nla : Int) : Nat := u16At m skb (nla + 2) % 2 ^ 14

/-- `nla_find`, with the bytes it reads. Every attribute takes four bytes or more of the remaining
ones, which therefore bound the iterations. -/
def nlaFindFrom (m : Machine) (skb : SkBuff) (attrtype : Int) :
    Nat → Int → Int → Option Int × List Int
  | 0, _, _ => (none, [])
  | n + 1, nla, rem =>
    if rem < sizeofNlattr then (none, [])
    else
      let len := nlaLen m skb nla
      if sizeofNlattr ≤ len ∧ len ≤ rem then
        if nlaType m skb nla = attrtype then (some nla, span nla 4)
        else
          let r := nlaFindFrom m skb attrtype n (nla + nlaAlign len) (rem - nlaAlign len)
          (r.1, span nla 4 ++ r.2)
      else (none, span nla 2)

def nlaFind (m : Machine) (skb : SkBuff) (head len attrtype : Int) : Option Int × List Int :=
  nlaFindFrom m skb attrtype len.toNat head len

def nlaFindNested (m : Machine) (skb : SkBuff) (nla attrtype : Int) : Option Int × List Int :=
  nlaFind m skb (nla + sizeofNlattr) ((nlaLen m skb nla : Int) - sizeofNlattr) attrtype

/-- The variables of `sk_run_filter` that live from one instruction to the next. -/
structure State where
  pc : Int
  a : UInt32
  x : UInt32
  mem : Fin bpfMemwords → UInt32

/-- How the loop of `sk_run_filter` ends: by a return from within the switch statements, in one of the
ways that the checker is to rule out, or after the last instruction. -/
inductive Exit where
  | ret (value : UInt32)
  | unknownOpcode
  | divideByZero
  | badScratch
  | badFetch
  | offEnd
  deriving DecidableEq, Repr

/-- What an instruction leads to, and the bytes of the buffer it reads. -/
abbrev Effect := (State ⊕ Exit) × List Int

def State.next (s : State) : State ⊕ Exit := .inl { s with pc := s.pc + 1 }

/-- `pc += offset`, in the arithmetic of an `int`. -/
def State.jump (s : State) (offset : Nat) : State ⊕ Exit :=
  .inl { s with pc := Int.bmod (s.pc + offset) (2 ^ 32) + 1 }

def AluOp.apply (op : AluOp) (a b : UInt32) : UInt32 :=
  match op with
  | .add => a + b
  | .sub => a - b
  | .mul => a * b
  | .div => a / b
  | .and => a &&& b
  | .or => a ||| b
  | .lsh => a <<< b
  | .rsh => a >>> b

def JmpOp.holds (op : JmpOp) (a b : UInt32) : Bool :=
  match op with
  | .jgt => b < a
  | .jge => b ≤ a
  | .jeq => a == b
  | .jset => a &&& b != 0

def operand (fentry : SockFilter) (s : State) : Src → UInt32
  | .k => fentry.k
  | .x => s.x

/-- What a load gives: a value, or nothing where the filter returns zero, and the bytes it reads. -/
abbrev Loaded := Option UInt32 × List Int

/-- The check before an attribute is looked at, in the arithmetic of `size_t`. -/
def pastLastAttr (m : Machine) (skb : SkBuff) (a : UInt32) : Bool :=
  (skb.len.toNat + 2 ^ m.sizeT.bits - sizeofNlattr) % 2 ^ m.sizeT.bits < a.toNat

/-- The place of an attribute in the packet, or zero. -/
def attrOffset (skb : SkBuff) (r : Option Int × List Int) : Loaded :=
  (some (r.1.elim 0 fun nla => UInt32.ofInt (nla - skb.data)), r.2)

/-- `SKF_AD_NLATTR`. -/
def loadAttr (m : Machine) (skb : SkBuff) (a x : UInt32) : Loaded :=
  if skbIsNonlinear skb || pastLastAttr m skb a then (none, [])
  else attrOffset skb
    (nlaFind m skb (skb.data + a.toNat) (toInt (skb.len - a).toNat) (toInt x.toNat))

/-- `SKF_AD_NLATTR_NEST`. -/
def loadNestedAttr (m : Machine) (skb : SkBuff) (a x : UInt32) : Loaded :=
  if skbIsNonlinear skb || pastLastAttr m skb a then (none, [])
  else
    let outer : Int := skb.data + a.toNat
    if (a - skb.len).toNat < nlaLen m skb outer then (none, span outer 2)
    else (attrOffset skb (nlaFindNested m skb outer (toInt x.toNat))).map id (span outer 2 ++ ·)

/-- The second switch, on offsets that no load from the packet has. -/
def ancillary (m : Machine) (skb : SkBuff) (a x : UInt32) (k : Int) : Loaded :=
  if k - skfAdOff = 0 then (some (bigEndian [skb.protocol.1, skb.protocol.2]), [])
  else if k - skfAdOff = 4 then (some skb.pktType.toUInt32, [])
  else if k - skfAdOff = 8 then (some skb.ifindex, [])
  else if k - skfAdOff = 20 then (some skb.mark, [])
  else if k - skfAdOff = 24 then (some skb.queueMapping.toUInt32, [])
  else if k - skfAdOff = 12 then loadAttr m skb a x
  else if k - skfAdOff = 16 then loadNestedAttr m skb a x
  else (none, [])

/-- `load_w`, `load_h` and `load_b`. -/
def load (m : Machine) (skb : SkBuff) (a x : UInt32) (size : Size) (k : Int) : Loaded :=
  match loadPointer skb k size.bytes with
  | some ptr => (some (bigEndian (ptr.bytes skb size.bytes)), ptr.reads size.bytes)
  | none => ancillary m skb a x k

/-- The header length of the packet at an offset, in bytes. -/
def loadMsh (skb : SkBuff) (k : Int) : Loaded :=
  match loadPointer skb k 1 with
  | some ptr => (some ((bigEndian (ptr.bytes skb 1) &&& 0xf) <<< 2), ptr.reads 1)
  | none => (none, [])

/-- A load into a register, which the function sets. -/
def State.loaded (set : UInt32 → State) (r : Loaded) : Effect :=
  (r.1.elim (.inr (.ret 0)) fun v => (set v).next, r.2)

def scratch (k : UInt32) (access : Fin bpfMemwords → State) : State ⊕ Exit :=
  if h : k.toNat < bpfMemwords then (access ⟨k.toNat, h⟩).next else .inr .badScratch

/-- Arithmetic. Only a division by `X` is guarded. -/
def execAlu (fentry : SockFilter) (s : State) (op : AluOp) (src : Src) : State ⊕ Exit :=
  let b := operand fentry s src
  if op = .div ∧ b = 0 then
    match src with
    | .x => .inr (.ret 0)
    | .k => .inr .divideByZero
  else State.next { s with a := op.apply s.a b }

def execInsn (m : Machine) (skb : SkBuff) (fentry : SockFilter) (s : State) : Insn → Effect
  | .alu op src => (execAlu fentry s op src, [])
  | .neg => (State.next { s with a := -s.a }, [])
  | .ja => (s.jump fentry.k.toNat, [])
  | .jmp op src =>
    (s.jump (if op.holds s.a (operand fentry s src) then fentry.jt else fentry.jf).toNat, [])
  | .ldAbs size =>
    State.loaded (fun a => { s with a }) (load m skb s.a s.x size (toInt fentry.k.toNat))
  | .ldInd size =>
    State.loaded (fun a => { s with a }) (load m skb s.a s.x size (toInt (s.x + fentry.k).toNat))
  | .ldLen => (State.next { s with a := skb.len }, [])
  | .ldxLen => (State.next { s with x := skb.len }, [])
  | .ldxMsh => State.loaded (fun x => { s with x }) (loadMsh skb (toInt fentry.k.toNat))
  | .ldImm => (State.next { s with a := fentry.k }, [])
  | .ldxImm => (State.next { s with x := fentry.k }, [])
  | .ldMem => (scratch fentry.k fun i => { s with a := s.mem i }, [])
  | .ldxMem => (scratch fentry.k fun i => { s with x := s.mem i }, [])
  | .tax => (State.next { s with x := s.a }, [])
  | .txa => (State.next { s with a := s.x }, [])
  | .retK => (.inr (.ret fentry.k), [])
  | .retA => (.inr (.ret s.a), [])
  | .st => (scratch fentry.k fun i => { s with mem := Function.update s.mem i s.a }, [])
  | .stx => (scratch fentry.k fun i => { s with mem := Function.update s.mem i s.x }, [])

/-- `filter[pc]`. -/
def fetch (filter : List SockFilter) (pc : Int) : Option SockFilter :=
  if 0 ≤ pc then filter[pc.toNat]? else none

def execute (m : Machine) (skb : SkBuff) (filter : List SockFilter) (s : State) : Effect :=
  if s.pc < filter.length then
    match fetch filter s.pc with
    | none => (.inr .badFetch, [])
    | some fentry =>
      match decode fentry.code with
      | none => (.inr .unknownOpcode, [])
      | some i => execInsn m skb fentry s i
  else (.inr .offEnd, [])

/-- The state in which `sk_run_filter` enters its loop. The scratch memory is what the stack holds. -/
def start (mem : Fin bpfMemwords → UInt32) : State := ⟨0, 0, 0, mem⟩

/-- `sk_run_filter`, for at most `n` instructions. -/
def skRunFilter (m : Machine) (skb : SkBuff) (filter : List SockFilter)
    (mem : Fin bpfMemwords → UInt32) (n : Nat) : Option Exit :=
  Loop.run (fun s => (execute m skb filter s).1) n (start mem)

/-- The labels of `sk_chk_filter` that need no further check. -/
def plainCodes : List UInt16 :=
  [bpfAlu ||| bpfAdd ||| bpfK, bpfAlu ||| bpfAdd ||| bpfX, bpfAlu ||| bpfSub ||| bpfK,
    bpfAlu ||| bpfSub ||| bpfX, bpfAlu ||| bpfMul ||| bpfK, bpfAlu ||| bpfMul ||| bpfX,
    bpfAlu ||| bpfDiv ||| bpfX, bpfAlu ||| bpfAnd ||| bpfK, bpfAlu ||| bpfAnd ||| bpfX,
    bpfAlu ||| bpfOr ||| bpfK, bpfAlu ||| bpfOr ||| bpfX, bpfAlu ||| bpfLsh ||| bpfK,
    bpfAlu ||| bpfLsh ||| bpfX, bpfAlu ||| bpfRsh ||| bpfK, bpfAlu ||| bpfRsh ||| bpfX,
    bpfAlu ||| bpfNeg, bpfLd ||| bpfW ||| bpfAbs, bpfLd ||| bpfH ||| bpfAbs,
    bpfLd ||| bpfB ||| bpfAbs, bpfLd ||| bpfW ||| bpfLen, bpfLd ||| bpfW ||| bpfInd,
    bpfLd ||| bpfH ||| bpfInd, bpfLd ||| bpfB ||| bpfInd, bpfLd ||| bpfImm,
    bpfLdx ||| bpfW ||| bpfLen, bpfLdx ||| bpfB ||| bpfMsh, bpfLdx ||| bpfImm, bpfMisc ||| bpfTax,
    bpfMisc ||| bpfTxa, bpfRet ||| bpfK, bpfRet ||| bpfA]

def memCodes : List UInt16 := [bpfLd ||| bpfMem, bpfLdx ||| bpfMem, bpfSt, bpfStx]

def conditionalCodes : List UInt16 :=
  [bpfJmp ||| bpfJeq ||| bpfK, bpfJmp ||| bpfJeq ||| bpfX, bpfJmp ||| bpfJge ||| bpfK,
    bpfJmp ||| bpfJge ||| bpfX, bpfJmp ||| bpfJgt ||| bpfK, bpfJmp ||| bpfJgt ||| bpfX,
    bpfJmp ||| bpfJset ||| bpfK, bpfJmp ||| bpfJset ||| bpfX]

/-- Whether the loop of `sk_chk_filter` gets past an instruction. -/
def checkInsn (flen pc : Nat) (ftest : SockFilter) : Bool :=
  if ftest.code ∈ plainCodes then true
  else if ftest.code = bpfAlu ||| bpfDiv ||| bpfK then ftest.k != 0
  else if ftest.code ∈ memCodes then ftest.k.toNat < bpfMemwords
  else if ftest.code = bpfJmp ||| bpfJa then ftest.k.toNat < flen - pc - 1
  else if ftest.code ∈ conditionalCodes then
    pc + ftest.jt.toNat + 1 < flen && pc + ftest.jf.toNat + 1 < flen
  else false

def checkFrom (flen : Nat) : Nat → List SockFilter → Bool
  | _, [] => true
  | pc, ftest :: rest => checkInsn flen pc ftest && checkFrom flen (pc + 1) rest

/-- Whether `sk_chk_filter` returns zero. -/
def skChkFilter (filter : List SockFilter) : Bool :=
  if filter.length = 0 ∨ bpfMaxinsns < filter.length then false
  else checkFrom filter.length 0 filter &&
    (filter.getLast?.map fun last => bpfClass last.code == bpfRet).getD false

end Filter
