/- The queue of the fragments of one datagram in net/ipv4/ip_fragment.c. -/
import LinuxKernel.Foundation.Pieces

namespace IpFragment

open Pieces

def IP_MF : UInt16 := 0x2000

def IP_OFFSET : UInt16 := 0x1FFF

inductive Errno
  | ENOENT | EINVAL | ENOMEM | ETIMEDOUT | E2BIG
deriving DecidableEq

/-- `struct sk_buff` of a fragment: `frag_off` of its header and the bytes behind the header. -/
structure SkBuff where
  fragOff : UInt16
  data : List UInt8

/-- `offset` of `ip_frag_queue`, in bytes -/
def SkBuff.offset (skb : SkBuff) : Nat := (skb.fragOff &&& IP_OFFSET).toNat <<< 3

/-- `(flags & IP_MF) == 0` -/
def SkBuff.isFinal (skb : SkBuff) : Bool := skb.fragOff &&& ~~~IP_OFFSET &&& IP_MF = 0

/-- `end` of `ip_frag_queue`: all fragments but the last one end at a multiple of 8. -/
def SkBuff.stop (skb : SkBuff) : Nat :=
  let stop := skb.offset + skb.data.length
  if skb.isFinal then stop else stop / 8 * 8

/-- `struct ipq`; `last_in` as its three flags. -/
structure Ipq where
  fragments : List (Piece UInt8)
  len : Nat
  meat : Int
  firstIn : Bool
  lastIn : Bool
  complete : Bool

def Ipq.empty : Ipq := ⟨[], 0, 0, false, false, false⟩

/-- What may go wrong for a fragment. -/
structure Faults where
  /-- `ip_frag_too_far` -/
  tooFar : Bool
  /-- The timer ran out before `ip_frag_reinit`. -/
  timedOut : Bool
  /-- `pskb_pull(skb, ihl)` fails. -/
  pullHeader : Bool
  /-- `pskb_trim_rcsum` fails. -/
  trim : Bool
  /-- `pskb_pull(skb, i)` fails. -/
  pullSkb : Bool
  /-- `pskb_pull(next, i)` fails. -/
  pullNext : Bool

inductive Verdict
  | err (errno : Errno)
  | inProgress
  /-- `return ip_frag_reasm(qp, prev, dev)` -/
  | reasm
deriving DecidableEq

/-- `ip_frag_reinit` with a timer that still runs: it sets all of these fields back. -/
def ipFragReinit (_qp : Ipq) : Ipq := ⟨[], 0, 0, false, false, false⟩

def ipqKill (qp : Ipq) : Ipq := { qp with complete := true }

/-- The checks and updates of `q.len` and the flag of the last fragment. -/
def claimEnd (qp : Ipq) (skb : SkBuff) : Option Ipq :=
  if skb.isFinal then
    -- the datagram may not have bytes beyond its end, or another end
    if skb.stop < qp.len ∨ (qp.lastIn ∧ skb.stop ≠ qp.len) then none
    else some { qp with lastIn := true, len := skb.stop }
  else if qp.len < skb.stop then
    if qp.lastIn then none else some { qp with len := skb.stop }
  else some qp

/-- The loop over the fragments that the new one overlaps: what is left of them, `q.meat`, and whether no
`pskb_pull` failed. -/
def eatNext (stop : Nat) (fails : Bool) : List (Piece UInt8) → Int → List (Piece UInt8) × Int × Bool
  | [], meat => ([], meat, true)
  | next :: rest, meat =>
    if next.offset < stop then
      let i := stop - next.offset
      if i < next.data.length then
        if fails then (next :: rest, meat, false)
        else (next.pull i :: rest, meat - i, true)
      else eatNext stop fails rest (meat - next.data.length)
    else (next :: rest, meat, true)

/-- The part of the new fragment behind the one before it. -/
def trimFront (prev : Option (Piece UInt8)) (new : Piece UInt8) (fails : Bool) : Except Errno (Piece UInt8) :=
  match prev with
  | none => .ok new
  | some prev =>
    if new.offset < prev.stop then
      if new.stop ≤ prev.stop then .error .EINVAL
      else if fails then .error .ENOMEM
      else .ok (new.pull (prev.stop - new.offset))
    else .ok new

/-- The rest of `ip_frag_queue`, with the payload of the fragment at its offset. -/
def insertFragment (qp : Ipq) (new : Piece UInt8) (f : Faults) : Ipq × Verdict :=
  let before := qp.fragments.takeWhile (·.offset < new.offset)
  let next := qp.fragments.dropWhile (·.offset < new.offset)
  match trimFront before.getLast? new f.pullSkb with
  | .error e => (qp, .err e)
  | .ok new =>
    let (next, meat, pulled) := eatNext new.stop f.pullNext next qp.meat
    if !pulled then ({ qp with fragments := before ++ next, meat := meat }, .err .ENOMEM)
    else
      let qp := { qp with
        fragments := before ++ new :: next
        meat := meat + new.data.length
        firstIn := qp.firstIn || new.offset = 0 }
      if qp.firstIn ∧ qp.lastIn ∧ ¬ qp.complete ∧ qp.meat = qp.len then (qp, .reasm) else (qp, .inProgress)

def ipFragQueue (qp : Ipq) (skb : SkBuff) (f : Faults) : Ipq × Verdict :=
  if qp.complete then (qp, .err .ENOENT)
  else
    let tooFar := f.tooFar && !qp.fragments.isEmpty
    if tooFar && f.timedOut then (ipqKill qp, .err .ETIMEDOUT)
    else
      let qp := if tooFar then ipFragReinit qp else qp
      match claimEnd qp skb with
      | none => (qp, .err .EINVAL)
      | some qp =>
        if skb.stop = skb.offset then (qp, .err .EINVAL)
        else if f.pullHeader ∨ f.trim then (qp, .err .ENOMEM)
        else insertFragment qp ⟨skb.offset, skb.data.take (skb.stop - skb.offset)⟩ f

/-- `ip_frag_reasm`: the bytes behind the header of the new datagram, whose length has to fit into its header.
The clones of the first fragment take nothing from the data. -/
def ipFragReasm (qp : Ipq) (ihlen : Nat) (noClone noHead : Bool) : Ipq × Except Errno (List UInt8) :=
  if noClone then (ipqKill qp, .error .ENOMEM)
  else if 65535 < ihlen + qp.len then (ipqKill qp, .error .E2BIG)
  else if noHead then (ipqKill qp, .error .ENOMEM)
  else ({ ipqKill qp with fragments := [] }, .ok (glue qp.fragments))

end IpFragment
