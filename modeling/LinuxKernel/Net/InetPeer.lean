/- The lock-protected sections of inet_getpeer, inet_putpeer and cleanup_once, run by any threads. -/
import LinuxKernel.Foundation.Census
import LinuxKernel.Net.InetPeerPool

namespace InetPeer

open Function

/-- What a thread does next; each place but `idle` is a section under one lock or a step without any. -/
inductive Pc where
  | idle
  /-- `kmem_cache_alloc` in `inet_getpeer`. -/
  | allocating (daddr : BitVec 32)
  /-- The section of `inet_getpeer` under the pool's write lock. -/
  | linking (n : Peer)
  /-- `unlink_from_unused(p)`, after which a preallocated node is freed. -/
  | unlinking (p : Peer) (spare : Option Peer)
  /-- The test of `peer_total` after a new node has been linked. -/
  | counting
  /-- The first section of `cleanup_once`. -/
  | cleaning (ttl : ℕ)
  /-- The section of `unlink_from_pool`. -/
  | pooling (p : Peer)
  /-- The section of `inet_putpeer`. -/
  | putting (p : Peer)
  /-- `kmem_cache_free`. -/
  | freeing (p : Peer)
  /-- `BUG()` in `unlink_from_pool`. -/
  | bug

structure State (T : Type) where
  pool : Pool
  unusedPeers : List Peer
  refcnt : Peer → ℤ
  dtime : Peer → BitVec 32
  peerTotal : ℤ
  /-- Peers allocated so far. -/
  allocated : ℕ
  /-- What has been passed to `kmem_cache_free`. -/
  freed : List Peer
  pc : T → Pc
  /-- The references a thread has got and not yet given back. -/
  held : T → Peer → ℕ

variable {T : Type} [DecidableEq T]

def State.goto (s : State T) (t : T) (p : Pc) : State T :=
  { s with pc := update s.pc t p }

def State.setHeld (s : State T) (t : T) (p : Peer) (n : ℕ) : State T :=
  { s with held := update s.held t (update (s.held t) p n) }

def State.addRefcnt (s : State T) (p : Peer) (d : ℤ) : State T :=
  { s with refcnt := update s.refcnt p (s.refcnt p + d) }

/-- `inet_getpeer` has found the peer and takes a reference, still under the pool lock. -/
def takeReference (s : State T) (t : T) (p : Peer) (spare : Option Peer) : State T :=
  ((s.addRefcnt p 1).setHeld t p (s.held t p + 1)).goto t (.unlinking p spare)

/-- The section of `inet_getpeer` under the pool's read lock. -/
def getpeer (s : State T) (t : T) (daddr : BitVec 32) (create : Bool) : State T :=
  match lookup daddr s.pool with
  | some p => takeReference s t p none
  | none => s.goto t (if create then .allocating daddr else .idle)

def allocate (s : State T) (t : T) (daddr : BitVec 32) : State T :=
  let n : Peer := { id := s.allocated, v4daddr := daddr }
  { s with allocated := s.allocated + 1, refcnt := update s.refcnt n 1 }.goto t (.linking n)

/-- The section of `inet_getpeer` under the pool's write lock: another thread may have linked the address. -/
def link (s : State T) (t : T) (n : Peer) : State T :=
  match lookup n.v4daddr s.pool with
  | some p => takeReference s t p (some n)
  | none =>
    ({ s with pool := linkToPool n s.pool, peerTotal := s.peerTotal + 1 }.setHeld t n (s.held t n + 1)).goto t
      .counting

def unlinkFromUnused (s : State T) (t : T) (p : Peer) (spare : Option Peer) : State T :=
  { s with unusedPeers := s.unusedPeers.erase p }.goto t
    (match spare with
     | some n => .freeing n
     | none => .idle)

/-- The first section of `cleanup_once`; `now` is `jiffies`. -/
def cleanupOnce (s : State T) (t : T) (ttl : ℕ) (now : BitVec 32) : State T :=
  match s.unusedPeers with
  | [] => s.goto t .idle
  | p :: rest =>
    let delta := now - s.dtime p
    if delta.toNat < ttl then s.goto t .idle
    else ({ s with unusedPeers := rest }.addRefcnt p 1).goto t (.pooling p)

def unlinkFromPool (s : State T) (t : T) (p : Peer) : State T :=
  if s.refcnt p = 1 then
    if lookup p.v4daddr s.pool = some p then
      { s with pool := unlinkNode p.v4daddr s.pool, peerTotal := s.peerTotal - 1 }.goto t (.freeing p)
    else s.goto t .bug
  else s.goto t (.putting p)

def putpeer (s : State T) (t : T) (p : Peer) (now : BitVec 32) : State T :=
  let s := s.addRefcnt p (-1)
  if s.refcnt p = 0 then
    { s with unusedPeers := s.unusedPeers ++ [p], dtime := update s.dtime p now }.goto t .idle
  else s.goto t .idle

/-- What a thread outside these functions may call: it puts only references it has got. -/
inductive Call where
  | inetGetpeer (daddr : BitVec 32) (create : Bool)
  | inetPutpeer (p : Peer)
  | cleanupOnce (ttl : ℕ)

def call (s : State T) (t : T) : Call → State T
  | .inetGetpeer daddr create => getpeer s t daddr create
  | .inetPutpeer p => if 0 < s.held t p then (s.setHeld t p (s.held t p - 1)).goto t (.putting p) else s
  | .cleanupOnce ttl => s.goto t (.cleaning ttl)

/-- One section run by thread `t`: `c` is the call it makes when idle, `now` the time it reads and `room`
whether an allocation succeeds. -/
def step (threshold : ℤ) (s : State T) (t : T) (c : Call) (now : BitVec 32) (room : Bool) : State T :=
  match s.pc t with
  | .idle => call s t c
  | .allocating daddr => if room then allocate s t daddr else s.goto t .idle
  | .linking n => link s t n
  | .unlinking p spare => unlinkFromUnused s t p spare
  | .counting => s.goto t (if threshold ≤ s.peerTotal then .cleaning 0 else .idle)
  | .cleaning ttl => cleanupOnce s t ttl now
  | .pooling p => unlinkFromPool s t p
  | .putting p => putpeer s t p now
  | .freeing p => { s with freed := p :: s.freed }.goto t .idle
  | .bug => s

def Step (threshold : ℤ) (s s' : State T) : Prop :=
  ∃ t c now room, s' = step threshold s t c now room

def initPeers (T : Type) : State T where
  pool := .empty
  unusedPeers := []
  refcnt := fun _ => 0
  dtime := fun _ => 0
  peerTotal := 0
  allocated := 0
  freed := []
  pc := fun _ => .idle
  held := fun _ _ => 0

end InetPeer
