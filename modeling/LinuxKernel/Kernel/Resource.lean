/- The resource tree of kernel/resource.c: claiming and giving back ranges of addresses. -/
import Mathlib.Logic.Function.Basic
import LinuxKernel.Foundation.Align
import LinuxKernel.Foundation.Loop

namespace Resource

open Function

/-- The range of a `struct resource` and whether `IORESOURCE_BUSY` is set in its flags; `stop` is `end`. -/
structure Range where
  start : Nat
  stop : Nat
  busy : Bool
  deriving DecidableEq, Repr

/-- All resources by address. `child` lists the chain that the source makes of `child` and `sibling`. -/
structure State (ρ : Type) where
  range : ρ → Range
  parent : ρ → Option ρ
  child : ρ → List ρ

variable {ρ : Type} [DecidableEq ρ]

/-- `start + n - 1` in the arithmetic of `resource_size_t`. -/
def lastOf (bits start n : Nat) : Nat := (start + n + (2 ^ bits - 1)) % 2 ^ bits

/-- The loop of `__request_resource` over the children: the chain with `new` in it, or the conflict. -/
def place (s : State ρ) (new : ρ) : List ρ → Except ρ (List ρ)
  | [] => .ok [new]
  | tmp :: rest =>
    if (s.range new).stop < (s.range tmp).start then .ok (new :: tmp :: rest)
    else if (s.range tmp).stop < (s.range new).start then (place s new rest).map (tmp :: ·)
    else .error tmp

/-- `__request_resource`, with the conflicting resource if there is one. -/
def requestResource (s : State ρ) (root new : ρ) : State ρ × Option ρ :=
  let start := (s.range new).start
  let stop := (s.range new).stop
  if stop < start then (s, some root)
  else if start < (s.range root).start then (s, some root)
  else if (s.range root).stop < stop then (s, some root)
  else
    match place s new (s.child root) with
    | .error tmp => (s, some tmp)
    | .ok chain =>
      ({ s with
          child := update s.child root chain
          parent := update s.parent new (some root) }, none)

/-- `__release_resource`; it returns `-EINVAL` if the parent does not know the resource. A resource
without a parent is never released. -/
def releaseResource (s : State ρ) (old : ρ) : State ρ × Bool :=
  match s.parent old with
  | none => (s, false)
  | some parent =>
    if old ∈ s.child parent then
      ({ s with
          child := update s.child parent ((s.child parent).erase old)
          parent := update s.parent old none }, true)
    else (s, false)

/-- The second loop of `__insert_resource`: the siblings from `next` on that lie inside `new`, and the
rest of the chain, or a sibling that lies inside only in part. -/
def swallow (s : State ρ) (new : ρ) : List ρ → Except ρ (List ρ × List ρ)
  | [] => .ok ([], [])
  | next :: rest =>
    if (s.range next).start < (s.range new).start || (s.range new).stop < (s.range next).stop then
      .error next
    else
      match rest with
      | [] => .ok ([next], [])
      | sibling :: _ =>
        if (s.range new).stop < (s.range sibling).start then .ok ([next], rest)
        else (swallow s new rest).map fun (inner, outer) => (next :: inner, outer)

/-- `new` takes the place of the children of `parent` that lie inside it, from `first` on. -/
def slide (s : State ρ) (parent first new : ρ) : State ρ × Option ρ :=
  let chain := s.child parent
  match swallow s new (chain.dropWhile (· ≠ first)) with
  | .error next => (s, some next)
  | .ok (inner, outer) =>
    ({ s with
        child := update (update s.child new inner) parent
          (chain.takeWhile (· ≠ first) ++ new :: outer)
        parent := fun x =>
          if x = new then some parent else if x ∈ inner then some new else s.parent x }, none)

/-- One turn of the first loop of `__insert_resource`. -/
def insertTurn (s : State ρ) (new : ρ) (parent : ρ) : ρ ⊕ State ρ × Option ρ :=
  match requestResource s parent new with
  | (s', none) => .inr (s', none)
  | (_, some first) =>
    let a := s.range first
    let b := s.range new
    if first = parent then .inr (s, some first)
    else if b.start < a.start || a.stop < b.stop then .inr (slide s parent first new)
    else if a.start = b.start && a.stop = b.stop then .inr (slide s parent first new)
    else .inl first

/-- `__insert_resource`, with a bound on the levels it descends. -/
def insertResource (n : Nat) (s : State ρ) (parent new : ρ) : Option (State ρ × Option ρ) :=
  Loop.run (insertTurn s new) n parent

/-- One turn of `insert_resource_expand_to_fit`. -/
def expandTurn (n : Nat) (root new : ρ) (s : State ρ) : State ρ ⊕ Option (State ρ) :=
  match insertResource n s root new with
  | none => .inr none
  | some (s', none) => .inr (some s')
  | some (_, some conflict) =>
    if conflict = root then .inr (some s)
    else
      let a := s.range conflict
      let b := s.range new
      let start := if a.start < b.start then a.start else b.start
      let stop := if b.stop < a.stop then a.stop else b.stop
      .inl { s with range := update s.range new { b with start, stop } }

def insertResourceExpandToFit (n : Nat) (s : State ρ) (root new : ρ) : Option (State ρ) :=
  if (s.parent new).isSome then some s else (Loop.run (expandTurn n root new) n s).join

/-- The resource whose sibling is `res`. -/
def before (res : ρ) : List ρ → Option ρ
  | tmp :: next :: rest => if next = res then some tmp else before res (next :: rest)
  | _ => none

def after (res : ρ) : List ρ → Option ρ
  | tmp :: rest => if tmp = res then rest.head? else after res rest
  | [] => none

/-- `adjust_resource`; the result says whether it returns 0. -/
def adjustResource (bits : Nat) (s : State ρ) (res : ρ) (start size : Nat) : State ρ × Bool :=
  match s.parent res with
  | none => (s, false)
  | some parent =>
    let stop := lastOf bits start size
    let chain := s.child parent
    if start < (s.range parent).start || (s.range parent).stop < stop then (s, false)
    else if (s.child res).any fun tmp => (s.range tmp).start < start || stop < (s.range tmp).stop then
      (s, false)
    else if (after res chain).any fun next => (s.range next).start ≤ stop then (s, false)
    else if chain.head? ≠ some res && (before res chain).any fun tmp => start ≤ (s.range tmp).stop then
      (s, false)
    else ({ s with range := update s.range res { s.range res with start, stop } }, true)

/-- What `find_resource` is asked for; `alignf` stands for the callback with its data. -/
structure Wanted where
  size : Nat
  min : Nat
  max : Nat
  align : Nat
  alignf : Option (Range → Nat → Nat → Nat)

/-- `tmp` as the loop of `find_resource` tests it, from the gap between two children. -/
def clampGap (bits : Nat) (w : Wanted) (busy : Bool) (start stop : Nat) : Nat × Nat :=
  let start := if start < w.min then w.min else start
  let stop := if w.max < stop then w.max else stop
  let start := Align.alignUp bits start w.align
  match w.alignf with
  | some alignf => (alignf ⟨start, stop, busy⟩ w.size w.align, stop)
  | none => (start, stop)

/-- The test at the end of a turn. -/
def roomy (bits : Nat) (w : Wanted) (gap : Nat × Nat) : Bool :=
  gap.1 < gap.2 && (w.size + (2 ^ bits - 1)) % 2 ^ bits ≤ gap.2 - gap.1

/-- The loop of `find_resource`, at the chain from `this` on; the result is the new start. -/
def findLoop (bits : Nat) (s : State ρ) (root new : ρ) (w : Wanted) : List ρ → Nat → Option Nat
  | [], start =>
    let gap := clampGap bits w (s.range new).busy start (s.range root).stop
    if roomy bits w gap then some gap.1 else none
  | this :: sibling, start =>
    let gap := clampGap bits w (s.range new).busy start (((s.range this).start + (2 ^ bits - 1)) % 2 ^ bits)
    if roomy bits w gap then some gap.1
    else findLoop bits s root new w sibling (((s.range this).stop + 1) % 2 ^ bits)

/-- `find_resource`; a child at address 0 is skipped. -/
def findResource (bits : Nat) (s : State ρ) (root new : ρ) (w : Wanted) : Option Nat :=
  match s.child root with
  | [] => findLoop bits s root new w [] (s.range root).start
  | this :: sibling =>
    if (s.range this).start = 0 then findLoop bits s root new w sibling (((s.range this).stop + 1) % 2 ^ bits)
    else findLoop bits s root new w (this :: sibling) (s.range root).start

/-- `allocate_resource`; the result says whether it returns 0. -/
def allocateResource (bits : Nat) (s : State ρ) (root new : ρ) (w : Wanted) : State ρ × Bool :=
  match findResource bits s root new w with
  | none => (s, false)
  | some start =>
    let range := { s.range new with start, stop := lastOf bits start w.size }
    match requestResource { s with range := update s.range new range } root new with
    | (s', none) => (s', true)
    | (s', some _) => (s', false)

/-- One turn of the loop of `__request_region`. -/
def requestRegionTurn (s : State ρ) (res : ρ) (parent : ρ) : ρ ⊕ Option (State ρ) :=
  match requestResource s parent res with
  | (s', none) => .inr (some s')
  | (_, some conflict) =>
    if conflict ≠ parent && !(s.range conflict).busy then .inl conflict else .inr none

/-- `kzalloc` and the first lines of `__request_region`. -/
def newRegion (bits : Nat) (s : State ρ) (res : ρ) (start n : Nat) : State ρ where
  range := update s.range res ⟨start, lastOf bits start n, true⟩
  parent := update s.parent res none
  child := update s.child res []

/-- `__request_region`, with the memory for the new resource if there is some. -/
def requestRegion (bits m : Nat) (s : State ρ) (parent : ρ) (alloc : Option ρ) (start n : Nat) :
    Option (State ρ × Option ρ) :=
  match alloc with
  | none => some (s, none)
  | some res =>
    (Loop.run (requestRegionTurn (newRegion bits s res start n) res) m parent).map fun
      | some s' => (s', some res)
      | none => (s, none)

/-- One turn of the loop of `__release_region`, at the chain from `*p` on among the children of a
resource. -/
def releaseRegionTurn (s : State ρ) (start stop : Nat) : ρ × List ρ → (ρ × List ρ) ⊕ Option (ρ × ρ)
  | (_, []) => .inr none
  | (parent, res :: rest) =>
    let r := s.range res
    if r.start ≤ start && stop ≤ r.stop then
      if !r.busy then .inl (res, s.child res)
      else if r.start ≠ start || r.stop ≠ stop then .inr none
      else .inr (some (parent, res))
    else .inl (parent, rest)

/-- `__release_region`; the result says whether a region was found. -/
def releaseRegion (bits m : Nat) (s : State ρ) (parent : ρ) (start n : Nat) : Option (State ρ × Bool) :=
  (Loop.run (releaseRegionTurn s start (lastOf bits start n)) m (parent, s.child parent)).map fun
    | some (owner, res) =>
      ({ s with child := update s.child owner ((s.child owner).erase res) }, true)
    | none => (s, false)

/-- A new resource with `IORESOURCE_BUSY`, in no tree. -/
def newRange (s : State ρ) (res : ρ) (start stop : Nat) : State ρ where
  range := update s.range res ⟨start, stop, true⟩
  parent := update s.parent res none
  child := update s.child res []

/-- `__reserve_region_with_split`, with a bound on the depth of its calls. The log has what each `kzalloc` so
far has returned; `alloc` may depend on it. -/
def reserveRegionWithSplit (alloc : List (Option ρ) → State ρ → Option ρ) (root : ρ) :
    Nat → Nat → Nat → State ρ × List (Option ρ) → Option (State ρ × List (Option ρ))
  | 0, _, _, _ => none
  | n + 1, start, stop, (s, log) =>
    match alloc log s with
    | none => some (s, log ++ [none])
    | some res =>
      let log := log ++ [some res]
      match requestResource (newRange s res start stop) root res with
      | (s', none) => some (s', log)
      | (_, some conflict) =>
        -- `kfree(res)` leaves the tree as it was
        if (s.range conflict).start ≤ start && stop ≤ (s.range conflict).stop then some (s, log)
        else
          Option.bind
            (if start < (s.range conflict).start then
              reserveRegionWithSplit alloc root n start ((s.range conflict).start - 1) (s, log)
            else some (s, log))
            fun st =>
              if (st.1.range conflict).stop < stop then
                reserveRegionWithSplit alloc root n ((st.1.range conflict).stop + 1) stop st
              else some st

end Resource
