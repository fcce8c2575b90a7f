/- The buddy allocator of one zone: __free_one_page, expand, __rmqueue and its fallback path. -/
import Mathlib.Logic.Function.Basic
import Mathlib.Data.Nat.Bitwise

namespace Buddy

open Function

inductive MigrateType where
  | unmovable
  | reclaimable
  | movable
  | reserve
  | isolate
  deriving DecidableEq, Repr

open MigrateType

def migrateTypes : List MigrateType := [unmovable, reclaimable, movable, reserve, isolate]

/-- `fallbacks`: a row has `MIGRATE_TYPES - 1` entries, and those the initialiser leaves out are
zero, that is `MIGRATE_UNMOVABLE`. -/
def fallbacks : MigrateType → List MigrateType
  | unmovable => [reclaimable, movable, reserve, unmovable]
  | reclaimable => [unmovable, movable, reserve, unmovable]
  | movable => [reclaimable, unmovable, reserve, unmovable]
  | reserve => [reserve, reserve, reserve, unmovable]
  | isolate => [unmovable, unmovable, unmovable, unmovable]

/-- The part of `struct page` that the allocator reads: `PG_buddy` and `page_private`. -/
structure Page where
  buddy : Bool
  order : Nat
  deriving DecidableEq, Repr

/-- What does not change while the zone is in use. Pages are named by their frame numbers. -/
structure Config where
  maxOrder : Nat
  pageblockOrder : Nat
  mobilityDisabled : Bool
  zoneStartPfn : Nat
  spannedPages : Nat
  zoneId : Nat
  pageZoneId : Nat → Nat
  pfnValidWithin : Nat → Bool

structure Zone where
  page : Nat → Page
  freeList : Nat → MigrateType → List Nat
  nrFree : Nat → Int
  pageblockType : Nat → MigrateType

variable (cfg : Config)

def setPageOrder (z : Zone) (p order : Nat) : Zone :=
  { z with page := update z.page p ⟨true, order⟩ }

def rmvPageOrder (z : Zone) (p : Nat) : Zone :=
  { z with page := update z.page p ⟨false, 0⟩ }

/-- `list_add` at the front of a free list. -/
def listAdd (z : Zone) (order : Nat) (mt : MigrateType) (p : Nat) : Zone :=
  { z with freeList := fun o m => if o = order ∧ m = mt then p :: z.freeList o m else z.freeList o m }

/-- `list_del` unlinks the page from whichever list holds it. -/
def listDel (z : Zone) (p : Nat) : Zone :=
  { z with freeList := fun o m => (z.freeList o m).erase p }

def addNrFree (z : Zone) (order : Nat) (d : Int) : Zone :=
  { z with nrFree := update z.nrFree order (z.nrFree order + d) }

def pageblockNrPages : Nat := 2 ^ cfg.pageblockOrder

def setPageblockMigratetype (z : Zone) (p : Nat) (mt : MigrateType) : Zone :=
  let mt := if cfg.mobilityDisabled then unmovable else mt
  { z with pageblockType := update z.pageblockType (p / pageblockNrPages cfg) mt }

/-- `__page_find_buddy`: the page that differs in bit `order` of its index. -/
def pageFindBuddy (p pageIdx order : Nat) : Nat := p + (pageIdx ^^^ (1 <<< order)) - pageIdx

/-- `__find_combined_index`: `page_idx & ~(1 << order)`. -/
def findCombinedIndex (pageIdx order : Nat) : Nat := pageIdx - (pageIdx &&& (1 <<< order))

def pageIsBuddy (z : Zone) (p b order : Nat) : Bool :=
  cfg.pfnValidWithin b && cfg.pageZoneId p == cfg.pageZoneId b &&
    ((z.page b).buddy && (z.page b).order == order)

/-- The loop of `__free_one_page`; the first argument is `MAX_ORDER - 1 - order`. -/
def mergeLoop : Nat → Zone → Nat → Nat → Nat → Zone × Nat × Nat
  | 0, z, p, _, order => (z, p, order)
  | n + 1, z, p, pageIdx, order =>
    let b := pageFindBuddy p pageIdx order
    if pageIsBuddy cfg z p b order then
      let z := rmvPageOrder (addNrFree (listDel z b) order (-1)) b
      let combinedIdx := findCombinedIndex pageIdx order
      mergeLoop n z (p + combinedIdx - pageIdx) combinedIdx (order + 1)
    else (z, p, order)

/-- `__free_one_page` of a page that is not compound: `prep_compound_page` runs in
`prep_new_page`, outside the functions modelled here. -/
def freeOnePage (z : Zone) (p order : Nat) (mt : MigrateType) : Zone :=
  let pageIdx := p &&& (2 ^ cfg.maxOrder - 1)
  let (z, p, order) := mergeLoop cfg (cfg.maxOrder - 1 - order) z p pageIdx order
  addNrFree (listAdd (setPageOrder z p order) order mt p) order 1

/-- `expand`; the last argument is `high - low`. -/
def expand (z : Zone) (p : Nat) (mt : MigrateType) (low : Nat) : Nat → Zone
  | 0 => z
  | n + 1 =>
    let high := low + n
    let size := 2 ^ high
    let z := addNrFree (listAdd z high mt (p + size)) high 1
    expand (setPageOrder z (p + size) high) p mt low n

/-- `__rmqueue_smallest`; the first argument is `MAX_ORDER - current_order`. -/
def rmqueueSmallestLoop (z : Zone) (order : Nat) (mt : MigrateType) :
    Nat → Nat → Option (Nat × Zone)
  | 0, _ => none
  | n + 1, currentOrder =>
    match z.freeList currentOrder mt with
    | [] => rmqueueSmallestLoop z order mt n (currentOrder + 1)
    | p :: _ =>
      let z := addNrFree (rmvPageOrder (listDel z p) p) currentOrder (-1)
      some (p, expand z p mt order (currentOrder - order))

def rmqueueSmallest (z : Zone) (order : Nat) (mt : MigrateType) : Option (Nat × Zone) :=
  rmqueueSmallestLoop z order mt (cfg.maxOrder - order) order

/-- `move_freepages` from `p` on; the first argument bounds the pages that are left. -/
def moveFreepages (endPage : Nat) (mt : MigrateType) : Nat → Zone → Nat → Nat → Zone × Nat
  | 0, z, _, moved => (z, moved)
  | n + 1, z, p, moved =>
    if endPage < p then (z, moved)
    else if cfg.pfnValidWithin p = false then moveFreepages endPage mt n z (p + 1) moved
    else if (z.page p).buddy = false then moveFreepages endPage mt n z (p + 1) moved
    else
      let order := (z.page p).order
      moveFreepages endPage mt n (listAdd (listDel z p) order mt p) (p + 2 ^ order)
        (moved + 2 ^ order)

def moveFreepagesBlock (z : Zone) (p : Nat) (mt : MigrateType) : Zone × Nat :=
  let startPfn := p - (p &&& (pageblockNrPages cfg - 1))
  let endPfn := startPfn + pageblockNrPages cfg - 1
  let startPage := if startPfn < cfg.zoneStartPfn then p else startPfn
  if cfg.zoneStartPfn + cfg.spannedPages ≤ endPfn then (z, 0)
  else moveFreepages cfg endPfn mt (endPfn + 1 - startPage) z startPage 0

def changePageblockRange (z : Zone) (mt : MigrateType) : Nat → Nat → Zone
  | 0, _ => z
  | n + 1, p =>
    changePageblockRange (setPageblockMigratetype cfg z p mt) mt n (p + pageblockNrPages cfg)

/-- The part of the `__rmqueue_fallback` loop body behind the test for an empty list. -/
def takeFallback (z : Zone) (p order currentOrder : Nat) (startMt mt : MigrateType) : Nat × Zone :=
  let z := addNrFree z currentOrder (-1)
  let claim := currentOrder ≥ cfg.pageblockOrder / 2 ∨ startMt = reclaimable ∨ cfg.mobilityDisabled
  let (z, mt) :=
    if claim then
      let (z, pages) := moveFreepagesBlock cfg z p startMt
      let z := if pages ≥ 2 ^ (cfg.pageblockOrder - 1) ∨ cfg.mobilityDisabled then
          setPageblockMigratetype cfg z p startMt
        else z
      (z, startMt)
    else (z, mt)
  let z := rmvPageOrder (listDel z p) p
  let z := if currentOrder ≥ cfg.pageblockOrder then
      changePageblockRange cfg z startMt (2 ^ (currentOrder - cfg.pageblockOrder)) p
    else z
  (p, expand z p mt order (currentOrder - order))

/-- The inner loop of `__rmqueue_fallback` over a row of `fallbacks`. -/
def fallbackTypes (z : Zone) (order currentOrder : Nat) (startMt : MigrateType) :
    List MigrateType → Option (Nat × Zone)
  | [] => none
  | mt :: rest =>
    if mt = reserve then fallbackTypes z order currentOrder startMt rest
    else
      match z.freeList currentOrder mt with
      | [] => fallbackTypes z order currentOrder startMt rest
      | p :: _ => some (takeFallback cfg z p order currentOrder startMt mt)

/-- The outer loop, from the highest order down; the argument is `current_order - order + 1`. -/
def rmqueueFallbackLoop (z : Zone) (order : Nat) (startMt : MigrateType) :
    Nat → Option (Nat × Zone)
  | 0 => none
  | n + 1 =>
    match fallbackTypes cfg z order (order + n) startMt (fallbacks startMt) with
    | some r => some r
    | none => rmqueueFallbackLoop z order startMt n

def rmqueueFallback (z : Zone) (order : Nat) (startMt : MigrateType) : Option (Nat × Zone) :=
  rmqueueFallbackLoop cfg z order startMt (cfg.maxOrder - order)

/-- `__rmqueue`: the page and the zone it leaves, or NULL, which leaves the zone as it was. -/
def rmqueue (z : Zone) (order : Nat) (mt : MigrateType) : Option (Nat × Zone) :=
  match rmqueueSmallest cfg z order mt with
  | some r => some r
  | none =>
    if mt = reserve then none
    else
      match rmqueueFallback cfg z order mt with
      | some r => some r
      | none => rmqueueSmallest cfg z order reserve

end Buddy
