/- The reservation regions of a hugetlb mapping: region_add, region_chg and region_truncate. -/
import Mathlib.Data.Set.Card
import Mathlib.Data.Int.ConditionallyCompleteOrder
import Mathlib.Data.Int.Interval
import Mathlib.Tactic.Ring
import LinuxKernel.Foundation.Transition

namespace HugetlbRegion

open List

/-- `struct file_region`, the pages from `from_` up to but not including `to_`. -/
structure FileRegion where
  from_ : Int
  to_ : Int
  deriving DecidableEq, Repr

/-- The first loop of the three functions: the regions before the cursor, and those from the
cursor on. With nothing left the cursor is the list head itself. -/
def locate (f : Int) : List FileRegion → List FileRegion × List FileRegion
  | [] => ([], [])
  | rg :: rest =>
    if f ≤ rg.to_ then ([], rg :: rest)
    else (rg :: (locate f rest).1, (locate f rest).2)

/-- The second loop of `region_add` behind the region that is reused: the upper edge it reaches
and the regions it leaves. -/
def addLoop : Int → List FileRegion → Int × List FileRegion
  | t, [] => (t, [])
  | t, rg :: rest =>
    if t < rg.from_ then (t, rg :: rest)
    else addLoop (if t < rg.to_ then rg.to_ else t) rest

/-- `region_add` on the list behind `head`. `none` is the run in which the cursor ends on the
list head, so that `nrg->from` and `nrg->to` are written through it. -/
def regionAdd (head : List FileRegion) (f t : Int) : Option (List FileRegion) :=
  match locate f head with
  | (_, []) => none
  | (before, rg :: rest) =>
    let f := if rg.from_ < f then rg.from_ else f
    if t < rg.from_ then some (before ++ ⟨f, t⟩ :: rest)
    else
      let (t, rest) := addLoop (if t < rg.to_ then rg.to_ else t) rest
      some (before ++ ⟨f, t⟩ :: rest)

def chgLoop : Int → Int → List FileRegion → Int
  | _, chg, [] => chg
  | t, chg, rg :: rest =>
    if t < rg.from_ then chg
    else if t < rg.to_ then chgLoop rg.to_ (chg + (rg.to_ - t) - (rg.to_ - rg.from_)) rest
    else chgLoop t (chg - (rg.to_ - rg.from_)) rest

/-- `region_chg`; `none` is `-ENOMEM`, the outcome of a failed `kmalloc`. -/
def regionChg (kmalloc : Bool) (head : List FileRegion) (f t : Int) : Option (List FileRegion × Int) :=
  let placeholder (before rest : List FileRegion) :=
    if kmalloc then some (before ++ ⟨f, f⟩ :: rest, t - f) else none
  match locate f head with
  | (before, []) => placeholder before []
  | (before, rg :: rest) =>
    if t < rg.from_ then placeholder before (rg :: rest)
    else
      let f := if rg.from_ < f then rg.from_ else f
      some (head, chgLoop t (t - f) (rg :: rest))

/-- The drop loop of `region_truncate` adds up the lengths of the regions it frees. -/
def dropLoop : Int → List FileRegion → Int
  | chg, [] => chg
  | chg, rg :: rest => dropLoop (chg + (rg.to_ - rg.from_)) rest

def regionTruncate (head : List FileRegion) (end_ : Int) : List FileRegion × Int :=
  match locate end_ head with
  | (_, []) => (head, 0)
  | (before, rg :: rest) =>
    if rg.from_ < end_ then
      (before ++ [⟨rg.from_, end_⟩], dropLoop (rg.to_ - end_) rest)
    else (before, dropLoop 0 (rg :: rest))

def Covered (l : List FileRegion) (x : Int) : Prop := ∃ rg ∈ l, rg.from_ ≤ x ∧ x < rg.to_

instance (l : List FileRegion) (x : Int) : Decidable (Covered l x) :=
  inferInstanceAs (Decidable (∃ rg ∈ l, _))

def lenSum (l : List FileRegion) : Int := (l.map fun rg => rg.to_ - rg.from_).sum

/-- Regions in order with a gap between neighbours; a region of length zero is a placeholder. -/
structure Ordered (l : List FileRegion) : Prop where
  apart : l.Pairwise fun a b => a.to_ < b.from_
  proper : ∀ rg ∈ l, rg.from_ ≤ rg.to_

@[simp] theorem covered_nil (x : Int) : ¬ Covered [] x := by simp [Covered]

@[simp] theorem covered_cons (rg : FileRegion) (l : List FileRegion) (x : Int) :
    Covered (rg :: l) x ↔ (rg.from_ ≤ x ∧ x < rg.to_) ∨ Covered l x := by
  simp [Covered]

@[simp] theorem covered_append (l m : List FileRegion) (x : Int) :
    Covered (l ++ m) x ↔ Covered l x ∨ Covered m x := by
  simp [Covered, or_and_right, exists_or]

@[simp] theorem lenSum_nil : lenSum [] = 0 := rfl

@[simp] theorem lenSum_cons (rg : FileRegion) (l : List FileRegion) :
    lenSum (rg :: l) = rg.to_ - rg.from_ + lenSum l := by simp [lenSum]

theorem dropLoop_eq (chg : Int) (l : List FileRegion) : dropLoop chg l = chg + lenSum l := by
  induction l generalizing chg with
  | nil => simp [dropLoop]
  | cons rg l ih => rw [dropLoop, ih, lenSum_cons]; ring

variable {l m : List FileRegion} {rg : FileRegion} {x f t : Int}

theorem ordered_iff : Ordered l ↔ (l.Pairwise fun a b => a.to_ < b.from_) ∧ ∀ rg ∈ l, rg.from_ ≤ rg.to_ :=
  ⟨fun h => ⟨h.apart, h.proper⟩, fun h => ⟨h.1, h.2⟩⟩

theorem ordered_cons : Ordered (rg :: l) ↔ rg.from_ ≤ rg.to_ ∧ (∀ x ∈ l, rg.to_ < x.from_) ∧ Ordered l := by
  simp only [ordered_iff, pairwise_cons, forall_mem_cons]
  tauto

theorem ordered_append : Ordered (l ++ m) ↔ Ordered l ∧ Ordered m ∧ ∀ a ∈ l, ∀ b ∈ m, a.to_ < b.from_ := by
  simp only [ordered_iff, pairwise_append, forall_mem_append]
  tauto

theorem ordered_nil : Ordered [] := ⟨.nil, by simp⟩

theorem Covered.lt (h : Covered l x) (below : ∀ rg ∈ l, rg.to_ ≤ t) : x < t := by
  obtain ⟨rg, mem, -, lt⟩ := h
  exact lt.trans_le (below rg mem)

theorem Covered.le (h : Covered l x) (above : ∀ rg ∈ l, f ≤ rg.from_) : f ≤ x := by
  obtain ⟨rg, mem, le, -⟩ := h
  exact (above rg mem).trans le

theorem setOf_covered_cons (rg : FileRegion) (l : List FileRegion) :
    {x | Covered (rg :: l) x} = Set.Ico rg.from_ rg.to_ ∪ {x | Covered l x} := by
  ext x
  simp

theorem covered_finite (l : List FileRegion) : {x | Covered l x}.Finite := by
  induction l with
  | nil => simp
  | cons rg l ih =>
    rw [setOf_covered_cons]
    exact (Set.finite_Ico _ _).union ih

theorem ncard_Ico (h : f ≤ t) : ((Set.Ico f t).ncard : Int) = t - f := by
  rw [← Finset.coe_Ico, Set.ncard_coe_finset, Int.card_Ico]
  omega

theorem ncard_covered (apart : l.Pairwise fun a b => a.to_ ≤ b.from_) (proper : ∀ rg ∈ l, rg.from_ ≤ rg.to_) :
    ({x | Covered l x}.ncard : Int) = lenSum l := by
  induction l with
  | nil => simp
  | cons rg l ih =>
    rw [pairwise_cons] at apart
    rw [forall_mem_cons] at proper
    have disjoint : Disjoint (Set.Ico rg.from_ rg.to_) {x | Covered l x} := by
      rw [Set.disjoint_left]
      exact fun x inside covered => not_lt.mpr (covered.le apart.1) inside.2
    rw [setOf_covered_cons, Set.ncard_union_eq disjoint (Set.finite_Ico _ _) (covered_finite l), Nat.cast_add,
      ncard_Ico proper.1, ih apart.2 proper.2, lenSum_cons]

theorem Ordered.ncard_covered (h : Ordered l) : ({x | Covered l x}.ncard : Int) = lenSum l :=
  HugetlbRegion.ncard_covered (h.apart.imp le_of_lt) h.proper

theorem exists_locate (f : Int) (l : List FileRegion) : ∃ before rest, locate f l = (before, rest) ∧
    l = before ++ rest ∧ (∀ rg ∈ before, rg.to_ < f) ∧ ∀ rg ∈ rest.head?, f ≤ rg.to_ := by
  induction l with
  | nil => exact ⟨[], [], rfl, rfl, by simp, by simp⟩
  | cons rg l ih =>
    by_cases near : f ≤ rg.to_
    · exact ⟨[], rg :: l, if_pos near, rfl, by simp, by simpa⟩
    · obtain ⟨before, rest, run, rfl, early, cursor⟩ := ih
      exact ⟨rg :: before, rest, by rw [locate, if_neg near, run], rfl,
        forall_mem_cons.mpr ⟨not_le.mp near, early⟩, cursor⟩

/-- The regions that the loop consumes reach up to the new edge and fill what lies above the
old one. -/
theorem addLoop_spec (h : Ordered l) : ∃ eaten t' rest, addLoop t l = (t', rest) ∧ l = eaten ++ rest ∧ t ≤ t' ∧
      (∀ rg ∈ eaten, rg.to_ ≤ t') ∧ (∀ rg ∈ rest, t' < rg.from_) ∧ (∀ x, t ≤ x → x < t' → Covered eaten x) ∧
      ∀ chg, chgLoop t chg l = chg + (t' - t) - lenSum eaten := by
  induction l generalizing t with
  | nil => exact ⟨[], t, [], rfl, rfl, le_rfl, by simp, by simp, by omega, by simp [chgLoop]⟩
  | cons rg l ih =>
    obtain ⟨proper, later, h⟩ := ordered_cons.mp h
    by_cases stop : t < rg.from_
    · refine ⟨[], t, rg :: l, if_pos stop, rfl, le_rfl, by simp, ?_, by omega, by simp [chgLoop, stop]⟩
      refine forall_mem_cons.mpr ⟨stop, fun x hx => ?_⟩
      have := later x hx
      omega
    obtain ⟨eaten, t', rest, run, rfl, grow, below, above, fill, count⟩ :=
      ih (t := if t < rg.to_ then rg.to_ else t) h
    refine ⟨rg :: eaten, t', rest, by rw [addLoop, if_neg stop, run], rfl, by omega,
      forall_mem_cons.mpr ⟨by omega, below⟩, above, fun x lo hi => ?_, fun chg => ?_⟩
    · by_cases here : x < rg.to_
      · exact (covered_cons ..).mpr (.inl ⟨by omega, here⟩)
      · exact (covered_cons ..).mpr (.inr (fill x (by omega) hi))
    · rw [chgLoop, if_neg stop, lenSum_cons]
      split_ifs at count ⊢
      all_goals
        rw [count]
        ring

/-- Some region meets the closed interval from `f` to `t`: what a reservation relies on between
its `region_chg` and its `region_add`. -/
def Anchored (l : List FileRegion) (f t : Int) : Prop := ∃ rg ∈ l, f ≤ rg.to_ ∧ rg.from_ ≤ t

theorem locate_anchored (h : Ordered l) (hit : Anchored l f t) :
    ∃ before rg rest, locate f l = (before, rg :: rest) ∧ l = before ++ rg :: rest ∧
      (∀ x ∈ before, x.to_ < f) ∧ f ≤ rg.to_ ∧ rg.from_ ≤ t := by
  obtain ⟨before, rest, run, rfl, early, cursor⟩ := exists_locate f l
  obtain ⟨a, ha, lo, hi⟩ := hit
  have ha : a ∈ rest := (mem_append.mp ha).resolve_left fun ha => not_le.mpr (early a ha) lo
  cases rest with
  | nil => cases ha
  | cons rg rest =>
    refine ⟨before, rg, rest, run, rfl, early, cursor rg rfl, ?_⟩
    rcases mem_cons.mp ha with rfl | ha
    · exact hi
    · obtain ⟨proper, later, -⟩ := ordered_cons.mp (ordered_append.mp h).2.1
      have := later a ha
      omega

/-- An anchored `region_add` never writes through the list head, adds exactly the pages asked
for, and keeps every old region inside a new one. -/
theorem regionAdd_spec (h : Ordered l) (hft : f < t) (hit : Anchored l f t) :
    ∃ l', regionAdd l f t = some l' ∧ Ordered l' ∧ (∀ x, Covered l' x ↔ Covered l x ∨ (f ≤ x ∧ x < t)) ∧
      ∀ rg ∈ l, ∃ rg' ∈ l', rg'.from_ ≤ rg.from_ ∧ rg.to_ ≤ rg'.to_ := by
  obtain ⟨before, rg, rest, hloc, rfl, early, lo, hi⟩ := locate_anchored h hit
  obtain ⟨left, right, gaps⟩ := ordered_append.mp h
  obtain ⟨proper, later, tail⟩ := ordered_cons.mp right
  obtain ⟨eaten, t', rest, run, rfl, grow, below, above, fill, -⟩ :=
    addLoop_spec (t := if t < rg.to_ then rg.to_ else t) tail
  obtain ⟨f', hf'⟩ : ∃ f', f' = if rg.from_ < f then rg.from_ else f := ⟨_, rfl⟩
  have front : ∀ x ∈ before, x.to_ < f' := by
    intro x hx
    have := early x hx
    have := gaps x hx rg mem_cons_self
    omega
  refine ⟨before ++ ⟨f', t'⟩ :: rest, ?_, ?_, fun x => ?_, ?_⟩
  · simp only [regionAdd, hloc, if_neg (not_lt.mpr hi), run, hf']
  · refine ordered_append.mpr ⟨left, ordered_cons.mpr ⟨by simp only; omega, above, (ordered_append.mp tail).2.1⟩, ?_⟩
    refine fun a ha => forall_mem_cons.mpr ⟨front a ha, fun b hb => ?_⟩
    have := front a ha
    have := above b hb
    omega
  · have inner : (f' ≤ x ∧ x < t') ↔ (rg.from_ ≤ x ∧ x < rg.to_) ∨ Covered eaten x ∨ (f ≤ x ∧ x < t) := by
      constructor
      · rintro ⟨hx, hx'⟩
        by_cases mid : x < (if t < rg.to_ then rg.to_ else t)
        · split_ifs at mid <;> omega
        · exact .inr (.inl (fill x (not_lt.mp mid) hx'))
      · rintro (hx | hx | hx)
        · omega
        · have := hx.le fun a ha => (later a (mem_append_left _ ha)).le
          have := hx.lt below
          omega
        · omega
    simp [inner, or_assoc, or_comm (a := f ≤ x ∧ x < t)]
  · simp only [forall_mem_append, forall_mem_cons]
    refine ⟨fun a ha => ⟨a, by simp [ha], le_rfl, le_rfl⟩,
      ⟨⟨f', t'⟩, by simp, by simp only; omega, by simp only; omega⟩,
      fun a ha => ⟨⟨f', t'⟩, by simp, ?_, below a ha⟩, fun a ha => ⟨a, by simp [ha], le_rfl, le_rfl⟩⟩
    have := later a (mem_append_left _ ha)
    simp only
    omega

/-- The pages missing in an interval are those missing in a larger one that the regions fill where it is larger. -/
theorem ncard_missing {before mid rest : List FileRegion} {f' t' : Int} (ordered : Ordered mid) (hft : f' ≤ t')
    (inside : ∀ rg ∈ mid, f' ≤ rg.from_ ∧ rg.to_ ≤ t') (early : ∀ rg ∈ before, rg.to_ < f)
    (high : ∀ rg ∈ rest, t < rg.from_) (hf : f' ≤ f) (ht : t ≤ t')
    (fill : ∀ x, f' ≤ x → x < t' → x < f ∨ t ≤ x → Covered mid x) :
    t' - f' - lenSum mid = ({x | f ≤ x ∧ x < t ∧ ¬ Covered (before ++ (mid ++ rest)) x}.ncard : Int) := by
  have missing : {x | f ≤ x ∧ x < t ∧ ¬ Covered (before ++ (mid ++ rest)) x} =
      Set.Ico f' t' \ {x | Covered mid x} := by
    ext x
    have low : Covered before x → x < f := fun h => h.lt fun a ha => (early a ha).le
    have up : Covered rest x → t ≤ x := fun h => h.le fun a ha => (high a ha).le
    have := fill x
    simp only [Set.mem_ofPred_eq, covered_append, Set.mem_sdiff, Set.mem_Ico]
    grind
  have sub : {x | Covered mid x} ⊆ Set.Ico f' t' := fun x hx =>
    ⟨hx.le fun a ha => (inside a ha).1, hx.lt fun a ha => (inside a ha).2⟩
  have count := Set.ncard_sdiff_add_ncard_of_subset sub (Set.finite_Ico f' t')
  rw [missing, ← ordered.ncard_covered, ← ncard_Ico hft, ← count]
  simp

theorem missing_met {before rest : List FileRegion} (h : Ordered (before ++ rg :: rest))
    (early : ∀ x ∈ before, x.to_ < f) (lo : f ≤ rg.to_) (hft : f < t) (meets : rg.from_ ≤ t) :
    chgLoop t (t - if rg.from_ < f then rg.from_ else f) (rg :: rest) =
      ({x | f ≤ x ∧ x < t ∧ ¬ Covered (before ++ rg :: rest) x}.ncard : Int) := by
  obtain ⟨-, right, -⟩ := ordered_append.mp h
  obtain ⟨proper, later, -⟩ := ordered_cons.mp right
  obtain ⟨eaten, t', rest', -, split, grow, below, above, fill, count⟩ := addLoop_spec (t := t) right
  rw [count]
  obtain ⟨f', hf'⟩ : ∃ f', f' = if rg.from_ < f then rg.from_ else f := ⟨_, rfl⟩
  have first : rg ∈ eaten := by
    refine (mem_append.mp (split ▸ mem_cons_self)).resolve_right fun hrg => ?_
    have := above rg hrg
    omega
  have start : ∀ a ∈ eaten, f' ≤ a.from_ := by
    intro a ha
    rcases mem_cons.mp (split ▸ mem_append_left rest' ha) with rfl | ha
    · omega
    · have := later a ha
      omega
  rw [split] at right ⊢
  rw [← ncard_missing (ordered_append.mp right).1 (by omega : f' ≤ t') (fun a ha => ⟨start a ha, below a ha⟩) early
    (fun a ha => grow.trans_lt (above a ha)) (by omega) grow, ← hf']
  · ring
  · rintro x hx hx' (under | past)
    · exact ⟨rg, first, by omega, by omega⟩
    · exact fill x past hx'

/-- `region_chg` counts the pages that are missing, covers nothing new, and anchors the request. -/
theorem regionChg_spec {l l' : List FileRegion} (h : Ordered l) {n : Int} (hft : f < t)
    {kmalloc : Bool} (run : regionChg kmalloc l f t = some (l', n)) : Ordered l' ∧ (∀ x, Covered l' x ↔ Covered l x) ∧
      n = ({x | f ≤ x ∧ x < t ∧ ¬ Covered l x}.ncard : Int) ∧ Anchored l' f t ∧ ∀ rg ∈ l, rg ∈ l' := by
  obtain ⟨before, rest, hloc, rfl, early, cursor⟩ := exists_locate f l
  obtain ⟨left, right, gaps⟩ := ordered_append.mp h
  by_cases high : ∀ x ∈ rest, t < x.from_
  · have place : before ++ ⟨f, f⟩ :: rest = l' ∧ t - f = n := by
      cases rest with
      | nil =>
        simp only [regionChg, hloc, Option.ite_none_right_eq_some] at run
        exact Prod.mk.inj (Option.some.inj run.2)
      | cons rg rest =>
        simp only [regionChg, hloc, if_pos (high rg mem_cons_self), Option.ite_none_right_eq_some] at run
        exact Prod.mk.inj (Option.some.inj run.2)
    obtain ⟨rfl, rfl⟩ := place
    refine ⟨?_, fun x => ?_, ?_, ⟨⟨f, f⟩, by simp, le_rfl, hft.le⟩, ?_⟩
    · refine ordered_append.mpr ⟨left, ordered_cons.mpr ⟨le_rfl, fun x hx => hft.trans (high x hx), right⟩, ?_⟩
      exact fun a ha => forall_mem_cons.mpr ⟨early a ha, gaps a ha⟩
    · simp only [covered_append, covered_cons]
      have : ¬ (f ≤ x ∧ x < f) := by omega
      tauto
    · have count := ncard_missing ordered_nil hft.le (by simp) early high le_rfl le_rfl (by omega)
      simpa using count
    · intro rg hrg
      simp only [mem_append, mem_cons] at hrg ⊢
      tauto
  · cases rest with
    | nil => exact absurd (by simp) high
    | cons rg rest =>
      have meets : rg.from_ ≤ t := by
        by_contra above
        obtain ⟨proper, later, -⟩ := ordered_cons.mp right
        refine high (forall_mem_cons.mpr ⟨not_le.mp above, fun x hx => ?_⟩)
        have := later x hx
        omega
      simp only [regionChg, hloc, if_neg (not_lt.mpr meets)] at run
      obtain ⟨rfl, rfl⟩ := run
      have lo := cursor rg rfl
      exact ⟨h, fun _ => Iff.rfl, missing_met h early lo hft meets, ⟨rg, by simp, lo, meets⟩, fun _ hx => hx⟩

theorem Ordered.cut {low high : List FileRegion} {end_ : Int} (h : Ordered high) (below : ∀ rg ∈ low, rg.to_ ≤ end_)
    (above : ∀ rg ∈ high, end_ ≤ rg.from_) (whole : ∀ x, Covered l x ↔ Covered low x ∨ Covered high x) :
    (∀ x, Covered low x ↔ Covered l x ∧ x < end_) ∧ lenSum high = ({x | Covered l x ∧ end_ ≤ x}.ncard : Int) := by
  have under x (hx : Covered low x) : x < end_ := hx.lt below
  have past x (hx : Covered high x) : end_ ≤ x := hx.le above
  have tail : {x | Covered l x ∧ end_ ≤ x} = {x | Covered high x} := by
    ext x
    simp only [Set.mem_ofPred_eq]
    grind
  rw [tail, h.ncard_covered]
  exact ⟨by grind, rfl⟩

theorem regionTruncate_spec (h : Ordered l) (end_ : Int) : Ordered (regionTruncate l end_).1 ∧
      (∀ x, Covered (regionTruncate l end_).1 x ↔ Covered l x ∧ x < end_) ∧
      (regionTruncate l end_).2 = ({x | Covered l x ∧ end_ ≤ x}.ncard : Int) := by
  obtain ⟨before, rest, hloc, rfl, early, cursor⟩ := exists_locate end_ l
  obtain ⟨left, right, gaps⟩ := ordered_append.mp h
  have below : ∀ rg ∈ before, rg.to_ ≤ end_ := fun rg hrg => (early rg hrg).le
  cases rest with
  | nil =>
    rw [append_nil] at hloc ⊢
    simp only [regionTruncate, hloc]
    exact ⟨left, ordered_nil.cut below (by simp) (by simp)⟩
  | cons rg rest =>
    obtain ⟨proper, later, tail⟩ := ordered_cons.mp right
    have lo := cursor rg rfl
    have above : ∀ x ∈ rest, end_ ≤ x.from_ := fun x hx => lo.trans (later x hx).le
    by_cases mid : rg.from_ < end_
    · simp only [regionTruncate, hloc, if_pos mid, dropLoop_eq, ← lenSum_cons ⟨end_, rg.to_⟩]
      refine ⟨ordered_append.mpr ⟨left, ordered_cons.mpr ⟨mid.le, by simp, ordered_nil⟩, ?_⟩, ?_⟩
      · intro a ha b hb
        rw [mem_singleton.mp hb]
        exact gaps a ha rg mem_cons_self
      · refine Ordered.cut (ordered_cons.mpr ⟨lo, later, tail⟩) ?_ (forall_mem_cons.mpr ⟨le_rfl, above⟩) fun x => ?_
        · exact forall_mem_append.mpr ⟨below, by simp⟩
        · simp only [covered_append, covered_cons, covered_nil]
          grind
    · simp only [regionTruncate, hloc, if_neg mid, dropLoop_eq, zero_add]
      exact ⟨left, right.cut below (forall_mem_cons.mpr ⟨not_lt.mp mid, above⟩) fun x => covered_append ..⟩

/-- The list and the reservations that were counted and not yet added. -/
structure RegionState where
  regions : List FileRegion
  pending : List (Int × Int)

/-- Any interleaving of the three operations. An addition uses up a reservation of its own, and
a truncation cancels those that are open. -/
inductive RegionStep : RegionState → RegionState → Prop
  | chg {s : RegionState} {kmalloc : Bool} {f t n : Int} {l : List FileRegion} (nonneg : 0 ≤ f)
      (lt : f < t) (run : regionChg kmalloc s.regions f t = some (l, n)) :
      RegionStep s ⟨l, (f, t) :: s.pending⟩
  | enomem {s : RegionState} {kmalloc : Bool} {f t : Int} (nonneg : 0 ≤ f) (lt : f < t)
      (run : regionChg kmalloc s.regions f t = none) : RegionStep s s
  | add {s : RegionState} {f t : Int} {l : List FileRegion} (own : (f, t) ∈ s.pending)
      (run : regionAdd s.regions f t = some l) : RegionStep s ⟨l, s.pending.erase (f, t)⟩
  | truncate {s : RegionState} (end_ : Int) : RegionStep s ⟨(regionTruncate s.regions end_).1, []⟩

def RegionInit (s : RegionState) : Prop := s = ⟨[], []⟩

structure RegionOk (s : RegionState) : Prop where
  ordered : Ordered s.regions
  nonneg : ∀ x, Covered s.regions x → 0 ≤ x
  pending : ∀ r ∈ s.pending, 0 ≤ r.1 ∧ r.1 < r.2 ∧ Anchored s.regions r.1 r.2

/-- Regions only grow between truncations, so a reservation stays anchored. -/
theorem Anchored.mono {l l' : List FileRegion} (h : Anchored l f t)
    (grow : ∀ rg ∈ l, ∃ rg' ∈ l', rg'.from_ ≤ rg.from_ ∧ rg.to_ ≤ rg'.to_) : Anchored l' f t := by
  obtain ⟨rg, hrg, lo, hi⟩ := h
  obtain ⟨rg', hrg', lo', hi'⟩ := grow rg hrg
  exact ⟨rg', hrg', lo.trans hi', lo'.trans hi⟩

theorem RegionOk.step {s t : RegionState} (ok : RegionOk s) (st : RegionStep s t) : RegionOk t := by
  cases st with
  | chg nonneg lt run =>
    obtain ⟨ordered, same, -, anchor, keep⟩ := regionChg_spec ok.ordered lt run
    refine ⟨ordered, fun x hx => ok.nonneg x ((same x).mp hx), ?_⟩
    intro r hr
    rcases mem_cons.mp hr with rfl | hr
    · exact ⟨nonneg, lt, anchor⟩
    · obtain ⟨h0, hlt, hit⟩ := ok.pending r hr
      exact ⟨h0, hlt, hit.mono fun rg hrg => ⟨rg, keep rg hrg, le_rfl, le_rfl⟩⟩
  | enomem nonneg lt run => exact ok
  | add own run =>
    obtain ⟨h0, hlt, hit⟩ := ok.pending _ own
    obtain ⟨l', run', ordered, union, grow⟩ := regionAdd_spec ok.ordered hlt hit
    cases run.symm.trans run'
    refine ⟨ordered, ?_, ?_⟩
    · intro x hx
      rcases (union x).mp hx with hx | hx
      · exact ok.nonneg x hx
      · simp only at h0 hx
        omega
    · intro r hr
      obtain ⟨h0', hlt', hit'⟩ := ok.pending r (mem_of_mem_erase hr)
      exact ⟨h0', hlt', hit'.mono grow⟩
  | truncate end_ =>
    obtain ⟨ordered, cut, -⟩ := regionTruncate_spec ok.ordered end_
    exact ⟨ordered, fun x hx => ok.nonneg x ((cut x).mp hx).1, by simp⟩

/-- In every reachable state the regions are in order with gaps between them; `region_chg`
returns the number of missing pages and covers nothing new, and fails only with `kmalloc`; the
`region_add` of an open reservation adds exactly its pages and stays off the list head; and
`region_truncate` returns the number of pages it drops. -/
theorem region_refines_page_set {s : RegionState} (h : Transition.Reachable RegionInit RegionStep s) :
    Ordered s.regions ∧ (∀ kmalloc f t, 0 ≤ f → f < t → (regionChg kmalloc s.regions f t = none → kmalloc = false) ∧
      ∀ l n, regionChg kmalloc s.regions f t = some (l, n) →
        n = ({x | f ≤ x ∧ x < t ∧ ¬ Covered s.regions x}.ncard : Int) ∧
        (∀ x, Covered l x ↔ Covered s.regions x) ∧ Ordered l) ∧
    (∀ r ∈ s.pending, ∃ l, regionAdd s.regions r.1 r.2 = some l ∧ Ordered l ∧
      ∀ x, Covered l x ↔ Covered s.regions x ∨ (r.1 ≤ x ∧ x < r.2)) ∧ ∀ end_, (regionTruncate s.regions end_).2 =
        ({x | Covered s.regions x ∧ end_ ≤ x}.ncard : Int) ∧ Ordered (regionTruncate s.regions end_).1 ∧
      ∀ x, Covered (regionTruncate s.regions end_).1 x ↔ Covered s.regions x ∧ 0 ≤ x ∧ x < end_ := by
  have ok : RegionOk s := by
    refine h.invariant RegionOk ?_ fun _ _ ok st => ok.step st
    rintro _ rfl
    exact ⟨ordered_nil, by simp, by simp⟩
  refine ⟨ok.ordered, ?_, ?_, ?_⟩
  · intro kmalloc f t _ lt
    refine ⟨?_, ?_⟩
    · intro run
      simp only [regionChg] at run
      split at run
      · simpa using run
      · split at run
        · simpa using run
        · cases run
    · intro l n run
      obtain ⟨ordered, same, count, -, -⟩ := regionChg_spec ok.ordered lt run
      exact ⟨count, same, ordered⟩
  · intro r hr
    obtain ⟨-, hlt, hit⟩ := ok.pending r hr
    obtain ⟨l, run, ordered, union, -⟩ := regionAdd_spec ok.ordered hlt hit
    exact ⟨l, run, ordered, union⟩
  · intro end_
    obtain ⟨ordered, cut, count⟩ := regionTruncate_spec ok.ordered end_
    refine ⟨count, ordered, fun x => (cut x).trans ?_⟩
    exact ⟨fun hx => ⟨hx.1, ok.nonneg x hx.1, hx.2⟩, fun hx => ⟨hx.1, hx.2.2⟩⟩

/-- Two reservations share one placeholder, and the first addition leaves the second anchored. -/
theorem region_refines_page_set_shared :
    regionChg true [] 5 7 = some ([⟨5, 5⟩], 2) ∧ regionChg true [⟨5, 5⟩] 3 6 = some ([⟨5, 5⟩], 3) ∧
    ∃ l, regionAdd [⟨5, 7⟩] 3 6 = some l ∧ Ordered l := by
  have first : regionChg true [] 5 7 = some ([⟨5, 5⟩], 2) := by decide
  have second : regionChg true [⟨5, 5⟩] 3 6 = some ([⟨5, 5⟩], 3) := by decide
  have added : regionAdd [⟨5, 5⟩] 5 7 = some [⟨5, 7⟩] := by decide
  have start : Transition.Reachable RegionInit RegionStep ⟨[], []⟩ := .start rfl
  have one := start.next (.chg (by decide) (by decide) first)
  have two := one.next (.chg (by decide) (by decide) second)
  have three := two.next (.add (f := 5) (t := 7) (by decide) added)
  obtain ⟨l, run, ordered, -⟩ := (region_refines_page_set three).2.2.1 (3, 6) (by decide)
  exact ⟨first, second, l, run, ordered⟩

end HugetlbRegion
