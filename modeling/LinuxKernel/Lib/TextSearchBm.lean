/- The Boyer-Moore search skips no occurrence, as long as its table of bad characters knows every way to write
a character of the pattern. -/
import Mathlib.Data.List.GetD
import Mathlib.Logic.Relation
import Mathlib.Tactic.Push
import LinuxKernel.Lib.TextSearchKmp

namespace TextSearch

open Matching List Function Width

variable {p : List UInt8}

/-- The table lets the last occurrence of a character in front of the last place catch up. -/
structure BadShiftOk (p : List UInt8) (icase : Bool) (tbl : UInt8 → Nat) (n : Nat) : Prop where
  le : ∀ c, tbl c ≤ p.length
  here : ∀ k < n, tbl (p.getD k 0) ≤ p.length - 1 - k
  lower : icase = true → ∀ k < n, tbl (tolower (p.getD k 0)) ≤ p.length - 1 - k

theorem update_le {tbl : UInt8 → Nat} {c d : UInt8} {v bound : Nat} (hv : v ≤ bound) (h : tbl d ≤ bound) :
    update tbl c v d ≤ bound := by
  by_cases eq : d = c
  · rw [eq, update_self]
    exact hv
  · rw [update_of_ne eq]
    exact h

variable {icase : Bool} {n : Nat}

theorem BadShiftOk.step {tbl : UInt8 → Nat} (h : BadShiftOk p icase tbl n) :
    BadShiftOk p icase (badShiftStep p icase tbl n) (n + 1) := by
  -- a new entry is smaller than the ones it replaces
  have lower : ∀ (c : UInt8) (bound : Nat), p.length - 1 - n ≤ bound → tbl c ≤ bound →
      badShiftStep p icase tbl n c ≤ bound := by
    intro c bound hv h
    rw [badShiftStep]
    split
    · exact update_le hv (update_le hv h)
    · exact update_le hv h
  refine ⟨fun c => lower c _ (by omega) (h.le c), ?_, ?_⟩
  · intro k lt
    by_cases last : k = n
    · subst last
      rw [badShiftStep]
      split
      · exact update_le le_rfl (by rw [update_self])
      · rw [update_self]
    · exact lower _ _ (by omega) (h.here k (by omega))
  · intro ic k lt
    by_cases last : k = n
    · subst last
      rw [badShiftStep]
      rw [if_pos ic, update_self]
    · exact lower _ _ (by omega) (h.lower ic k (by omega))

theorem badShiftTbl_ok (p : List UInt8) (icase : Bool) : BadShiftOk p icase (badShiftTbl p icase) (p.length - 1) := by
  have loop : ∀ n, BadShiftOk p icase ((List.range n).foldl (badShiftStep p icase) fun _ => p.length) n := by
    intro n
    induction n with
    | zero => exact ⟨fun _ => le_rfl, by simp, by simp⟩
    | succ n ih =>
      rw [range_succ, foldl_append]
      exact ih.step
  exact loop _

/-- 0xdf and 0xff are small letters, but the capital forms that `toupper` gives them are no capital letters. -/
theorem toupper_eq : ∀ c : Fin 256, UInt8.ofFin c ≠ 223 → UInt8.ofFin c ≠ 255 →
    UInt8.ofFin c = toupper (UInt8.ofFin c) ∨ UInt8.ofFin c = tolower (toupper (UInt8.ofFin c)) := by
  decide +kernel

/-- The table has no entry for a byte that the comparison takes for a character of the pattern. -/
def Unlisted (icase : Bool) (c : UInt8) : Prop := icase = true ∧ (c = 223 ∨ c = 255)

theorem fold_eq {c d : UInt8} (h : fold icase c = d) (listed : ¬Unlisted icase c) :
    c = d ∨ (icase = true ∧ c = tolower d) := by
  cases icase with
  | false => exact .inl h
  | true =>
    have upper : toupper c = d := h
    subst upper
    rcases toupper_eq c.toFin (fun eq => listed ⟨rfl, .inl eq⟩) (fun eq => listed ⟨rfl, .inr eq⟩) with eq | eq
    · exact .inl eq
    · exact .inr ⟨rfl, eq⟩

/-- The suffix of length `g` agrees with the characters `s` places before it, as far as there are any, and the
character in front of it does not. -/
structure Agrees (p : List UInt8) (g : Nat) (i j : Int) : Prop where
  same : ∀ d < g, 0 ≤ j + d → at_ p (i + d) = at_ p (j + d)
  front : 0 < j → at_ p (i - 1) ≠ at_ p (j - 1)

variable {g : Nat}

theorem subpatternFrom_of_agrees {i j : Int} (h : Agrees p g i j) (pos : 0 < n) (le : n ≤ g)
    (inside : 0 < j + n) : subpatternFrom p i j n (i + n - 1) (j + n - 1) = true := by
  induction n with
  | zero => cases pos
  | succ n ih =>
    have same := h.same n (by omega) (by omega)
    have x : i + (n + 1 : Nat) - 1 = i + n := by omega
    have y : j + (n + 1 : Nat) - 1 = j + n := by omega
    rw [subpatternFrom, x, y, if_pos same]
    split
    · rfl
    · split
      · rename_i last
        exact bne_iff_ne.mpr (h.front (by omega))
      · exact ih (by omega) (by omega) (by omega)

theorem findOverlap_spec {i j : Int} :
    (∀ j', findOverlap p i g n j = some j' → 1 - (g : Int) ≤ j' ∧ j' ≤ j ∧
      ∀ k, j' < k → k ≤ j → subpattern p i k g = false) ∧ (findOverlap p i g n j = none → j < 1 - (g : Int) + n →
      ∀ k, 1 - (g : Int) ≤ k → k ≤ j → subpattern p i k g = false) := by
  induction n generalizing j with
  | zero =>
    refine ⟨by simp [findOverlap], ?_⟩
    intro _ short k
    omega
  | succ n ih =>
    rw [findOverlap]
    split
    · rename_i low
      by_cases sub : subpattern p i j g = true
      · rw [if_pos sub]
        refine ⟨?_, by simp⟩
        intro j' eq
        cases eq
        exact ⟨low, Int.le_refl _, fun k => by omega⟩
      rw [if_neg sub]
      have here : subpattern p i j g = false := by simpa using sub
      constructor
      · intro j' found
        have spec := ih.1 j' found
        refine ⟨spec.1, by omega, ?_⟩
        intro k above le
        by_cases eq : k = j
        · rw [eq, here]
        · exact spec.2.2 k above (by omega)
      · intro nothing short k above le
        by_cases eq : k = j
        · rw [eq, here]
        · exact ih.2 nothing (by omega) k above (by omega)
    · refine ⟨by simp, ?_⟩
      intro _ _ k
      omega

/-- The pattern may not fit at fewer places to the right when a suffix of length `g` agreed. -/
structure GoodShiftOk (p : List UInt8) (tbl : Nat → Nat) (g : Nat) : Prop where
  pos : 0 < tbl g
  le : tbl g ≤ p.length
  skips : ∀ s : Nat, 0 < s → s < tbl g → ¬ Agrees p g ((p.length : Int) - g) ((p.length : Int) - g - s)

theorem goodShiftStep_ok {tbl : Nat → Nat} (lt : n + 1 < p.length) (rest : tbl (n + 1) = p.length) :
    GoodShiftOk p (goodShiftStep p tbl n) (n + 1) := by
  have spec := findOverlap_spec (p := p) (g := n + 1) (n := p.length)
    (i := (p.length : Int) - (n + 1 : Nat)) (j := (p.length : Int) - (n + 1 : Nat) - 1)
  rw [goodShiftStep]
  split
  · rename_i j found
    have ⟨low, high, between⟩ := spec.1 j found
    constructor
    · rw [update_self]
      omega
    · rw [update_self]
      omega
    · intro s pos lt agrees
      rw [update_self] at lt
      have sub : subpattern .. = _ := subpatternFrom_of_agrees agrees (Nat.succ_pos n) le_rfl (by omega)
      rw [between _ (by omega) (by omega)] at sub
      cases sub
  · rename_i nothing
    refine ⟨by omega, by omega, ?_⟩
    intro s pos lt agrees
    have sub : subpattern .. = _ := subpatternFrom_of_agrees agrees (Nat.succ_pos n) le_rfl (by omega)
    rw [spec.2 nothing (by omega) _ (by omega) (by omega)] at sub
    cases sub

theorem goodShiftStep_of_ne {tbl : Nat → Nat} (ne : g ≠ n + 1) : goodShiftStep p tbl n g = tbl g := by
  rw [goodShiftStep]
  cases findOverlap p ((p.length : Int) - (n + 1 : Nat)) (n + 1) p.length ((p.length : Int) - (n + 1 : Nat) - 1) with
  | none => rfl
  | some j => exact update_of_ne ne _ _

theorem goodShiftTbl_ok (lt : g < p.length) : GoodShiftOk p (goodShiftTbl p) g := by
  have loop : ∀ n < p.length, ∀ g < p.length,
      let tbl := (List.range n).foldl (goodShiftStep p) fun g => if g = 0 then 1 else p.length
      (g ≤ n → GoodShiftOk p tbl g) ∧ (n < g → tbl g = p.length) := by
    intro n
    induction n with
    | zero =>
      intro _ g lt
      constructor
      · intro zero
        cases Nat.le_zero.mp zero
        exact ⟨Nat.one_pos, lt, fun s pos small => by simp at small; omega⟩
      · intro pos
        exact if_neg (by omega)
    | succ n ih =>
      intro more g lt
      have before := ih (by omega)
      rw [range_succ, foldl_append]
      dsimp only [foldl_cons, foldl_nil] at before ⊢
      constructor
      · intro le
        by_cases eq : g = n + 1
        · subst eq
          exact goodShiftStep_ok lt ((before (n + 1) lt).2 (Nat.lt_succ_self n))
        have old := (before g lt).1 (by omega)
        have same : goodShiftStep p
            ((List.range n).foldl (goodShiftStep p) fun g => if g = 0 then 1 else p.length) n g = _ :=
          goodShiftStep_of_ne eq
        exact ⟨same ▸ old.pos, same ▸ old.le, same ▸ old.skips⟩
      · intro above
        rw [goodShiftStep_of_ne (by omega)]
        exact (before g lt).2 (by omega)
  exact (loop (p.length - 1) (by omega) g lt).1 (by omega)

variable {text : List UInt8} {shift : Nat}

theorem occurs_getD {s k : Nat} (h : Occurs p (text.map (fold icase)) s)
    (lt : k < p.length) : fold icase (text.getD (s + k) 0) = p.getD k 0 := by
  have eq := occurs_iff.mp h k lt
  rw [List.getElem?_map] at eq
  rw [getD_eq_getElem?_getD, getD_eq_getElem?_getD, ← eq]
  cases there : text[s + k]? with
  | none =>
    rw [there, List.getElem?_eq_getElem lt] at eq
    cases eq
  | some c => rfl

theorem occurs_of_getD {s : Nat} (le : s + p.length ≤ text.length)
    (h : ∀ k < p.length, fold icase (text.getD (s + k) 0) = p.getD k 0) : Occurs p (text.map (fold icase)) s := by
  rw [occurs_iff]
  intro k lt
  have eq := h k lt
  have bound : s + k < text.length := by omega
  rw [getD_eq_getElem text 0 bound, getD_eq_getElem p 0 lt] at eq
  rw [List.getElem?_map, List.getElem?_eq_getElem bound, List.getElem?_eq_getElem lt, ← eq]
  rfl

section Step

variable {icase : Bool} {text : List UInt8} {shift i e : Nat}

theorem badShift_skips (listed : ¬Unlisted icase (text.getD (shift - i) 0)) (low : p.length - 1 ≤ shift)
    (lt : i < p.length) (h : Occurs p (text.map (fold icase)) (e - (p.length - 1))) (after : shift < e) :
    shift - i + badShiftTbl p icase (text.getD (shift - i) 0) ≤ e := by
  by_contra skipped
  have le := (badShiftTbl_ok p icase).le (text.getD (shift - i) 0)
  -- the character under `i` is at this place of the pattern in the occurrence
  obtain ⟨k, place⟩ : ∃ k, e - (p.length - 1) + k = shift - i := ⟨shift - i - (e - (p.length - 1)), by omega⟩
  have bound : k < p.length - 1 := by omega
  have here := occurs_getD h (k := k) (by omega)
  rw [place] at here
  have ok := badShiftTbl_ok p icase
  rcases fold_eq here listed with eq | ⟨ic, eq⟩
  · have small := ok.here k bound
    rw [← eq] at small
    omega
  · have small := ok.lower ic k bound
    rw [← eq] at small
    omega

theorem goodShift_skips (low : p.length - 1 ≤ shift) (lt : i < p.length)
    (differs : fold icase (text.getD (shift - i) 0) ≠ p.getD (p.length - 1 - i) 0)
    (same : ∀ k < i, fold icase (text.getD (shift - k) 0) = p.getD (p.length - 1 - k) 0)
    (h : Occurs p (text.map (fold icase)) (e - (p.length - 1))) (after : shift < e) :
      shift + goodShiftTbl p i ≤ e := by
  by_contra skipped
  have ok := goodShiftTbl_ok lt
  obtain ⟨s, rfl⟩ : ∃ s, e = shift + s := ⟨e - shift, by omega⟩
  apply ok.skips s (by omega) (by omega)
  constructor
  · intro d lt' inside
    obtain ⟨k, place⟩ : ∃ k : Nat, (k : Int) = (p.length : Int) - i - s + d := ⟨_, Int.toNat_of_nonneg inside⟩
    have there := occurs_getD h (k := k) (by omega)
    have here := same (i - 1 - d) (by omega)
    rw [at_, at_, ← place, Int.toNat_natCast, ← there]
    rw [show ((p.length : Int) - i + d).toNat = p.length - 1 - (i - 1 - d) by omega, ← here]
    rw [show shift - (i - 1 - d) = shift + s - (p.length - 1) + k by omega]
  · intro inside eq
    apply differs
    obtain ⟨k, place⟩ : ∃ k : Nat, (k : Int) = (p.length : Int) - i - s - 1 :=
      ⟨_, Int.toNat_of_nonneg (by omega)⟩
    have there := occurs_getD h (k := k) (by omega)
    rw [at_, at_, ← place, Int.toNat_natCast, ← there] at eq
    rw [show p.length - 1 - i = ((p.length : Int) - i - 1).toNat by omega, eq]
    rw [show shift - i = shift + s - (p.length - 1) + k by omega]

end Step

theorem maxInt_eq {a b : Nat} (ha : a < 2 ^ 31) (hb : b < 2 ^ 31) : maxInt (u32 a) (u32 b) = max a b := by
  have ua : u32 a = a := Nat.mod_eq_of_lt (by omega)
  have ub : u32 b = b := Nat.mod_eq_of_lt (by omega)
  rw [maxInt, toInt, toInt, ua, ub, if_pos ha, if_pos hb]
  split <;> omega

/-- A round of the inner loop of `bm_find` that goes on at `next`. -/
structure Round (bm : TsBm) (icase : Bool) (text : List UInt8) (shift i next : Nat) : Prop where
  inside : shift < text.length
  differs : mismatch bm icase text shift = some i
  jump : next = maxInt (u32 (2 ^ 32 + shift - i + bm.badShift (text.getD (shift - i) 0)))
    (u32 (shift + bm.goodShift i))

def Reaches (bm : TsBm) (icase : Bool) (text : List UInt8) : Nat → Nat → Prop :=
  Relation.ReflTransGen fun shift next => ∃ i, Round bm icase text shift i next

def LeastOf (P : Nat → Prop) : Option Nat → Prop
  | some s => P s ∧ ∀ s' < s, ¬ P s'
  | none => ∀ s, ¬ P s

abbrev tables (p : List UInt8) (icase : Bool) : TsBm := ⟨p, badShiftTbl p icase, goodShiftTbl p⟩

section Search

variable {icase : Bool} {text : List UInt8} {i next r : Nat} (short : p.length + text.length < 2 ^ 31)
include short

theorem Round.spec (round : Round (tables p icase) icase text shift i next) (low : p.length - 1 ≤ shift) :
    i < p.length ∧ fold icase (text.getD (shift - i) 0) ≠ p.getD (p.length - 1 - i) 0 ∧
      (∀ k < i, fold icase (text.getD (shift - k) 0) = p.getD (p.length - 1 - k) 0) ∧
      next = max (shift - i + badShiftTbl p icase (text.getD (shift - i) 0)) (shift + goodShiftTbl p i) ∧
      shift < next := by
  obtain ⟨inside, h, rfl⟩ := round
  rw [mismatch, List.find?_range_eq_some] at h
  obtain ⟨differs, lt, same⟩ := h
  simp only [mem_range, bne_iff_ne, Bool.not_eq_true', bne_eq_false_iff_eq] at lt differs same
  have good := goodShiftTbl_ok lt
  have pos := good.pos
  have goodLe := good.le
  have badLe := (badShiftTbl_ok p icase).le (text.getD (shift - i) 0)
  have wrap : u32 (2 ^ 32 + shift - i + badShiftTbl p icase (text.getD (shift - i) 0)) =
      u32 (shift - i + badShiftTbl p icase (text.getD (shift - i) 0)) := by
    rw [u32, u32, show 2 ^ 32 + shift - i + badShiftTbl p icase (text.getD (shift - i) 0) =
      shift - i + badShiftTbl p icase (text.getD (shift - i) 0) + 2 ^ 32 by omega, Nat.add_mod_right]
  dsimp only
  rw [wrap, maxInt_eq (by omega) (by omega)]
  exact ⟨lt, differs, same, rfl, by omega⟩

/-- The round skips no occurrence, if the bad character does not. -/
theorem Round.skips (round : Round (tables p icase) icase text shift i next) (low : p.length - 1 ≤ shift)
    (safe : ∀ s, Occurs p (text.map (fold icase)) s → shift < s + (p.length - 1) →
      shift - i + badShiftTbl p icase (text.getD (shift - i) 0) ≤ s + (p.length - 1)) {s : Nat}
    (occurs : Occurs p (text.map (fold icase)) s) (le : shift ≤ s + (p.length - 1)) : next ≤ s + (p.length - 1) := by
  obtain ⟨lt, differs, same, rfl, -⟩ := round.spec short low
  -- no occurrence ends at `shift` itself
  have ne : shift ≠ s + (p.length - 1) := by
    intro eq
    apply differs
    have here := occurs_getD occurs (k := p.length - 1 - i) (by omega)
    rw [← here, show shift - i = s + (p.length - 1 - i) by omega]
  refine max_le (safe s occurs (by omega)) (goodShift_skips low lt differs same ?_ (by omega))
  rwa [Nat.add_sub_cancel]

theorem bmSearch_least (nonempty : p ≠ []) (low : p.length - 1 ≤ shift) (enough : text.length < n + shift)
    (safe : ∀ e i next, Reaches (tables p icase) icase text shift e → Round (tables p icase) icase text e i next →
      ∀ s, Occurs p (text.map (fold icase)) s → e < s + (p.length - 1) →
        e - i + badShiftTbl p icase (text.getD (e - i) 0) ≤ s + (p.length - 1)) :
    LeastOf (fun s => Occurs p (text.map (fold icase)) s ∧ shift ≤ s + (p.length - 1))
      ((bmSearch (tables p icase) icase text n shift).map (· - (p.length - 1))) := by
  have len := length_pos_iff.mpr nonempty
  have outside (ge : ¬ shift < text.length) : ∀ s,
      ¬ (Occurs p (text.map (fold icase)) s ∧ shift ≤ s + (p.length - 1)) := by
    rintro s ⟨occurs, le⟩
    have := occurs.length_le nonempty
    rw [length_map] at this
    omega
  induction n generalizing shift with
  | zero => exact outside (by omega)
  | succ n ih =>
    rw [bmSearch]
    split
    · rename_i inside
      cases found : mismatch (tables p icase) icase text shift with
      | none =>
        change LeastOf _ (some (shift - (p.length - 1)))
        refine ⟨⟨occurs_of_getD (by omega) fun k lt => ?_, by omega⟩, fun s lt => by omega⟩
        have same := List.find?_eq_none.mp found (p.length - 1 - k) (mem_range.mpr (by dsimp only; omega))
        simp only [bne_iff_ne, ne_eq, not_not] at same
        rw [show p.length - 1 - (p.length - 1 - k) = k by omega] at same
        rw [← same, show shift - (p.length - 1) + k = shift - (p.length - 1 - k) by omega]
      | some i =>
        have round : Round (tables p icase) icase text shift i _ := ⟨inside, found, rfl⟩
        have later := (round.spec short low).2.2.2.2
        have same : (fun s => Occurs p (text.map (fold icase)) s ∧ shift ≤ s + (p.length - 1)) = fun s => _ :=
          funext fun s => propext (and_congr_right fun occurs =>
            ⟨round.skips short low (safe shift i _ .refl round) occurs, later.le.trans⟩)
        rw [same]
        refine ih (by omega) (by omega) (fun e j next reach => safe e j next (.head ⟨i, round⟩ reach)) fun ge s => ?_
        rintro ⟨occurs, le⟩
        have := occurs.length_le nonempty
        rw [length_map] at this
        omega
    · rename_i ge
      exact outside ge

theorem le_of_bmSearch (low : p.length - 1 ≤ shift) (found : bmSearch (tables p icase) icase text n shift = some r) :
    shift ≤ r ∧ r < text.length := by
  induction n generalizing shift with
  | zero => cases found
  | succ n ih =>
    rw [bmSearch] at found
    split_ifs at found with inside
    cases differs : mismatch (tables p icase) icase text shift with
    | none =>
      simp only [differs, Option.some.injEq] at found
      omega
    | some i =>
      simp only [differs] at found
      have round : Round (tables p icase) icase text shift i _ := ⟨inside, differs, rfl⟩
      have later := (round.spec short low).2.2.2.2.le
      obtain ⟨le, lt⟩ := ih (low.trans later) found
      exact ⟨later.trans le, lt⟩

theorem bmSearch_of_reaches {e : Nat} (reach : Reaches (tables p icase) icase text shift e)
    (low : p.length - 1 ≤ shift)
    (enough : text.length < n + shift) : shift ≤ e ∧ ∃ n', text.length < n' + e ∧
      bmSearch (tables p icase) icase text n shift = bmSearch (tables p icase) icase text n' e := by
  induction reach with
  | refl => exact ⟨le_rfl, n, enough, rfl⟩
  | tail _ step ih =>
    obtain ⟨le, n', enough', eq⟩ := ih
    obtain ⟨i, round⟩ := step
    have later := (round.spec short (low.trans le)).2.2.2.2
    have inside := round.inside
    obtain ⟨n', rfl⟩ := Nat.exists_eq_add_of_le' (show 1 ≤ n' by omega)
    refine ⟨by omega, n', by omega, eq.trans ?_⟩
    rw [bmSearch, if_pos inside, round.differs, round.jump]

end Search

/-- A round looks up a byte that has no entry in the table, and the length of the pattern or the entry of another
character takes it past an occurrence. -/
def Misled (p : List UInt8) (icase : Bool) (text : List UInt8) : Prop :=
  ∃ shift i next s, Reaches (tables p icase) icase text (p.length - 1) shift ∧
    Round (tables p icase) icase text shift i next ∧ Unlisted icase (text.getD (shift - i) 0) ∧
    Occurs p (text.map (fold icase)) s ∧ shift < s + (p.length - 1) ∧
    s + (p.length - 1) < shift - i + badShiftTbl p icase (text.getD (shift - i) 0)

theorem bmSearch_first_iff (nonempty : p ≠ []) (short : p.length + text.length < 2 ^ 31) :
    IsFirst p (text.map (fold icase)) ((bmSearch (tables p icase) icase text (text.length + 1) (p.length - 1)).map
      (· - (p.length - 1))) ↔ ¬Misled p icase text := by
  constructor
  · rintro first ⟨shift, i, next, s, reach, round, -, occurs, before, skipped⟩
    have low := (bmSearch_of_reaches (n := text.length + 1) short reach le_rfl (by omega)).1
    obtain ⟨-, -, -, jump, later⟩ := round.spec short low
    obtain ⟨-, n, -, eq⟩ := bmSearch_of_reaches (n := text.length + 1) short (reach.tail ⟨i, round⟩) le_rfl (by omega)
    cases found : bmSearch (tables p icase) icase text n next with
    | none =>
      rw [eq, found] at first
      exact first s occurs
    | some r =>
      rw [eq, found] at first
      have := (le_of_bmSearch short (low.trans later.le) found).1
      exact first.2 s (show s < r - (p.length - 1) by omega) occurs
  · intro safe
    have least := @bmSearch_least _ (text.length + 1) _ icase text short nonempty le_rfl (by omega)
      fun e i next reach round s occurs before => by
      by_contra skipped
      have listed : ¬Unlisted icase (text.getD (e - i) 0) := fun unlisted =>
        safe ⟨e, i, next, s, reach, round, unlisted, occurs, before, not_le.mp skipped⟩
      have low := (bmSearch_of_reaches (n := text.length + 1) short reach le_rfl (by omega)).1
      have occurs' : Occurs p (text.map (fold icase)) (s + (p.length - 1) - (p.length - 1)) := by
        rwa [Nat.add_sub_cancel]
      exact skipped (badShift_skips listed low (round.spec short low).1 occurs' before)
    simp only [Nat.le_add_left, and_true] at least
    revert least
    cases (bmSearch (tables p icase) icase text (text.length + 1) (p.length - 1)).map
      (· - (p.length - 1)) <;> exact id

end TextSearch
