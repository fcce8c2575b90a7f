/- vsnprintf() cuts its output at the size of the buffer: the loop ends, and one output is the start of the other. -/
import LinuxKernel.Lib.Vsprintf
import Mathlib.Tactic.Linarith

namespace Vsprintf

open Function List

open Emit (Sink Cursor)

/-- A width or a precision that is an argument is still to be taken. -/
def Spec.waiting (spec : Spec) : ℕ := if spec.type = .width ∨ spec.type = .precision then 1 else 0

theorem waiting_le (spec : Spec) : spec.waiting ≤ 1 := by
  unfold Spec.waiting
  split <;> decide

variable {fmt : List UInt8}

theorem length_pos_of_charAt (h : charAt fmt 0 ≠ 0) : 0 < fmt.length := by
  cases fmt with
  | nil => exact absurd rfl h
  | cons c fmt => exact Nat.succ_pos _

theorem skipAtoi_length (i : BitVec 32) (fmt : List UInt8) : (skipAtoi i fmt).2.length ≤ fmt.length := by
  induction fmt generalizing i with
  | nil => exact le_rfl
  | cons c fmt ih =>
    rw [skipAtoi]
    split
    · exact (ih _).trans (Nat.le_succ _)
    · exact le_rfl

theorem decodeFlags_length (flags : UInt8) (fmt : List UInt8) : (decodeFlags flags fmt).2.length ≤ fmt.length := by
  induction fmt generalizing flags with
  | nil => exact le_rfl
  | cons c fmt ih =>
    rw [decodeFlags]
    split
    · exact (ih _).trans (Nat.le_succ _)
    · exact le_rfl

theorem integerType_ne (qualifier : UInt8) (signed : Bool) :
    ¬(integerType qualifier signed = .width ∨ integerType qualifier signed = .precision) := by
  unfold integerType
  split_ifs <;> decide

/-- A conversion that asks for no further argument. -/
def Conversion.Ready : Conversion → Prop
  | .token type _ => ¬(type = .width ∨ type = .precision)
  | .integer _ _ => True

theorem conversionOf_ready (c : UInt8) : (conversionOf c).Ready := by
  have token (type : FormatType) (taken : Bool) (h : ¬(type = .width ∨ type = .precision)) :
      Conversion.Ready (.token type taken) := h
  repeat' apply iteInduction <;> intro _
  all_goals first
    | exact trivial
    | exact token _ _ (by decide)

theorem decodeConversion_length (fmt : List UInt8) (spec : Spec) :
    2 * (decodeConversion fmt spec).2.length + (decodeConversion fmt spec).1.waiting ≤ 2 * fmt.length := by
  unfold decodeConversion
  split
  · next type taken eq =>
      have ready := conversionOf_ready (charAt fmt 0)
      rw [eq] at ready
      have idle : Spec.waiting { spec with base := 10, type } = 0 := if_neg ready
      rw [idle]
      split <;> simp
  · simp [Spec.waiting, integerType_ne]

theorem decodeQualifier_length (fmt : List UInt8) (spec : Spec) :
    2 * (decodeQualifier fmt spec).2.length + (decodeQualifier fmt spec).1.waiting ≤ 2 * fmt.length := by
  have tail : fmt.tail.length ≤ fmt.length := by simp
  have drop : (fmt.drop 2).length ≤ fmt.length := by simp
  unfold decodeQualifier
  dsimp only
  split_ifs
  all_goals
    apply (decodeConversion_length _ _).trans
    omega

theorem decodePrecision_length (fmt : List UInt8) (spec : Spec) :
    2 * (decodePrecision fmt spec).2.length + (decodePrecision fmt spec).1.waiting ≤ 2 * fmt.length := by
  have tail : fmt.tail.length = fmt.length - 1 := length_tail
  unfold decodePrecision
  dsimp only
  split_ifs with dot number star
  · apply (decodeQualifier_length _ _).trans
    have := skipAtoi_length 0 fmt.tail
    omega
  · have pos : 0 < fmt.length := length_pos_of_charAt (by rw [dot]; decide)
    have one := waiting_le { spec with precision := -1, type := .precision }
    rw [length_tail]
    dsimp only
    omega
  · apply (decodeQualifier_length _ _).trans
    omega
  · exact decodeQualifier_length _ _

theorem decodeWidth_length (fmt : List UInt8) (spec : Spec) :
    2 * (decodeWidth fmt spec).2.length + (decodeWidth fmt spec).1.waiting ≤ 2 * fmt.length := by
  unfold decodeWidth
  split_ifs with number star
  · apply (decodePrecision_length _ _).trans
    have := skipAtoi_length 0 fmt
    omega
  · have pos : 0 < fmt.length := length_pos_of_charAt (by rw [star]; decide)
    have one := waiting_le { spec with fieldWidth := -1, type := .width }
    rw [length_tail]
    dsimp only
    omega
  · exact decodePrecision_length _ _

/-- A token takes a character, or it takes the argument that the last one asked for. -/
theorem formatDecode_length (h : charAt fmt 0 ≠ 0) (spec : Spec) :
    2 * (formatDecode fmt spec).2.length + (formatDecode fmt spec).1.waiting < 2 * fmt.length + spec.waiting := by
  have pos := length_pos_of_charAt h
  unfold formatDecode
  split_ifs with width neg precision lit
  · have one : spec.waiting = 1 := if_pos (.inl width)
    rw [one]
    exact Nat.lt_succ_of_le (decodePrecision_length _ _)
  · have one : spec.waiting = 1 := if_pos (.inl width)
    rw [one]
    exact Nat.lt_succ_of_le (decodePrecision_length _ _)
  · have one : spec.waiting = 1 := if_pos (.inr precision)
    rw [one]
    exact Nat.lt_succ_of_le (decodeQualifier_length _ _)
  · have some : 0 < (literal fmt).length := length_pos_iff.mpr (lit.resolve_right h)
    simp only [Spec.waiting]
    simp
    omega
  · have le := decodeFlags_length 0 fmt.tail
    rw [length_tail] at le
    have := decodeWidth_length (decodeFlags 0 fmt.tail).2
      { spec with type := .none, flags := (decodeFlags 0 fmt.tail).1 }
    dsimp only
    omega

/-- What is still to be read, which every round lowers. -/
def Print.left {α σ : Type} (p : Print α σ) : ℕ := 2 * p.fmt.length + p.spec.waiting

section

variable {α σ τ : Type} (m : Machine) (src : Source α) (sink : Sink UInt8 σ)

theorem printToken_left (old : List UInt8) (p : Print α σ) : (printToken m src sink old p).left ≤ p.left := by
  have skip : (p.fmt.dropWhile isalnum).length ≤ p.fmt.length := (dropWhile_suffix _).length_le
  unfold printToken Print.left
  split
  all_goals dsimp only [Spec.waiting]
  all_goals omega

theorem printRound_left {p p' : Print α σ} (h : printRound m src sink p = .inl p') : p'.left < p.left := by
  unfold printRound at h
  split at h
  · cases h
  · next more =>
      obtain rfl := Sum.inl.inj h
      exact (printToken_left m src sink _ _).trans_lt (formatDecode_length more p.spec)

theorem print_ends (fmt : List UInt8) (args : α) (out : σ) : ∃ r, print m src sink fmt args out = some r := by
  have enough : ({ fmt, args, out } : Print α σ).left < rounds fmt := by
    have := waiting_le {}
    unfold rounds Print.left
    dsimp only
    omega
  have keep : ∀ (n : ℕ) (p : Print α σ), p.left = n →
      (∃ j p', printRound m src sink p = .inl p' ∧ j < n ∧ p'.left = j) ∨
        ∃ r, printRound m src sink p = .inr r ∧ True := by
    intro n p eq
    cases turn : printRound m src sink p with
    | inl p' => exact .inl ⟨p'.left, p', rfl, eq ▸ printRound_left m src sink turn, rfl⟩
    | inr r => exact .inr ⟨r, rfl, trivial⟩
  obtain ⟨r, run, -⟩ := Loop.run_total (printRound m src sink) (fun n p => p.left = n) _ keep rfl enough
  exact ⟨r, run⟩

end

section

variable {α σ τ : Type} {R : σ → τ → Prop} {a : Sink UInt8 σ} {b : Sink UInt8 τ}

/-- Two loops at the same place of the format, with related outputs. -/
structure Alike (R : σ → τ → Prop) (p : Print α σ) (q : Print α τ) : Prop where
  fmt : p.fmt = q.fmt
  spec : p.spec = q.spec
  args : p.args = q.args
  stored : p.stored = q.stored
  out : R p.out q.out

theorem printToken_related (related : Emit.Related R a b) (m : Machine) (src : Source α) (old : List UInt8)
    {p : Print α σ} {q : Print α τ} (h : Alike R p q) :
    Alike R (printToken m src a old p) (printToken m src b old q) := by
  obtain ⟨fmt', spec', args', out', stored'⟩ := q
  obtain ⟨rfl, rfl, rfl, rfl, rel⟩ := h
  unfold printToken
  dsimp only at rel ⊢
  split
  all_goals refine ⟨rfl, rfl, rfl, rfl, ?_⟩
  all_goals first
    | exact rel
    | exact related.put _ _ _ rel
    | exact related.copy _ _ _ rel
    | exact related.pad _ _ (related.put _ _ _ (related.pad _ _ rel))
    | exact string_related related _ _ _ rel
    | exact pointer_related related _ _ _ _ rel
    | exact number_related related _ _ rel

theorem print_related (related : Emit.Related R a b) (m : Machine) (src : Source α) (fmt : List UInt8) (args : α)
    {s : σ} {t : τ} (h : R s t) :
    Option.Rel (fun r r' => R r.1 r'.1 ∧ r.2 = r'.2) (print m src a fmt args s) (print m src b fmt args t) := by
  apply Loop.run_related (Alike R)
  · intro p q alike
    unfold printRound
    rw [← alike.fmt, ← alike.spec]
    split
    · exact .inr ⟨_, _, rfl, rfl, alike.out, alike.stored⟩
    · exact .inl ⟨_, _, rfl, rfl, printToken_related related m src _
        ⟨rfl, rfl, alike.args, alike.stored, alike.out⟩⟩
  · exact ⟨rfl, rfl, rfl, rfl, h⟩

end

/-- Two specs that differ at most in what the arguments set. -/
structure Agree (s t : Spec) : Prop where
  type : s.type = t.type
  flags : s.flags ||| Flag.left = t.flags ||| Flag.left
  base : s.base = t.base
  qualifier : s.qualifier = t.qualifier

theorem or_left_sign (flags : UInt8) : (flags ||| Flag.left) &&& Flag.sign = flags &&& Flag.sign := by
  apply UInt8.eq_of_toBitVec_eq
  rw [UInt8.toBitVec_and, UInt8.toBitVec_or, BitVec.and_or_distrib_right]
  exact BitVec.or_zero

theorem or_left_left (flags : UInt8) : flags ||| Flag.left ||| Flag.left = flags ||| Flag.left := by
  rw [UInt8.or_assoc, UInt8.or_self]

theorem or_left_comm (flags flag : UInt8) : flags ||| flag ||| Flag.left = flags ||| Flag.left ||| flag := by
  rw [UInt8.or_assoc, UInt8.or_comm flag, ← UInt8.or_assoc]

/-- Two results of decoding with the same conversion and the same rest of the format. -/
def Similar (x y : Spec × List UInt8) : Prop := Agree x.1 y.1 ∧ x.2 = y.2

section

variable {s t : Spec} (h : Agree s t) (fmt : List UInt8)

include h

theorem has_sign_of_agree : s.has Flag.sign = t.has Flag.sign := by
  rw [Spec.has, Spec.has, ← or_left_sign, h.flags, or_left_sign]

theorem decodeConversion_similar : Similar (decodeConversion fmt s) (decodeConversion fmt t) := by
  unfold decodeConversion
  split
  · exact ⟨⟨rfl, h.flags, rfl, h.qualifier⟩, rfl⟩
  next base flag _ =>
    have agree : Agree { s with base, flags := s.flags ||| flag } { t with base, flags := t.flags ||| flag } :=
      ⟨h.type, by simp only [or_left_comm, h.flags], rfl, h.qualifier⟩
    have sign := has_sign_of_agree agree
    exact ⟨⟨congrArg₂ integerType h.qualifier sign, agree.flags, rfl, h.qualifier⟩, rfl⟩

theorem decodeQualifier_similar : Similar (decodeQualifier fmt s) (decodeQualifier fmt t) := by
  unfold decodeQualifier
  dsimp only
  repeat' split
  all_goals
    apply decodeConversion_similar
    exact ⟨h.type, h.flags, h.base, rfl⟩

theorem decodePrecision_similar : Similar (decodePrecision fmt s) (decodePrecision fmt t) := by
  have agree (x y : ℤ) : Agree { s with precision := x } { t with precision := y } :=
    ⟨h.type, h.flags, h.base, h.qualifier⟩
  unfold decodePrecision
  dsimp only
  split
  · split
    · exact decodeQualifier_similar (agree _ _) _
    · split
      · exact ⟨⟨rfl, h.flags, h.base, h.qualifier⟩, rfl⟩
      · exact decodeQualifier_similar (agree _ _) _
  · exact decodeQualifier_similar (agree _ _) _

theorem decodeWidth_similar : Similar (decodeWidth fmt s) (decodeWidth fmt t) := by
  have agree (x y : ℤ) : Agree { s with fieldWidth := x } { t with fieldWidth := y } :=
    ⟨h.type, h.flags, h.base, h.qualifier⟩
  unfold decodeWidth
  split
  · exact decodePrecision_similar (agree _ _) _
  · split
    · exact ⟨⟨rfl, h.flags, h.base, h.qualifier⟩, rfl⟩
    · exact decodePrecision_similar (agree _ _) _

theorem formatDecode_similar : Similar (formatDecode fmt s) (formatDecode fmt t) := by
  unfold formatDecode
  rw [← h.type]
  split
  · split <;> split
    all_goals
      apply decodePrecision_similar
      exact ⟨rfl, by simp only [or_left_left, h.flags], h.base, h.qualifier⟩
  split
  · apply decodeQualifier_similar
    exact ⟨rfl, h.flags, h.base, h.qualifier⟩
  · split
    · exact ⟨⟨rfl, h.flags, h.base, h.qualifier⟩, rfl⟩
    · apply decodeWidth_similar
      exact ⟨rfl, rfl, h.base, h.qualifier⟩

end

/-- A place in the format, with the conversions before it. -/
structure Scan where
  fmt : List UInt8
  spec : Spec := {}
  seen : List FormatType := []

/-- Where the format goes on after a token. -/
def after (spec : Spec) (fmt : List UInt8) : List UInt8 := if spec.type = .ptr then fmt.dropWhile isalnum else fmt

def scanRound (s : Scan) : Scan ⊕ List FormatType :=
  if charAt s.fmt 0 = 0 then .inr s.seen
  else
    let (spec, fmt) := formatDecode s.fmt s.spec
    .inl { fmt := after spec fmt, spec, seen := spec.type :: s.seen }

def conversions (fmt : List UInt8) : Option (List FormatType) := Loop.run scanRound (rounds fmt) { fmt }

section

variable {α σ : Type} (m : Machine) (src : Source α) (sink : Sink UInt8 σ)

theorem printToken_fmt (old : List UInt8) (p : Print α σ) :
    (printToken m src sink old p).fmt = after p.spec p.fmt := by
  unfold printToken after
  split <;> simp_all

theorem printToken_agree (old : List UInt8) {p : Print α σ} {s : Spec} (h : Agree p.spec s) :
    Agree (printToken m src sink old p).spec s := by
  obtain ⟨type, flags, base, qualifier⟩ := h
  unfold printToken
  split
  all_goals exact ⟨type, flags, base, qualifier⟩

theorem printToken_stored (old : List UInt8) {p : Print α σ} (h : p.spec.type ≠ .nrchars) :
    (printToken m src sink old p).stored = p.stored := by
  unfold printToken
  split
  all_goals first
    | rfl
    | contradiction

/-- Only a `%n` of the format writes through its argument. -/
theorem print_stored (fmt : List UInt8) (args : α) (out : σ) :
    Option.Rel (fun r types => r.2 ≠ [] → .nrchars ∈ types) (print m src sink fmt args out) (conversions fmt) := by
  apply Loop.run_related fun (p : Print α σ) (s : Scan) =>
    p.fmt = s.fmt ∧ Agree p.spec s.spec ∧ (p.stored ≠ [] → .nrchars ∈ s.seen)
  · rintro p s ⟨fmt, agree, stored⟩
    obtain ⟨agree', rest⟩ := formatDecode_similar agree p.fmt
    unfold printRound scanRound
    rw [← fmt]
    generalize formatDecode p.fmt p.spec = x at agree' rest ⊢
    generalize formatDecode p.fmt s.spec = y at agree' rest ⊢
    split
    · exact .inr ⟨_, _, rfl, rfl, stored⟩
    refine .inl ⟨_, _, rfl, rfl, ?_, printToken_agree m src sink _ agree', ?_⟩
    · rw [printToken_fmt, ← rest]
      unfold after
      rw [agree'.type]
    · intro some
      by_cases nrchars : x.1.type = .nrchars
      · rw [← agree'.type, nrchars]
        exact mem_cons_self
      · rw [printToken_stored m src sink _ nrchars] at some
        exact mem_cons_of_mem _ (stored some)
  · exact ⟨rfl, ⟨rfl, rfl, rfl, rfl⟩, fun some => absurd rfl some⟩

end

def fullOutput (m : Machine) (fmt : List UInt8) (args : ℕ → BitVec 64) : Option (List UInt8) :=
  (print m (vaList m args) Emit.whole fmt 0 []).map Prod.fst

def INT_MAX : ℕ := 2 ^ 31 - 1

theorem toInt_of_lt {n : ℕ} (h : n < 2 ^ 31) : toInt n = n := by
  apply Int.bmod_eq_of_le
  all_goals omega

variable {out : List UInt8} {k : Cursor UInt8} {mem : ℕ → UInt8} {size : ℕ}

theorem terminate_eq (h : Emit.Shows mem size k out) (pos : 0 < size) :
    terminate size k = update k.mem (min (size - 1) out.length) 0 := by
  have place : (if k.pos < size then k.pos else size - 1) = min (size - 1) out.length := by
    rw [h.pos]
    split <;> omega
  rw [terminate, if_pos pos, place]

theorem map_range_shows {size n : ℕ}
    (h : Emit.Shows mem size k out) (fits : n ≤ size) (le : n ≤ out.length) :
      (List.range n).map k.mem = out.take n := by
  apply ext_getElem
  · simp [le]
  · intro i less less'
    have inside : i < n := by simpa using less
    have here : i < out.length := inside.trans_le le
    rw [getElem_map, getElem_range, getElem_take, h.mem, if_pos (inside.trans_le fits),
      getD_eq_getElem _ _ here]

theorem terminate_shows (h : Emit.Shows mem size k out) (pos : 0 < size) :
    (List.range (min (size - 1) out.length + 1)).map (terminate size k) = out.take (size - 1) ++ [0] := by
  rw [terminate_eq h pos, range_succ, map_append, map_singleton, update_self]
  congr 1
  have same : ∀ i ∈ List.range (min (size - 1) out.length),
      update k.mem (min (size - 1) out.length) 0 i = k.mem i := by
    intro i mem
    exact update_of_ne (Nat.ne_of_lt (mem_range.mp mem)) _ _
  rw [map_congr_left same, map_range_shows h (by omega) (Nat.min_le_right _ _)]
  exact (take_eq_take_min).symm

theorem terminate_outside
    (h : Emit.Shows mem size k out) {i : ℕ} (outside : size ≤ i) : terminate size k i = mem i := by
  have keep : k.mem i = mem i := by rw [h.mem, if_neg (by omega)]
  unfold terminate
  split
  · rw [update_of_ne, keep]
    split <;> omega
  · exact keep

theorem print_shows {α : Type} (m : Machine) (src : Source α) (fmt : List UInt8) (args : α)
    {stored : List ℕ} (full : print m src Emit.whole fmt args [] = some (out, stored)) (mem : ℕ → UInt8) (size : ℕ) :
    ∃ k, print m src (Emit.bounded size) fmt args ⟨mem, 0⟩ = some (k, stored) ∧ Emit.Shows mem size k out := by
  have both := print_related (Emit.bounded_whole mem size) m src fmt args
    (show Emit.Shows mem size ⟨mem, 0⟩ [] from ⟨rfl, fun i => by simp⟩)
  obtain ⟨⟨k, stored'⟩, run⟩ := print_ends m src (Emit.bounded size) fmt args ⟨mem, 0⟩
  rw [run, full] at both
  cases both with
  | some h =>
    obtain ⟨shows, rfl⟩ := h
    exact ⟨k, run, shows⟩

theorem stored_eq_nil {α σ : Type} {m : Machine} {src : Source α} {sink : Sink UInt8 σ} {args : α}
    {out : σ} {r : σ × List ℕ} (plain : ∀ types, conversions fmt = some types → .nrchars ∉ types)
    (run : print m src sink fmt args out = some r) : r.2 = [] := by
  have scan := print_stored m src sink fmt args out
  rw [run] at scan
  cases types : conversions fmt with
  | none =>
    rw [types] at scan
    cases scan
  | some types' =>
    rw [types] at scan
    cases scan with
    | some h => exact not_not.mp fun some => plain _ types (h some)

theorem toInt_nonneg (h : size ≤ INT_MAX) : ¬toInt size < 0 := by
  have lt : size < 2 ^ 31 := Nat.lt_of_le_of_lt h (by decide)
  rw [toInt_of_lt lt]
  omega

/-- The output of a format without `%n` does not depend on the size of the buffer, which gets the start of it and a
NUL. -/
theorem vsnprintf_truncates (m : Machine) (fmt : List UInt8) (args : ℕ → BitVec 64)
    (plain : ∀ types, conversions fmt = some types → .nrchars ∉ types) : ∃ out, fullOutput m fmt args = some out ∧
      (out.length < 2 ^ 31 → ∀ (mem : ℕ → UInt8) (size : ℕ), size ≤ INT_MAX →
        ∃ r, vsnprintf m mem size fmt args = some r ∧ r.value = out.length ∧ r.stored = [] ∧
          (∀ i, size ≤ i → r.mem i = mem i) ∧ (0 < size →
            (List.range (min (size - 1) out.length + 1)).map r.mem = out.take (size - 1) ++ [0])) := by
  obtain ⟨⟨out, stored⟩, full⟩ := print_ends m (vaList m args) Emit.whole fmt 0 []
  refine ⟨out, by rw [fullOutput, full]; rfl, fun short mem size le => ?_⟩
  obtain ⟨k, run, shows⟩ := print_shows m (vaList m args) fmt 0 full mem size
  refine ⟨⟨toInt k.pos, terminate size k, stored⟩, ?_, ?_, stored_eq_nil plain full, ?_, terminate_shows shows⟩
  · rw [vsnprintf, printInto, if_neg (toInt_nonneg le), run]
    rfl
  · dsimp only
    rw [shows.pos, toInt_of_lt short]
  · exact fun i outside => terminate_outside shows outside

def bareMachine (bits : ℕ) (word : bits = 32 ∨ bits = 64) : Machine where
  bits := bits
  word := word
  bigEndian := false
  pageSize := 4096
  byte _ := 0
  string _ := []
  string_nonzero _ := not_mem_nil
  resource _ := ⟨0, 0, 0⟩
  kallsyms := false
  sprintSymbol _ := []
  kallsymsLookup _ := []
  dereferenceFunctionDescriptor ptr := ptr

/-- `snprintf(buf, 5, "%5d|", 42)` -/
theorem vsnprintf_truncates_width :
    ∃ r, vsnprintf (bareMachine 64 (.inr rfl)) (fun _ => 255) 5 (text "%5d|") (fun _ => 42) = some r ∧ r.value = 6 ∧
      (List.range 6).map r.mem = text "   4" ++ [0, 255] := by
  have plain : ∀ types, conversions (text "%5d|") = some types → .nrchars ∉ types := by
    intro types h
    obtain rfl := Option.some.inj ((show conversions (text "%5d|") = some [.none, .int] by decide).symm.trans h)
    decide
  have full : fullOutput (bareMachine 64 (.inr rfl)) (text "%5d|") (fun _ => 42) = some (text "   42|") := by decide
  obtain ⟨out, full', law⟩ := vsnprintf_truncates (bareMachine 64 (.inr rfl)) (text "%5d|") (fun _ => 42) plain
  obtain rfl := Option.some.inj (full.symm.trans full')
  obtain ⟨r, run, value, -, outside, inside⟩ := law (by decide) (fun _ => 255) 5 (by decide)
  refine ⟨r, run, value, ?_⟩
  rw [range_succ, map_append, show List.map r.mem (List.range 5) = text "   4" ++ [0] from inside (by decide)]
  simp [outside 5 le_rfl]

end Vsprintf
