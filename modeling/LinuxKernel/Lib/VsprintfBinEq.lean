/- What bstr_printf() makes of a buffer that vbin_printf() packed, against vsnprintf() of the arguments. -/
import LinuxKernel.Lib.VsprintfBin

namespace Vsprintf

open List Machine BitVec

open Emit (Sink Cursor)
open Lanes (ofBytes)

theorem le_align {a : ℕ} (pos : 0 < a) (n : ℕ) : n ≤ align a n := by
  have split := Nat.div_add_mod (n + a - 1) a
  have rest := Nat.mod_lt (n + a - 1) pos
  rw [Nat.mul_comm] at split
  unfold align
  omega

theorem argSize_pos (m : Machine) (type : FormatType) : 0 < m.argSize type := by
  have word : 0 < m.bits / 8 := by
    rcases m.word with eq | eq <;> rw [eq] <;> decide
  unfold argSize
  split
  all_goals first
    | exact word
    | decide

variable {n : ℕ}

theorem le_place (pos : 0 < n) (k : ℕ) : k ≤ place n k := by
  apply le_align
  split
  · decide
  · exact pos

structure Extends (p p' : Pack) : Prop where
  str : p.str ≤ p'.str
  mem : ∀ i < p.str, p'.mem i = p.mem i
  packed : ∀ item ∈ p.packed, item ∈ p'.packed

theorem Extends.refl (p : Pack) : Extends p p := ⟨le_rfl, fun _ _ => rfl, fun _ h => h⟩

theorem Extends.trans {p q r : Pack} (h : Extends p q) (h' : Extends q r) : Extends p r where
  str := h.str.trans h'.str
  mem i less := (h'.mem i (less.trans_le h.str)).trans (h.mem i less)
  packed item mem := h'.packed item (h.packed item mem)

variable {i : ℕ}

theorem write_below {mem : ℕ → UInt8} {pos : ℕ} {bytes : List UInt8} (h : i < pos) :
    Emit.write mem pos bytes i = mem i := if_neg (Nat.not_le.mpr h)

theorem write_at {mem : ℕ → UInt8} {pos : ℕ} {bytes : List UInt8} (h : i < bytes.length) :
    Emit.write mem pos bytes (pos + i) = bytes.get ⟨i, h⟩ := by
  rw [Emit.write, if_pos (Nat.le_add_right pos i), Nat.add_sub_cancel_left, getD_eq_getElem _ _ h]
  rfl

section

variable (m : Machine) (limit : ℕ) (args : ℕ → BitVec 64)

theorem saveArg_extends (p : Pack) : Extends p (saveArg m limit args p) := by
  have le := le_place (argSize_pos m p.spec.type) p.str
  refine ⟨le.trans (Nat.le_add_right _ _), fun i less => ?_, fun item h => mem_cons_of_mem _ h⟩
  unfold saveArg
  dsimp only
  split
  · exact write_below (less.trans_le le)
  · rfl

theorem saveString_extends (p : Pack) : Extends p (saveString m limit args p) := by
  refine ⟨Nat.le_add_right _ _, fun i less => ?_, fun item h => mem_cons_of_mem _ h⟩
  unfold saveString
  dsimp only
  split
  · exact write_below less
  · rfl

theorem packToken_extends (p : Pack) : Extends p (packToken m limit args p) := by
  have saved := saveArg_extends m limit args p
  unfold packToken
  split
  all_goals first
    | exact .refl p
    | exact saveString_extends m limit args p
    | exact saved
    | exact ⟨saved.str, saved.mem, saved.packed⟩
    | exact ⟨le_rfl, fun _ _ => rfl, fun _ h => h⟩

theorem packRun_extends {p r : Pack} (run : Loop.run (packRound m limit args) n p = some r) : Extends p r := by
  refine Loop.run_post (Extends p) (Extends p) (fun s h => ?_) (.refl p) run
  unfold packRound
  split
  · exact h
  · have next := packToken_extends m limit args
      { s with spec := (formatDecode s.fmt s.spec).1, fmt := (formatDecode s.fmt s.spec).2 }
    exact h.trans ⟨next.str, next.mem, next.packed⟩

end

theorem lane_lt (m : Machine) (h : i < n) : m.lane n i < n := by
  unfold lane
  split <;> omega

theorem lane_lane (m : Machine) (h : i < n) : m.lane n (m.lane n i) = i := by
  unfold lane
  split <;> omega

theorem bytes_get (m : Machine) (value : BitVec 64) (h : i < n) (h' : m.lane n i < (m.bytes n value).length) :
    ((m.bytes n value).get ⟨m.lane n i, h'⟩).toBitVec = Lanes.byte value i := by
  simp [bytes, lane_lane m h]

section

variable {m : Machine} {limit : ℕ} {args : ℕ → BitVec 64} {p : Pack} {bin : ℕ → UInt8}

def Keeps (bin : ℕ → UInt8) (p : Pack) : Prop := ∀ i < p.str, bin i = p.mem i

theorem load_saved (keeps : Keeps bin (saveArg m limit args p)) (fits : (saveArg m limit args p).str ≤ limit) :
    m.load bin (m.argSize p.spec.type) p.str = ((args p.args).setWidth (8 * m.argSize p.spec.type)).setWidth 64 := by
  rw [load, ← Lanes.ofBytes_byte]
  congr 1
  apply Lanes.ofBytes_congr
  intro j less
  have inside := lane_lt m less
  have here : m.lane (m.argSize p.spec.type) j < (m.bytes (m.argSize p.spec.type) (args p.args)).length := by
    simpa [bytes] using inside
  rw [keeps _ (Nat.add_lt_add_left inside _), show (saveArg m limit args p).mem = _ from if_pos fits, write_at here,
    bytes_get m _ less]

theorem stringFrom_eq {s : List UInt8} (nonzero : 0 ∉ s) {bound pos : ℕ} (le : s.length < bound)
    (chars : ∀ (i : ℕ) (h : i < s.length), bin (pos + i) = s.get ⟨i, h⟩) (stop : bin (pos + s.length) = 0) :
    stringFrom bin bound pos = s := by
  induction s generalizing bound pos with
  | nil =>
    cases bound with
    | zero => cases le
    | succ bound => exact if_pos stop
  | cons c s ih =>
    cases bound with
    | zero => cases le
    | succ bound =>
      have first : bin pos = c := chars 0 (Nat.succ_pos _)
      have some : ¬bin pos = 0 := fun zero => nonzero (by rw [← first, zero]; exact mem_cons_self)
      have rest : stringFrom bin bound (pos + 1) = s := by
        apply ih (fun mem => nonzero (mem_cons_of_mem _ mem)) (Nat.lt_of_succ_lt_succ le)
        · intro i less
          have next := chars (i + 1) (Nat.succ_lt_succ less)
          rw [Nat.add_right_comm]
          exact next
        · rw [Nat.add_right_comm]
          exact stop
      rw [stringFrom, if_neg some, rest, first]

theorem savedString_nonzero (m : Machine) (ptr : ℕ) : 0 ∉ m.savedString ptr := by
  unfold savedString
  split
  · decide
  · exact m.string_nonzero ptr

theorem string_saved (keeps : Keeps bin (saveString m limit args p)) (fits : (saveString m limit args p).str < limit)
    (short : (saveString m limit args p).str < 2 ^ 64) :
    stringFrom bin (2 ^ 64) p.str = m.savedString (m.ulong (args p.args)) := by
  have length : (m.savedString (m.ulong (args p.args)) ++ [0]).length =
      (m.savedString (m.ulong (args p.args))).length + 1 := length_append
  have stop : (saveString m limit args p).str = p.str + (m.savedString (m.ulong (args p.args)) ++ [0]).length := rfl
  have stored (i : ℕ) (h : i < (m.savedString (m.ulong (args p.args)) ++ [0]).length) :
      bin (p.str + i) = (m.savedString (m.ulong (args p.args)) ++ [0]).get ⟨i, h⟩ := by
    rw [keeps _ (Nat.add_lt_add_left h _), show (saveString m limit args p).mem = _ from if_pos fits, write_at h]
  apply stringFrom_eq (savedString_nonzero m _)
  · omega
  · intro i less
    rw [stored i (by omega)]
    exact getElem_append_left less
  · rw [stored _ (by omega)]
    exact getElem_concat_length rfl _

end

theorem eight_mul_word (m : Machine) : 8 * (m.bits / 8) = m.bits := by
  rcases m.word with eq | eq
  all_goals rw [eq]

theorem word_le (m : Machine) : m.bits ≤ 64 := by
  rcases m.word with eq | eq
  · rw [eq]
    decide
  · rw [eq]

theorem setWidth_back {k : ℕ} (le : k ≤ 64) (arg : BitVec 64) :
    ((arg.setWidth k).setWidth 64).setWidth k = arg.setWidth k := by
  rw [setWidth_setWidth_of_le _ le, setWidth_eq]

/-- The conversions that number() prints. -/
def FormatType.integer : FormatType → Bool
  | .longLong | .ulong | .long | .ubyte | .byte | .ushort | .short | .uint | .int | .sizeT | .ptrdiff => true
  | _ => false

/-- A long that is an unsigned long as well. -/
def Machine.nonneg (m : Machine) (arg : BitVec 64) : Prop := m.bits = 64 ∨ 0 ≤ (arg.setWidth m.bits).toInt

theorem setWidth_long {m : Machine} {arg : BitVec 64} (h : m.nonneg arg) :
    (arg.setWidth m.bits).setWidth 64 = (arg.setWidth m.bits).signExtend 64 := by
  rcases h with eq | nonneg
  · rw [eq, signExtend_eq, setWidth_eq]
  · rw [signExtend_eq_setWidth_of_msb_false]
    rw [msb_eq_toInt, decide_eq_false (not_lt.mpr nonneg)]

theorem binNum_saved (m : Machine) {type : FormatType} {arg : BitVec 64} (integer : type.integer = true)
    (signed : type = .long → m.nonneg arg) :
    binNum m type ((arg.setWidth (8 * m.argSize type)).setWidth 64) = vaNum m type arg := by
  have word := eight_mul_word m
  cases type
  case long =>
      rw [argSize, word]
      exact setWidth_long (signed rfl)
  case ptrdiff => rw [binNum, vaNum, argSize, word, setWidth_back (word_le m)]
  case ulong | sizeT => rw [binNum, vaNum, argSize, word]
  case byte => exact congrArg (signExtend 64) (setWidth_back (by decide) arg)
  case short => exact congrArg (signExtend 64) (setWidth_back (by decide) arg)
  case int => exact congrArg (signExtend 64) (setWidth_back (by decide) arg)
  case longLong => exact (setWidth_eq _).trans (setWidth_eq _)
  case ubyte | ushort | uint => rfl
  all_goals cases integer

/-- A pointer that no macro takes for an error or for NULL. -/
def Machine.ordinary (m : Machine) (ptr : ℕ) : Prop := m.pageSize ≤ ptr ∧ ptr ≤ 2 ^ m.bits - m.pageSize

instance (m : Machine) (ptr : ℕ) : Decidable (m.ordinary ptr) := inferInstanceAs (Decidable (_ ∧ _))

/-- What a packed argument has to be for the two readings to agree: a string is in the buffer, and a long is not
negative where it is read as unsigned. -/
structure Packed.Sound (m : Machine) (limit : ℕ) (item : Packed) : Prop where
  string : item.type = .str → m.ordinary (m.ulong item.arg) ∧ item.stop ≠ limit
  long : item.type = .long → m.nonneg item.arg

section

variable {σ : Type} {m : Machine} {limit : ℕ} {args : ℕ → BitVec 64} {bin : ℕ → UInt8} {sink : Sink UInt8 σ}

structure Match (P : Pack) (p q : Print ℕ σ) : Prop where
  fmt : p.fmt = P.fmt
  fmt' : q.fmt = p.fmt
  agree : Agree p.spec P.spec
  spec : q.spec = p.spec
  args : p.args = P.args
  str : q.args = P.str
  out : q.out = p.out

structure Good (m : Machine) (limit : ℕ) (bin : ℕ → UInt8) (P : Pack) : Prop where
  keeps : Keeps bin P
  fits : P.str ≤ limit
  short : P.str < 2 ^ 64
  sound : ∀ item ∈ P.packed, item.Sound m limit

variable {P : Pack}

section

variable (good : Good m limit bin (saveArg m limit args P))
include good

theorem match_int (four : m.argSize P.spec.type = 4) :
    (binArgs m bin).int P.str = (((vaList m args).int P.args).1, (saveArg m limit args P).str) := by
  have load := load_saved good.keeps good.fits
  rw [four] at load
  simp only [binArgs, vaList, saveArg, four, load]
  rw [setWidth_back (by decide)]

theorem match_num (integer : P.spec.type.integer = true) : (binArgs m bin).num P.spec.type P.str =
      (((vaList m args).num P.spec.type P.args).1, (saveArg m limit args P).str) := by
  have sound := good.sound _ mem_cons_self
  simp only [binArgs, vaList, saveArg, load_saved good.keeps good.fits]
  rw [binNum_saved m integer sound.long]

theorem match_char (one : m.argSize P.spec.type = 1) :
    (binArgs m bin).char P.str = (((vaList m args).char P.args).1, (saveArg m limit args P).str) := by
  have load := load_saved good.keeps good.fits
  rw [one] at load
  simp only [binArgs, vaList, saveArg, one, load]
  rw [setWidth_back (by decide)]

theorem match_ptr (ptr : P.spec.type = .ptr) :
    (binArgs m bin).ptr P.str = (((vaList m args).ptr P.args).1, (saveArg m limit args P).str) := by
  have load := load_saved good.keeps good.fits
  have small : (args P.args).toNat % 2 ^ m.bits < 2 ^ 64 :=
    (Nat.mod_lt _ (Nat.two_pow_pos _)).trans_le (Nat.pow_le_pow_right (by decide) (word_le m))
  rw [ptr] at load
  simp only [binArgs, saveArg, ptr, load]
  rw [argSize, eight_mul_word, toNat_setWidth, toNat_setWidth, Nat.mod_eq_of_lt small]
  rfl

end

theorem match_str (good : Good m limit bin (saveString m limit args P)) :
    (binArgs m bin).str P.str = (((vaList m args).str P.args).1, (saveString m limit args P).str) := by
  obtain ⟨valid, clear⟩ := (good.sound _ mem_cons_self).string rfl
  have saved := string_saved good.keeps (lt_of_le_of_ne good.fits clear) good.short
  have same : m.savedString (m.ulong (args P.args)) = m.stringAt (m.ulong (args P.args)) := by
    rw [savedString, stringAt, if_neg (not_or.mpr ⟨not_lt.mpr valid.2, not_lt.mpr valid.1⟩),
      if_neg (not_lt.mpr valid.1)]
  simp only [binArgs, saveString, saved, same, length_append]
  rfl

variable {p q : Print ℕ σ}

theorem packToken_match (old : List UInt8) (h : Match P p q) (good : Good m limit bin (packToken m limit args P)) :
    Match (packToken m limit args P) (printToken m (vaList m args) sink old p)
      (printToken m (binArgs m bin) sink old q) := by
  obtain ⟨fmt, spec, n, out, stored⟩ := p
  obtain ⟨fmt', spec', pos, out', stored'⟩ := q
  obtain ⟨eq₁, eq₂, agree, eq₃, eq₄, eq₅, eq₆⟩ := h
  dsimp only at eq₁ eq₂ agree eq₃ eq₄ eq₅ eq₆
  subst eq₁ eq₂ eq₃ eq₄ eq₅ eq₆
  unfold packToken at good ⊢
  unfold printToken
  dsimp only
  rw [agree.type]
  cases eq : P.spec.type
  all_goals simp only [eq] at good ⊢
  case none | percentChar | invalid => exact ⟨rfl, rfl, agree, rfl, rfl, rfl, rfl⟩
  case width | precision =>
      rw [match_int good (by rw [eq]; rfl)]
      exact ⟨rfl, rfl, ⟨eq.symm, agree.flags, agree.base, agree.qualifier⟩, rfl, rfl, rfl, rfl⟩
  case char =>
      rw [match_char good (by rw [eq]; rfl)]
      exact ⟨rfl, rfl, agree, rfl, rfl, rfl, rfl⟩
  case str =>
      rw [match_str good]
      exact ⟨rfl, rfl, agree, rfl, rfl, rfl, rfl⟩
  case ptr =>
      rw [match_ptr ⟨good.keeps, good.fits, good.short, good.sound⟩ eq]
      exact ⟨rfl, rfl, agree, rfl, rfl, rfl, rfl⟩
  case nrchars => exact ⟨rfl, rfl, agree, rfl, rfl, rfl, rfl⟩
  all_goals
    have num := match_num good (by rw [eq]; rfl)
    rw [eq] at num
    rw [num]
    exact ⟨rfl, rfl, agree, rfl, rfl, rfl, rfl⟩

theorem Good.before {P r : Pack} (good : Good m limit r.mem r) (h : Extends P r) : Good m limit r.mem P where
  keeps := h.mem
  fits := h.str.trans good.fits
  short := h.str.trans_lt good.short
  sound item mem := good.sound item (h.packed item mem)

theorem packRound_match {r P : Pack}
    (packs : Loop.run (packRound m limit args) n P = some r) (good : Good m limit r.mem r) (h : Match P p q) :
    (∃ p' q' P' k, printRound m (vaList m args) sink p = .inl p' ∧ printRound m (binArgs m r.mem) sink q = .inl q' ∧
        Loop.run (packRound m limit args) k P' = some r ∧ Match P' p' q') ∨
      ∃ a b, printRound m (vaList m args) sink p = .inr a ∧ printRound m (binArgs m r.mem) sink q = .inr b ∧
        a.1 = b.1 := by
  obtain ⟨agree, rest⟩ := formatDecode_similar h.agree p.fmt
  cases n with
  | zero => cases packs
  | succ n =>
    rw [Loop.run] at packs
    unfold printRound
    rw [h.fmt', h.spec]
    by_cases ends : charAt p.fmt 0 = 0
    · rw [if_pos ends, if_pos ends]
      exact .inr ⟨_, _, rfl, rfl, h.out.symm⟩
    have turn : packRound m limit args P = .inl (packToken m limit args
        { P with spec := (formatDecode P.fmt P.spec).1, fmt := (formatDecode P.fmt P.spec).2 }) := by
      unfold packRound
      rw [if_neg (h.fmt ▸ ends)]
    rw [turn] at packs
    rw [if_neg ends, if_neg ends]
    refine .inl ⟨_, _, _, n, rfl, rfl, packs, ?_⟩
    apply packToken_match _ _ (good.before (packRun_extends m limit args packs))
    rw [← h.fmt]
    exact ⟨rest, rfl, agree, rfl, h.args, h.str, h.out⟩

theorem print_packed {r P : Pack}
    (packs : Loop.run (packRound m limit args) n P = some r) (good : Good m limit r.mem r) (h : Match P p q) (k : ℕ) :
    Option.Rel (fun a b => a.1 = b.1) (Loop.run (printRound m (vaList m args) sink) k p)
      (Loop.run (printRound m (binArgs m r.mem) sink) k q) := by
  apply Loop.run_related fun (p q : Print ℕ σ) =>
    ∃ n P, Loop.run (packRound m limit args) n P = some r ∧ Match P p q
  · rintro p q ⟨n, P, packs, h⟩
    rcases packRound_match packs good h with ⟨p', q', P', k, turn, turn', packs', h'⟩ | leave
    · exact .inl ⟨p', q', turn, turn', k, P', packs', h'⟩
    · exact .inr leave
  · exact ⟨n, P, packs, h⟩

end

theorem le_of_words {size str : ℕ} (fits : toInt (align 4 str / 4) ≤ size) (short : align 4 str / 4 < 2 ^ 31) :
    str ≤ 4 * size ∧ str < 2 ^ 64 := by
  rw [toInt_of_lt short] at fits
  unfold align at *
  omega

def SameLayout (p q : Pack) : Prop := ∃ mem, q = { p with mem }

section

variable {m : Machine} {limit : ℕ} {args : ℕ → BitVec 64} {p q : Pack}

theorem SameLayout.token (same : SameLayout p q) : SameLayout (packToken m limit args p) (packToken m 0 args q) := by
  obtain ⟨mem, rfl⟩ := same
  cases type : p.spec.type <;> simp only [packToken, type] <;> exact ⟨_, rfl⟩

theorem SameLayout.round (same : SameLayout p q) :
    (∃ p' q', packRound m limit args p = .inl p' ∧ packRound m 0 args q = .inl q' ∧ SameLayout p' q') ∨
      ∃ p' q', packRound m limit args p = .inr p' ∧ packRound m 0 args q = .inr q' ∧ SameLayout p' q' := by
  obtain ⟨mem, rfl⟩ := same
  by_cases ends : charAt p.fmt 0 = 0
  · exact .inr ⟨p, _, if_pos ends, if_pos ends, mem, rfl⟩
  · exact .inl ⟨_, _, if_neg ends, if_neg ends, .token ⟨mem, rfl⟩⟩

/-- What is packed, and where, depends on the format and the arguments only. -/
theorem layout_eq {bin : ℕ → UInt8} {size : ℕ} {fmt : List UInt8} {r : Binary}
    (packs : vbinPrintf m bin size fmt args = some r) : layout m fmt args = some (r.packed, r.words) := by
  obtain ⟨P, run, rfl⟩ := Option.map_eq_some_iff.mp packs
  have start : SameLayout { fmt, mem := bin } { fmt, mem := fun _ => 0 } := ⟨_, rfl⟩
  have same : Option.Rel SameLayout (Loop.run (packRound m (4 * size) args) ..) (Loop.run (packRound m 0 args) ..) :=
    Loop.run_related SameLayout SameLayout (fun _ _ => SameLayout.round) start (rounds fmt)
  rw [run] at same
  rw [layout]
  generalize Loop.run (packRound m 0 args) (rounds fmt) { fmt, mem := fun _ => 0 } = laid at same ⊢
  cases same with
  | some h =>
    obtain ⟨mem, rfl⟩ := h
    rfl

end

def stringMachine (bits : ℕ) (word : bits = 32 ∨ bits = 64) : Machine :=
  { bareMachine bits word with
    string := fun ptr => if ptr = 0x5000 then text "abc" else []
    string_nonzero := by
      intro ptr
      split <;> decide }

def sampleArgs : ℕ → BitVec 64
  | 0 => 0x5000
  | _ => -7

end Vsprintf
