/- The byte queue of kernel/kfifo.c, whose counters run freely modulo 2^32. -/
import Mathlib.Data.Nat.Bitwise
import LinuxKernel.Foundation.Ring

structure Kfifo where
  buffer : List UInt8
  size : UInt32
  in_ : UInt32
  out : UInt32
  deriving DecidableEq, Repr

namespace Kfifo

open UInt32 Ring

def kfifoInit (buffer : List UInt8) (size : UInt32) : Kfifo := ⟨buffer, size, 0, 0⟩

def kfifoLen (f : Kfifo) : UInt32 := f.in_ - f.out

def kfifoAvail (f : Kfifo) : UInt32 := f.size - kfifoLen f

def kfifoOff (f : Kfifo) (off : UInt32) : UInt32 := off &&& (f.size - 1)

def kfifoAddIn (f : Kfifo) (off : UInt32) : Kfifo := { f with in_ := f.in_ + off }

def kfifoAddOut (f : Kfifo) (off : UInt32) : Kfifo := { f with out := f.out + off }

def kfifoResetOut (f : Kfifo) : Kfifo := { f with out := f.in_ }

def kfifoSkip (f : Kfifo) (len : UInt32) : Kfifo :=
  if len < kfifoLen f then kfifoAddOut f len else kfifoResetOut f

def kfifoInData (f : Kfifo) (src : List UInt8) (len off : UInt32) : Kfifo :=
  let off := kfifoOff f (f.in_ + off)
  let l := min len (f.size - off)
  let buffer := splice f.buffer off.toNat src l.toNat
  { f with buffer := splice buffer 0 (src.drop l.toNat) (len - l).toNat }

/-- `__kfifo_out_data`: what is copied to `to`. -/
def kfifoOutData (f : Kfifo) (len off : UInt32) : List UInt8 :=
  let off := kfifoOff f (f.out + off)
  let l := min len (f.size - off)
  (f.buffer.drop off.toNat).take l.toNat ++ f.buffer.take (len - l).toNat

def kfifoIn (f : Kfifo) (src : List UInt8) (len : UInt32) : Kfifo × UInt32 :=
  let len := min (kfifoAvail f) len
  (kfifoAddIn (kfifoInData f src len 0) len, len)

def kfifoOut (f : Kfifo) (len : UInt32) : Kfifo × List UInt8 × UInt32 :=
  let len := min (kfifoLen f) len
  (kfifoAddOut f len, kfifoOutData f len 0, len)

/-- A call. A caller of `kfifo_in` passes `len` bytes at least. -/
inductive Call where
  | in_ (src : List UInt8) (len : UInt32) (enough : len.toNat ≤ src.length)
  | out (len : UInt32)
  | skip (len : UInt32)

/-- What is seen of a call: the value it returns, the bytes it copies out, and `kfifo_len` after it. -/
structure Reply where
  ret : Nat
  data : List UInt8
  len : Nat
  deriving DecidableEq, Repr

def Call.exec (f : Kfifo) : Call → Kfifo × Reply
  | .in_ src len _ =>
    let r := kfifoIn f src len
    (r.1, ⟨r.2.toNat, [], (kfifoLen r.1).toNat⟩)
  | .out len =>
    let r := kfifoOut f len
    (r.1, ⟨r.2.2.toNat, r.2.1, (kfifoLen r.1).toNat⟩)
  | .skip len =>
    let f := kfifoSkip f len
    (f, ⟨0, [], (kfifoLen f).toNat⟩)

def replies : Kfifo → List Call → List Reply
  | _, [] => []
  | f, c :: calls => (c.exec f).2 :: replies (c.exec f).1 calls

/-- The same call of a queue of at most `size` bytes. -/
def Call.spec (size : Nat) (q : List UInt8) : Call → List UInt8 × Reply
  | .in_ src len _ =>
    let n := min (size - q.length) len.toNat
    (q ++ src.take n, ⟨n, [], (q ++ src.take n).length⟩)
  | .out len => (q.drop len.toNat, ⟨min q.length len.toNat, q.take len.toNat, (q.drop len.toNat).length⟩)
  | .skip len => (q.drop len.toNat, ⟨0, [], (q.drop len.toNat).length⟩)

def queueReplies (size : Nat) : List UInt8 → List Call → List Reply
  | _, [] => []
  | q, c :: calls => (c.spec size q).2 :: queueReplies size (c.spec size q).1 calls

def stored (f : Kfifo) : List UInt8 := window f.buffer f.out.toNat (kfifoLen f).toNat

/-- The size is a power of two and the counters are at most the size apart. -/
structure Valid (f : Kfifo) : Prop where
  size : ∃ k, f.size.toNat = 2 ^ k
  buffer : f.buffer.length = f.size.toNat
  len : (kfifoLen f).toNat ≤ f.size.toNat

variable {f : Kfifo}

namespace Valid

section

variable (h : Valid f)
include h

theorem exponent : ∃ k < 32, f.size.toNat = 2 ^ k := by
  obtain ⟨k, size⟩ := h.size
  have lt : 2 ^ k < 2 ^ 32 := size ▸ f.size.toNat_lt
  exact ⟨k, (Nat.pow_lt_pow_iff_right (by decide)).mp lt, size⟩

theorem size_pos : 0 < f.size.toNat := by
  obtain ⟨k, -, size⟩ := h.exponent
  rw [size]
  exact Nat.two_pow_pos k

theorem size_dvd : f.size.toNat ∣ 2 ^ 32 := by
  obtain ⟨k, lt, size⟩ := h.exponent
  rw [size]
  exact Nat.pow_dvd_pow 2 lt.le

theorem off_toNat (off : UInt32) : (kfifoOff f off).toNat = off.toNat % f.size.toNat := by
  obtain ⟨k, -, size⟩ := h.exponent
  have one : (1 : UInt32) ≤ f.size := le_iff_toNat_le.mpr h.size_pos
  rw [kfifoOff, UInt32.toNat_and, UInt32.toNat_sub_of_le _ _ one, size]
  exact Nat.and_two_pow_sub_one_eq_mod _ _

theorem off_lt (off : UInt32) : (kfifoOff f off).toNat < f.size.toNat := by
  rw [h.off_toNat]
  exact Nat.mod_lt _ h.size_pos

theorem length_stored : (stored f).length = (kfifoLen f).toNat :=
  length_window (h.buffer ▸ h.len)

theorem avail_toNat : (kfifoAvail f).toNat = f.size.toNat - (stored f).length := by
  rw [h.length_stored]
  exact UInt32.toNat_sub_of_le _ _ (le_iff_toNat_le.mpr h.len)

theorem in_mod : f.in_.toNat % f.size.toNat = (f.out.toNat + (kfifoLen f).toNat) % f.size.toNat := by
  have sum : f.out + kfifoLen f = f.in_ := by
    rw [kfifoLen, UInt32.add_comm, UInt32.sub_add_cancel]
  rw [← Nat.mod_mod_of_dvd (f.out.toNat + (kfifoLen f).toNat) h.size_dvd, ← UInt32.toNat_add, sum]

end

end Valid

section

variable (h : Valid f)
include h

theorem first_part (len off : UInt32) :
    (min len (f.size - kfifoOff f off)).toNat = min len.toNat (f.buffer.length - (kfifoOff f off).toNat) := by
  rw [toNat_min, UInt32.toNat_sub_of_le _ _ (le_iff_toNat_le.mpr (h.off_lt off).le), h.buffer]

theorem second_part (len off : UInt32) : (len - min len (f.size - kfifoOff f off)).toNat =
      len.toNat - min len.toNat (f.buffer.length - (kfifoOff f off).toNat) := by
  have le : min len (f.size - kfifoOff f off) ≤ len := by
    rw [le_iff_toNat_le, toNat_min]
    exact Nat.min_le_left _ _
  rw [UInt32.toNat_sub_of_le _ _ le, first_part h]

theorem kfifoOutData_eq {len : UInt32} (le : len.toNat ≤ (kfifoLen f).toNat) :
    kfifoOutData f len 0 = (stored f).take len.toNat := by
  have inside := h.off_lt (f.out + 0)
  simp only [kfifoOutData]
  rw [first_part h, second_part h, take_append_take_eq_window (h.buffer ▸ inside) (h.buffer ▸ le.trans h.len),
    h.off_toNat, UInt32.add_zero, ← h.buffer, window_mod, stored, window, window, List.take_take,
    min_eq_left le]

theorem addOut_spec {len : UInt32} (le : len.toNat ≤ (kfifoLen f).toNat) :
    Valid (kfifoAddOut f len) ∧ stored (kfifoAddOut f len) = (stored f).drop len.toNat := by
  have left : kfifoLen (kfifoAddOut f len) = kfifoLen f - len := by
    change f.in_ - (f.out + len) = f.in_ - f.out - len
    grind
  have left' : (kfifoLen (kfifoAddOut f len)).toNat = (kfifoLen f).toNat - len.toNat := by
    rw [left, UInt32.toNat_sub_of_le _ _ (le_iff_toNat_le.mpr le)]
  refine ⟨⟨h.size, h.buffer, ?_⟩, ?_⟩
  · rw [left']
    exact (Nat.sub_le _ _).trans h.len
  · have wrap : (f.out + len).toNat % f.buffer.length = (f.out.toNat + len.toNat) % f.buffer.length := by
      rw [UInt32.toNat_add, h.buffer, Nat.mod_mod_of_dvd _ h.size_dvd]
    rw [stored, left', stored, ← window_drop (h.buffer ▸ h.len) le, ← window_mod,
      ← window_mod f.buffer (f.out.toNat + len.toNat)]
    exact congrArg (window f.buffer · _) wrap

theorem resetOut_spec : Valid (kfifoResetOut f) ∧ stored (kfifoResetOut f) = [] := by
  have empty : kfifoLen (kfifoResetOut f) = 0 := UInt32.sub_self _
  refine ⟨⟨h.size, h.buffer, ?_⟩, ?_⟩
  · rw [empty]
    exact Nat.zero_le _
  · rw [stored, empty]
    rfl

theorem inData_spec {src : List UInt8} {len : UInt32} (enough : len.toNat ≤ src.length)
    (fits : (kfifoLen f).toNat + len.toNat ≤ f.size.toNat) : Valid (kfifoAddIn (kfifoInData f src len 0) len) ∧
      stored (kfifoAddIn (kfifoInData f src len 0) len) = stored f ++ src.take len.toNat := by
  have inside : (kfifoOff f (f.in_ + 0)).toNat < f.buffer.length := h.buffer ▸ h.off_lt _
  have small : len.toNat ≤ f.buffer.length := by
    rw [h.buffer]
    omega
  have wrote : (kfifoInData f src len 0).buffer.rotate (kfifoOff f (f.in_ + 0)).toNat =
      src.take len.toNat ++ (f.buffer.rotate (kfifoOff f (f.in_ + 0)).toNat).drop len.toNat := by
    simp only [kfifoInData]
    rw [first_part h, second_part h]
    exact rotate_splice_splice inside small enough
  have length : (kfifoInData f src len 0).buffer.length = f.buffer.length := by
    simpa [enough, small] using congrArg List.length wrote
  have more : kfifoLen (kfifoAddIn (kfifoInData f src len 0) len) = kfifoLen f + len := by
    change f.in_ + len - f.out = f.in_ - f.out + len
    grind
  have more' : (kfifoLen (kfifoAddIn (kfifoInData f src len 0) len)).toNat =
      (kfifoLen f).toNat + len.toNat := by
    rw [more, UInt32.toNat_add, Nat.mod_eq_of_lt]
    exact fits.trans_lt f.size.toNat_lt
  refine ⟨⟨h.size, length.trans h.buffer, more'.trans_le fits⟩, ?_⟩
  have shift : ∀ l : List UInt8, l.length = f.buffer.length →
      l.rotate (kfifoOff f (f.in_ + 0)).toNat = l.rotate (f.out.toNat + (kfifoLen f).toNat) := by
    intro l eq
    rw [h.off_toNat, UInt32.add_zero, h.in_mod, ← h.buffer, ← eq, List.rotate_mod]
  rw [shift _ length, shift _ rfl] at wrote
  rw [stored, more']
  exact window_of_rotate length (h.buffer ▸ fits) enough wrote

theorem exec_spec (c : Call) : Valid (c.exec f).1 ∧ (c.exec f).1.size = f.size ∧
      c.spec f.size.toNat (stored f) = (stored (c.exec f).1, (c.exec f).2) := by
  have length := h.length_stored
  cases c with
  | in_ src len enough =>
    have count : (min (kfifoAvail f) len).toNat = min (f.size.toNat - (stored f).length) len.toNat := by
      rw [toNat_min, h.avail_toNat]
    have len_le := h.len
    obtain ⟨valid, eq⟩ := @inData_spec f h src (min (kfifoAvail f) len) (by omega) (by omega)
    refine ⟨valid, rfl, ?_⟩
    simp only [Call.exec, Call.spec, kfifoIn]
    rw [← valid.length_stored, eq, count]
  | out len =>
    have count : (min (kfifoLen f) len).toNat = min len.toNat (stored f).length := by
      rw [toNat_min, length, min_comm]
    have le : (min (kfifoLen f) len).toNat ≤ (kfifoLen f).toNat := by omega
    obtain ⟨valid, eq⟩ := addOut_spec h le
    refine ⟨valid, rfl, ?_⟩
    have dropped : (stored f).drop (min (kfifoLen f) len).toNat = (stored f).drop len.toNat := by
      rw [count, List.drop_eq_drop_min.symm]
    have taken : (stored f).take (min (kfifoLen f) len).toNat = (stored f).take len.toNat := by
      rw [count, List.take_eq_take_min.symm]
    simp only [Call.exec, Call.spec, kfifoOut]
    rw [← valid.length_stored, eq, kfifoOutData_eq h le, dropped, taken, count, min_comm]
  | skip len =>
    simp only [Call.exec, Call.spec, kfifoSkip]
    split
    · rename_i lt
      obtain ⟨valid, eq⟩ := addOut_spec h (lt_iff_toNat_lt.mp lt).le
      refine ⟨valid, rfl, ?_⟩
      rw [← valid.length_stored, eq]
    rename_i ge
    have all : (stored f).length ≤ len.toNat := by
      rw [length]
      exact Nat.le_of_not_lt (lt_iff_toNat_lt.not.mp ge)
    obtain ⟨valid, eq⟩ := resetOut_spec h
    refine ⟨valid, rfl, ?_⟩
    rw [← valid.length_stored, eq, List.drop_of_length_le all]

end

theorem replies_eq (calls : List Call) (h : Valid f) :
    replies f calls = queueReplies f.size.toNat (stored f) calls := by
  induction calls generalizing f with
  | nil => rfl
  | cons c calls ih =>
    obtain ⟨valid, size, eq⟩ := exec_spec h c
    rw [replies, queueReplies, eq, ih valid, size]

theorem exec_len (f : Kfifo) (c : Call) : (c.exec f).2.len = (kfifoLen (c.exec f).1).toNat := by
  cases c <;> rfl

theorem replies_len_le (calls : List Call) (h : Valid f) : ∀ r ∈ replies f calls, r.len ≤ f.size.toNat := by
  induction calls generalizing f with
  | nil => simp [replies]
  | cons c calls ih =>
    obtain ⟨valid, size, -⟩ := exec_spec h c
    intro r mem
    rcases List.mem_cons.mp mem with rfl | mem
    · rw [exec_len, ← size]
      exact valid.len
    · rw [← size]
      exact ih valid r mem

theorem kfifoInit_valid {buffer : List UInt8} {size : UInt32} {k : Nat} (pow : size.toNat = 2 ^ k)
    (room : buffer.length = size.toNat) : Valid (kfifoInit buffer size) where
  size := ⟨k, pow⟩
  buffer := room
  len := by
    rw [kfifoLen, show (kfifoInit buffer size).in_ = (kfifoInit buffer size).out from rfl, UInt32.sub_self]
    exact Nat.zero_le _

/-- Every run of calls on a new fifo gives the replies of a bounded queue, and `kfifo_len` is at most
the size. -/
theorem kfifo_refines_queue {buffer : List UInt8} {size : UInt32} {k : Nat} (pow : size.toNat = 2 ^ k)
    (room : buffer.length = size.toNat) (calls : List Call) :
    replies (kfifoInit buffer size) calls = queueReplies size.toNat [] calls ∧
      ∀ r ∈ replies (kfifoInit buffer size) calls, r.len ≤ size.toNat := by
  have valid := kfifoInit_valid pow room
  have empty : stored (kfifoInit buffer size) = [] := (resetOut_spec valid).2
  constructor
  · rw [replies_eq calls valid, empty]
    rfl
  · exact replies_len_le calls valid

/-- Three bytes go into a fifo of four, two go out, and three more wrap. -/
theorem kfifo_refines_queue_wraps : replies (kfifoInit [0, 0, 0, 0] 4)
        [.in_ [1, 2, 3] 3 (by decide), .out 2, .in_ [4, 5, 6, 7] 4 (by decide), .skip 1, .out 9] =
      queueReplies 4 [] [.in_ [1, 2, 3] 3 (by decide), .out 2, .in_ [4, 5, 6, 7] 4 (by decide), .skip 1, .out 9] ∧
    replies (kfifoInit [0, 0, 0, 0] 4)
        [.in_ [1, 2, 3] 3 (by decide), .out 2, .in_ [4, 5, 6, 7] 4 (by decide), .skip 1, .out 9] =
      [⟨3, [], 3⟩, ⟨2, [1, 2], 1⟩, ⟨3, [], 4⟩, ⟨0, [], 3⟩, ⟨3, [4, 5, 6], 0⟩] :=
  ⟨(kfifo_refines_queue (k := 2) rfl rfl _).1, by decide +kernel⟩

end Kfifo
