/- Records in a fifo of kernel/kfifo.c, each behind its length in one or two bytes, and reading without removing. -/
import LinuxKernel.Foundation.Transition
import LinuxKernel.Kernel.Kfifo

namespace Kfifo

open List UInt32

variable {f : Kfifo}

def kfifoOutPeek (f : Kfifo) (len offset : UInt32) : Kfifo × List UInt8 × UInt32 :=
  let len := min (kfifoLen f) (len + offset)
  (f, kfifoOutData f len offset, len)

theorem kfifoOutData_of_le (h : Valid f) {len offset : UInt32} (le : offset.toNat + len.toNat ≤ (kfifoLen f).toNat) :
    kfifoOutData f len offset = ((stored f).drop offset.toNat).take len.toNat := by
  obtain ⟨valid, after⟩ := @addOut_spec f h offset (by omega)
  have left : (kfifoLen (kfifoAddOut f offset)).toNat = (kfifoLen f).toNat - offset.toNat := by
    rw [← valid.length_stored, after, length_drop, h.length_stored]
  rw [← after, ← kfifoOutData_eq valid (by omega), kfifoOutData, kfifoOutData, UInt32.add_zero]
  rfl

/-- The bytes that are asked for are copied and no others: exactly at the front of the fifo, in an empty one, and
where `len + offset` wraps to the number of bytes behind the offset. -/
theorem kfifo_out_peek_iff (h : Valid f) (len offset : UInt32) :
    (∃ k, k = min len.toNat ((stored f).length - min offset.toNat (stored f).length) ∧ k ≤ len.toNat ∧
      (kfifoOutPeek f len offset).1 = f ∧ (kfifoOutPeek f len offset).2.2.toNat = k ∧
      (kfifoOutPeek f len offset).2.1 = ((stored f).drop offset.toNat).take k) ↔
    offset = 0 ∨ kfifoLen f = 0 ∨ len.toNat + offset.toNat = 2 ^ 32 + ((stored f).length - offset.toNat) := by
  have length := h.length_stored
  have ret : (kfifoOutPeek f len offset).2.2.toNat = min (stored f).length ((len.toNat + offset.toNat) % 2 ^ 32) := by
    rw [kfifoOutPeek, toNat_min, UInt32.toNat_add, length]
  have small := (kfifoLen f).toNat_lt
  have len_lt := len.toNat_lt
  have offset_lt := offset.toNat_lt
  rw [← UInt32.toNat_inj, ← UInt32.toNat_inj, UInt32.toNat_zero, ← length]
  constructor
  · rintro ⟨k, rfl, -, -, eq, -⟩
    omega
  · intro exact_
    have same : (kfifoOutPeek f len offset).2.2.toNat =
        min len.toNat ((stored f).length - min offset.toNat (stored f).length) := by omega
    refine ⟨_, rfl, Nat.min_le_left _ _, rfl, same, ?_⟩
    rw [← same]
    change kfifoOutData f (kfifoOutPeek f len offset).2.2 offset = _
    generalize (kfifoOutPeek f len offset).2.2 = n at ret same ⊢
    by_cases zero : n.toNat = 0
    · obtain rfl : n = 0 := UInt32.toNat_inj.mp zero
      have none_left (l : UInt32) : min (0 : UInt32) l = 0 := UInt32.toNat_inj.mp (by rw [toNat_min]; simp)
      simp [kfifoOutData, none_left]
    · exact kfifoOutData_of_le h (by omega)

def three : Kfifo := (kfifoIn (kfifoInit [0, 0, 0, 0] 4) [1, 2, 3] 3).1

theorem three_valid : Valid three := ⟨⟨2, rfl⟩, rfl, by decide⟩

theorem kfifo_out_peek_iff_wrapping : (kfifoOutPeek three 2 0).2.1 = [1, 2] ∧
    (kfifoOutPeek three 0xffffffff 2).2.1 = [3] := by
  obtain ⟨k, eq, -, -, -, data⟩ := (kfifo_out_peek_iff three_valid 2 0).mpr (.inl rfl)
  obtain ⟨k', eq', -, -, -, data'⟩ := (kfifo_out_peek_iff three_valid 0xffffffff 2).mpr
    (.inr (.inr (by decide +kernel)))
  rw [data, eq, data', eq']
  decide +kernel

/-- The second byte is asked for, but two bytes are written. -/
theorem kfifo_out_peek_overruns :
    Valid three ∧ stored three = [1, 2, 3] ∧ kfifoOutPeek three 1 1 = (three, [2, 3], 2) :=
  ⟨three_valid, by decide +kernel, by decide +kernel⟩

def kfifoInN (f : Kfifo) (src : List UInt8) (len recsize : UInt32) : Kfifo × UInt32 :=
  if kfifoAvail f < len + recsize then (f, len + 1) else (kfifoInData f src len recsize, 0)

def kfifoPut (f : Kfifo) (off val shift : UInt32) : Kfifo :=
  { f with buffer := f.buffer.set (kfifoOff f (f.in_ + off)).toNat (val >>> shift).toUInt8 }

def kfifoPokeN (f : Kfifo) (recsize n : UInt32) : Kfifo :=
  let f := kfifoPut f 0 n 0
  if recsize - 1 ≠ 0 then kfifoPut f 1 n 8 else f

def kfifoInRec (f : Kfifo) (src : List UInt8) (n recsize : UInt32) : Kfifo × UInt32 :=
  let (f, ret) := kfifoInN f src n recsize
  if ret = 0 then (kfifoAddIn (if recsize ≠ 0 then kfifoPokeN f recsize n else f) (n + recsize), ret) else (f, ret)

def kfifoGet (f : Kfifo) (off shift : UInt32) : UInt32 :=
  (f.buffer.getD (kfifoOff f (f.out + off)).toNat 0).toUInt32 <<< shift

def kfifoPeekN (f : Kfifo) (recsize : UInt32) : UInt32 :=
  let l := kfifoGet f 0 0
  if recsize - 1 ≠ 0 then l ||| kfifoGet f 1 8 else l

def kfifoOutN (f : Kfifo) (len recsize : UInt32) : Kfifo × List UInt8 × UInt32 :=
  if kfifoLen f < len + recsize then (f, [], len)
  else (kfifoAddOut f (len + recsize), kfifoOutData f len recsize, 0)

/-- `__kfifo_out_rec`; `total` is left out. -/
def kfifoOutRec (f : Kfifo) (n recsize : UInt32) : Kfifo × List UInt8 × UInt32 :=
  if recsize = 0 then kfifoOutN f n recsize
  else
    let l := kfifoPeekN f recsize
    if n < l then (f, [], l) else kfifoOutN f l recsize

/-- A fifo, the records whose insertion returned 0, and what was taken out. -/
structure Records where
  fifo : Kfifo
  inserted : List (List UInt8)
  taken : List (List UInt8)

/-- Records of less than `limit` bytes are put in. One is taken out when there is one and the destination is
large enough for it. -/
inductive RecordStep (recsize : UInt32) (limit : Nat) : Records → Records → Prop
  | in_ {f ins out} (src : List UInt8) (n : UInt32) : n.toNat ≤ src.length → n.toNat < limit →
      RecordStep recsize limit ⟨f, ins, out⟩ ⟨(kfifoInRec f src n recsize).1,
        if (kfifoInRec f src n recsize).2 = 0 then ins ++ [src.take n.toNat] else ins, out⟩
  | out {f ins out r} (n : UInt32) : ins[out.length]? = some r → r.length ≤ n.toNat →
      RecordStep recsize limit ⟨f, ins, out⟩
        ⟨(kfifoOutRec f n recsize).1, ins, out ++ [(kfifoOutRec f n recsize).2.1]⟩

def RecordStart (r : Records) : Prop := Valid r.fifo ∧ stored r.fifo = [] ∧ r.inserted = [] ∧ r.taken = []

def lengthBytes (recsize n : UInt32) : List UInt8 :=
  (n >>> 0).toUInt8 :: if recsize - 1 ≠ 0 then [(n >>> 8).toUInt8] else []

theorem put_spec (h : Valid f) (room : (kfifoLen f).toNat + 1 ≤ f.size.toNat) (val shift : UInt32) :
    Valid (kfifoAddIn (kfifoPut f 0 val shift) 1) ∧
      stored (kfifoAddIn (kfifoPut f 0 val shift) 1) = stored f ++ [(val >>> shift).toUInt8] := by
  have same : kfifoPut f 0 val shift = kfifoInData f [(val >>> shift).toUInt8] 1 0 := by
    have inside : (kfifoOff f (f.in_ + 0)).toNat < f.buffer.length := h.buffer ▸ h.off_lt _
    have whole := first_part h 1 (f.in_ + 0)
    have rest := second_part h 1 (f.in_ + 0)
    have one : min (1 : UInt32).toNat (f.buffer.length - (kfifoOff f (f.in_ + 0)).toNat) = 1 :=
      min_eq_left (Nat.sub_pos_of_lt inside)
    simp only [kfifoPut, kfifoInData, whole, rest, one]
    rw [set_eq_take_append_cons_drop, if_pos inside]
    simp [Ring.splice]
  rw [same]
  exact inData_spec h (Nat.le_refl 1) room

/-- The bytes of the length are written after the record, but in front of it. -/
theorem put_inData (h : Valid f) {src : List UInt8} {n d off : UInt32} (val shift : UInt32) (lt : off.toNat < d.toNat)
    (fits : d.toNat + n.toNat ≤ f.size.toNat) (enough : n.toNat ≤ src.length) :
    kfifoPut (kfifoInData f src n d) off val shift = kfifoInData (kfifoPut f off val shift) src n d := by
  have inside := h.off_lt (f.in_ + d)
  have before := h.off_lt (f.in_ + off)
  have after : (kfifoOff f (f.in_ + d)).toNat =
      ((kfifoOff f (f.in_ + off)).toNat + (d.toNat - off.toNat)) % f.size.toNat := by
    rw [h.off_toNat, h.off_toNat, UInt32.toNat_add, UInt32.toNat_add, Nat.mod_mod_of_dvd _ h.size_dvd,
      Nat.mod_mod_of_dvd _ h.size_dvd, Nat.mod_add_mod]
    congr 1
    omega
  have around : (kfifoOff f (f.in_ + d)).toNat = (kfifoOff f (f.in_ + off)).toNat + (d.toNat - off.toNat) ∨
      (kfifoOff f (f.in_ + d)).toNat + f.size.toNat = (kfifoOff f (f.in_ + off)).toNat + (d.toNat - off.toNat) := by
    rcases Nat.lt_or_ge ((kfifoOff f (f.in_ + off)).toNat + (d.toNat - off.toNat)) f.size.toNat with low | high
    · exact .inl (after.trans (Nat.mod_eq_of_lt low))
    · rw [Nat.mod_eq_sub_mod high, Nat.mod_eq_of_lt (by omega)] at after
      exact .inr (by omega)
  have length := h.buffer
  have first := first_part h n (f.in_ + d)
  have second := second_part h n (f.in_ + d)
  simp only [kfifoPut, kfifoInData, kfifoOff] at *
  rw [Ring.set_splice _ (Nat.zero_le _) (by rw [length_drop]; omega) (by omega),
    Ring.set_splice _ (by omega) (by omega) (by omega)]

variable {recsize : UInt32}

theorem poke_spec (h : Valid f) (sizes : recsize = 1 ∨ recsize = 2)
    (room : (kfifoLen f).toNat + recsize.toNat ≤ f.size.toNat) (n : UInt32) :
    Valid (kfifoAddIn (kfifoPokeN f recsize n) recsize) ∧
      stored (kfifoAddIn (kfifoPokeN f recsize n) recsize) = stored f ++ lengthBytes recsize n := by
  rcases sizes with rfl | rfl
  · exact put_spec h room n 0
  have room : (kfifoLen f).toNat + 2 ≤ f.size.toNat := room
  obtain ⟨valid, first⟩ := put_spec h (by omega) n 0
  have two : kfifoAddIn (kfifoPokeN f 2 n) 2 = kfifoAddIn (kfifoPut (kfifoAddIn (kfifoPut f 0 n 0) 1) 0 n 8) 1 := by
    have sum : f.in_ + 1 + 1 = f.in_ + 2 := by rw [UInt32.add_assoc]; rfl
    simp [kfifoPokeN, kfifoPut, kfifoAddIn, kfifoOff, sum]
  have length := valid.length_stored
  rw [first, length_append, h.length_stored] at length
  obtain ⟨valid, second⟩ := put_spec valid (by rw [← length]; exact room) n 8
  rw [two, second, first, append_assoc]
  exact ⟨valid, rfl⟩

theorem Valid.put (h : Valid f) (off val shift : UInt32) : Valid (kfifoPut f off val shift) where
  size := h.size
  buffer := length_set.trans h.buffer
  len := h.len

theorem length_lengthBytes (sizes : recsize = 1 ∨ recsize = 2) (n : UInt32) :
    (lengthBytes recsize n).length = recsize.toNat := by
  rcases sizes with rfl | rfl <;> rfl

theorem add_recsize {n : UInt32} (sizes : recsize = 1 ∨ recsize = 2) (small : n.toNat < 256 ^ recsize.toNat) :
    recsize ≠ 0 ∧ n.toNat < 65536 ∧ (n + recsize).toNat = n.toNat + recsize.toNat := by
  rcases sizes with rfl | rfl
  · have small : n.toNat < 256 := small
    exact ⟨by decide, by omega, (UInt32.toNat_add _ _).trans (Nat.mod_eq_of_lt (by change n.toNat + 1 < _; omega))⟩
  · have small : n.toNat < 65536 := small
    exact ⟨by decide, small, (UInt32.toNat_add _ _).trans (Nat.mod_eq_of_lt (by change n.toNat + 2 < _; omega))⟩

theorem inRec_spec (h : Valid f) {n : UInt32} (sizes : recsize = 1 ∨ recsize = 2) {src : List UInt8}
    (small : n.toNat < 256 ^ recsize.toNat) (enough : n.toNat ≤ src.length) :
    ((kfifoInRec f src n recsize).2 ≠ 0 ∧ (kfifoInRec f src n recsize).1 = f) ∨
    ((kfifoInRec f src n recsize).2 = 0 ∧ Valid (kfifoInRec f src n recsize).1 ∧
      stored (kfifoInRec f src n recsize).1 = stored f ++ (lengthBytes recsize n ++ src.take n.toNat)) := by
  obtain ⟨pos, bound, sum⟩ := add_recsize sizes small
  by_cases full : kfifoAvail f < n + recsize
  · have ret : n + 1 ≠ 0 := fun eq => by
      have := congrArg toNat eq
      rw [UInt32.toNat_add, Nat.mod_eq_of_lt (by change n.toNat + 1 < _; omega)] at this
      cases this
    simp [kfifoInRec, kfifoInN, full, ret]
  have fits := Nat.le_of_not_lt (lt_iff_toNat_lt.not.mp full)
  have le := h.len
  rw [h.avail_toNat, h.length_stored] at fits
  have first : kfifoPokeN (kfifoInData f src n recsize) recsize n =
      kfifoInData (kfifoPokeN f recsize n) src n recsize := by
    have apart (off : UInt32) (lt : off.toNat < recsize.toNat) (g : Kfifo) (same : g.size = f.size) (valid : Valid g)
        (shift : UInt32) : kfifoPut (kfifoInData g src n recsize) off n shift =
          kfifoInData (kfifoPut g off n shift) src n recsize :=
      put_inData valid n shift lt (by rw [same]; omega) enough
    rcases sizes with rfl | rfl
    · exact apart 0 Nat.zero_lt_one f rfl h 0
    · change kfifoPut (kfifoPut _ 0 n 0) 1 n 8 = kfifoInData (kfifoPut (kfifoPut f 0 n 0) 1 n 8) src n 2
      rw [apart 0 Nat.zero_lt_two f rfl h 0, apart 1 Nat.one_lt_two (kfifoPut f 0 n 0) rfl (h.put 0 n 0) 8]
  obtain ⟨valid, front⟩ := poke_spec h sizes (by omega) n
  have length := valid.length_stored
  rw [front, length_append, h.length_stored, length_lengthBytes sizes] at length
  have size : (kfifoAddIn (kfifoPokeN f recsize n) recsize).size = f.size := by
    rcases sizes with rfl | rfl <;> rfl
  obtain ⟨valid, behind⟩ := inData_spec valid enough (by rw [size]; omega)
  have eq : (kfifoInRec f src n recsize).1 =
      kfifoAddIn (kfifoInData (kfifoAddIn (kfifoPokeN f recsize n) recsize) src n 0) n := by
    simp only [kfifoInRec, kfifoInN, full, if_false, pos, ne_eq, first]
    simp [kfifoInData, kfifoAddIn, kfifoOff, UInt32.add_assoc, UInt32.add_comm n]
  right
  rw [eq, behind, front, append_assoc]
  exact ⟨by simp [kfifoInRec, kfifoInN, full], valid, rfl⟩

variable {rest : List UInt8}

theorem get_spec (h : Valid f) {b : UInt8} (eq : stored f = b :: rest) (shift : UInt32) :
    kfifoGet f 0 shift = b.toUInt32 <<< shift := by
  have inside : f.out.toNat % f.buffer.length < f.buffer.length := Nat.mod_lt _ (h.buffer ▸ h.size_pos)
  have head := congrArg List.head? eq
  rw [stored, ← Ring.window_mod, Ring.window, List.head?_take, List.head?_rotate inside] at head
  split at head
  · cases head
  · rw [kfifoGet, h.off_toNat, UInt32.add_zero, ← h.buffer, getD_eq_getElem?_getD, head]
    rfl

theorem peek_spec (h : Valid f) {n : UInt32} (sizes : recsize = 1 ∨ recsize = 2)
    (small : n.toNat < 256 ^ recsize.toNat) (eq : stored f = lengthBytes recsize n ++ rest) :
    kfifoPeekN f recsize = n := by
  apply UInt32.toNat_inj.mp
  rcases sizes with rfl | rfl
  · have small : n.toNat < 256 := small
    have low := get_spec h eq 0
    change (kfifoGet f 0 0).toNat = _
    rw [low]
    simp
    omega
  have small : n.toNat < 65536 := small
  have low := get_spec h eq 0
  have one : (1 : UInt32).toNat ≤ (kfifoLen f).toNat := by
    rw [← h.length_stored, eq]
    exact Nat.succ_le_of_lt (Nat.zero_lt_succ _)
  obtain ⟨valid, after⟩ := addOut_spec h one
  have high := get_spec valid (after.trans (by rw [eq]; rfl)) 8
  have second : kfifoGet f 1 8 = kfifoGet (kfifoAddOut f 1) 0 8 := by
    simp [kfifoGet, kfifoAddOut, kfifoOff]
  change (kfifoGet f 0 0 ||| kfifoGet f 1 8).toNat = _
  rw [second, low, high]
  have value : (n.toNat >>> 8 % 256) <<< 8 = n.toNat / 256 * 256 := by
    rw [Nat.shiftLeft_eq, Nat.shiftRight_eq_div_pow, Nat.mod_eq_of_lt (by omega)]
  simp only [shiftLeft_zero]
  change n.toNat % 256 ||| (n.toNat >>> 8 % 256) <<< 8 % 2 ^ 32 = n.toNat
  have low : n.toNat % 256 < 2 ^ 8 := Nat.mod_lt _ (by decide)
  rw [Nat.or_comm, Nat.mod_eq_of_lt (by rw [value]; omega), ← Nat.shiftLeft_add_eq_or_of_lt low]
  omega

theorem outRec_spec (h : Valid f) {n l : UInt32} (sizes : recsize = 1 ∨ recsize = 2) {r : List UInt8}
    (small : l.toNat < 256 ^ recsize.toNat) (length : r.length = l.toNat)
    (eq : stored f = lengthBytes recsize l ++ (r ++ rest)) (le : l.toNat ≤ n.toNat) :
    ∃ f', kfifoOutRec f n recsize = (f', r, 0) ∧ Valid f' ∧ stored f' = rest := by
  obtain ⟨pos, -, sum⟩ := add_recsize sizes small
  have count := h.length_stored
  rw [eq, length_append, length_append, length_lengthBytes sizes] at count
  obtain ⟨valid, behind⟩ := @addOut_spec f h recsize (by omega)
  have after := behind
  rw [eq, drop_left' (length_lengthBytes sizes l)] at after
  have count' := valid.length_stored
  rw [after, length_append] at count'
  have data : kfifoOutData f l recsize = r := by
    rw [kfifoOutData_of_le h (by omega), ← behind, after, take_left' length]
  obtain ⟨valid, behind⟩ := @addOut_spec _ valid l (by omega)
  have both : kfifoAddOut (kfifoAddOut f recsize) l = kfifoAddOut f (l + recsize) := by
    simp [kfifoAddOut, UInt32.add_assoc, UInt32.add_comm recsize]
  rw [both] at valid behind
  refine ⟨kfifoAddOut f (l + recsize), ?_, valid, ?_⟩
  · have large : ¬n < l := lt_iff_toNat_lt.not.mpr (by omega)
    have enough : ¬kfifoLen f < l + recsize := lt_iff_toNat_lt.not.mpr (by omega)
    simp [kfifoOutRec, kfifoOutN, pos, peek_spec h sizes small eq, large, enough, data]
  · rw [behind, after, drop_left' length]

def encode (recsize : UInt32) (r : List UInt8) : List UInt8 := lengthBytes recsize (.ofNat r.length) ++ r

/-- The fifo holds the records that were inserted and not yet taken out. -/
def RecordInv (recsize : UInt32) (s : Records) : Prop :=
  Valid s.fifo ∧ ∃ queue, s.inserted = s.taken ++ queue ∧ stored s.fifo = queue.flatMap (encode recsize) ∧
    ∀ r ∈ queue, ∃ l : UInt32, r.length = l.toNat ∧ l.toNat < 256 ^ recsize.toNat

theorem RecordInv.next (sizes : recsize = 1 ∨ recsize = 2) {s : Records} (h : RecordInv recsize s)
    {r : List UInt8} (head : s.inserted[s.taken.length]? = some r) {n : UInt32} (le : r.length ≤ n.toNat) :
    ∃ f', kfifoOutRec s.fifo n recsize = (f', r, 0) ∧ RecordInv recsize ⟨f', s.inserted, s.taken ++ [r]⟩ := by
  obtain ⟨valid, queue, parts, bytes, small⟩ := h
  rw [parts, List.getElem?_append_right (Nat.le_refl _), Nat.sub_self, ← List.head?_eq_getElem?] at head
  obtain ⟨queue, rfl⟩ := List.head?_eq_some_iff.mp head
  obtain ⟨l, length, short⟩ := small r mem_cons_self
  rw [flatMap_cons, encode, append_assoc, length, UInt32.ofNat_toNat] at bytes
  obtain ⟨f', eq, valid, left⟩ := outRec_spec valid sizes short length bytes (length ▸ le)
  exact ⟨f', eq, valid, queue, by simp [parts], left, fun x mem => small x (by simp [mem])⟩

theorem RecordStep.inv (sizes : recsize = 1 ∨ recsize = 2) {s t : Records}
    (h : RecordInv recsize s) (step : RecordStep recsize (256 ^ recsize.toNat) s t) : RecordInv recsize t := by
  cases step with
  | in_ src n enough small =>
    obtain ⟨valid, queue, parts, bytes, sizes'⟩ := h
    rcases inRec_spec valid sizes small enough with ⟨ret, same⟩ | ⟨ret, valid, more⟩
    · rw [if_neg ret, same]
      exact ⟨valid, queue, parts, bytes, sizes'⟩
    have length : (src.take n.toNat).length = n.toNat := length_take_of_le enough
    refine ⟨valid, queue ++ [src.take n.toNat], ?_, ?_, fun r mem => ?_⟩
    · rw [if_pos ret, ← append_assoc, ← parts]
    · rw [more, bytes, flatMap_append, flatMap_singleton, encode, length, UInt32.ofNat_toNat]
    · rcases mem_append.mp mem with mem | mem
      · exact sizes' r mem
      · exact ⟨n, mem_singleton.mp mem ▸ length, small⟩
  | out n head le =>
    obtain ⟨f', eq, inv⟩ := h.next sizes head le
    rw [eq]
    exact inv

/-- In every run with records whose length can be written in front of them, what is taken out are the inserted
records, and the next one can be taken out. -/
theorem kfifo_records {recsize : UInt32} (sizes : recsize = 1 ∨ recsize = 2) {s : Records}
    (h : Transition.Reachable RecordStart (RecordStep recsize (256 ^ recsize.toNat)) s) :
    s.taken <+: s.inserted ∧ ∀ r, s.inserted[s.taken.length]? = some r → ∀ n, r.length ≤ n.toNat →
      (kfifoOutRec s.fifo n recsize).2 = (r, 0) := by
  have inv : RecordInv recsize s := h.invariant (RecordInv recsize)
    (fun s ⟨valid, empty, ins, out⟩ => ⟨valid, [], by simp [ins, out], empty, by simp⟩)
    fun _ _ inv step => step.inv sizes inv
  refine ⟨?_, fun r head n le => ?_⟩
  · obtain ⟨-, queue, parts, -⟩ := inv
    exact ⟨queue, parts.symm⟩
  · obtain ⟨f', eq, -⟩ := inv.next sizes head le
    rw [eq]

theorem eight_start : RecordStart ⟨kfifoInit (.replicate 8 0) 8, [], []⟩ :=
  ⟨kfifoInit_valid (k := 3) rfl rfl, by decide +kernel, rfl, rfl⟩

theorem kfifo_records_two :
    (kfifoOutRec (kfifoInRec (kfifoInit (.replicate 8 0) 8) [5, 6] 2 1).1 9 1).2 = ([5, 6], 0) := by
  have step := @RecordStep.in_ 1 (256 ^ 1) (kfifoInit (.replicate 8 0) 8) [] [] [5, 6] 2 (Nat.le_refl 2) (by decide)
  have run := (Transition.Reachable.start eight_start).next step
  exact (kfifo_records (.inl rfl) run).2 [5, 6] (by decide +kernel) 9 (by decide)

/-- The length 256 does not fit into one byte: the record is inserted, but an empty one is taken out. -/
theorem kfifo_records_long : ∃ s : Records, Transition.Reachable RecordStart (RecordStep 1 257) s ∧
    s.inserted = [.replicate 256 7] ∧ s.taken = [[]] := by
  have start : RecordStart ⟨kfifoInit (.replicate 512 0) 512, [], []⟩ :=
    ⟨kfifoInit_valid (k := 9) rfl length_replicate, by decide +kernel, rfl, rfl⟩
  have step := @RecordStep.in_ 1 257 (kfifoInit (.replicate 512 0) 512) [] [] (.replicate 256 7) 256
    (length_replicate ▸ Nat.le_refl 256) (by decide)
  have run := (Transition.Reachable.start start).next step
  exact ⟨_, run.next (.out 256 (r := .replicate 256 7) (by decide +kernel) (length_replicate ▸ Nat.le_refl 256)),
    by decide +kernel, by decide +kernel⟩

end Kfifo
