/- The bytes that a filter reads from a linear packet. -/
import LinuxKernel.Net.FilterSafety

namespace Filter

variable {m : Machine} {skb : SkBuff} {filter : List SockFilter}

def Inside (skb : SkBuff) (addr : Int) : Prop := 0 ≤ addr ∧ addr < skb.tail

variable {size : Nat}

theorem span_inside {addr : Int} (nonneg : 0 ≤ addr) (le : addr + size ≤ skb.tail) :
    ∀ b ∈ span addr size, Inside skb b := by
  intro b hb
  obtain ⟨i, hi, rfl⟩ := List.mem_map.mp hb
  have := List.mem_range.mp hi
  exact ⟨by omega, by omega⟩

/-- A result for which nothing outside the packet was read. -/
structure Bounded (skb : SkBuff) {α : Type} (r : α × List Int) : Prop where
  inside : ∀ b ∈ r.2, Inside skb b

theorem Bounded.nothing {α : Type} (v : α) : Bounded skb (v, []) :=
  ⟨fun _ hb => nomatch hb⟩

theorem Bounded.loaded {set : UInt32 → State} {r : Loaded} (h : Bounded skb r) :
    Bounded skb (State.loaded set r) := ⟨h.inside⟩

theorem Bounded.attrOffset {r : Option Int × List Int} (h : Bounded skb r) :
    Bounded skb (attrOffset skb r) := ⟨h.inside⟩

theorem Bounded.append {α : Type} {r : α × List Int} {reads : List Int}
    (before : ∀ b ∈ reads, Inside skb b) (h : Bounded skb r) : Bounded skb (r.map id (reads ++ ·)) := by
  refine ⟨fun b hb => ?_⟩
  rcases List.mem_append.mp hb with hb | hb
  · exact before b hb
  · exact h.inside b hb

theorem toInt_le (n : Nat) : toInt n ≤ n := by
  unfold toInt
  rw [Int.bmod_def]
  omega

theorem toInt_lt (n : Nat) : toInt n < 2 ^ 31 := by
  unfold toInt
  rw [Int.bmod_def]
  omega

variable {k : Int}

theorem skbHeaderPointer_linear (linear : skb.paged = []) {ptr : Pointer}
    (nonneg : 0 ≤ k) (lt : k < 2 ^ 31) (pos : 0 < size) (found : skbHeaderPointer skb k size = some ptr) :
    ptr = .buf (skb.data + k) ∧ k + size ≤ skb.headlen := by
  unfold skbHeaderPointer at found
  split_ifs at found with fits
  · cases found
    refine ⟨rfl, ?_⟩
    unfold toInt at fits
    rw [Int.bmod_def, Int.bmod_def] at fits
    omega
  · -- nothing lies outside the buffer
    obtain ⟨bytes, copied, -⟩ := Option.map_eq_some_iff.mp found
    simp only [skbCopyBits, linear, List.drop_nil, List.take_nil, List.length_nil] at copied
    split_ifs at copied with past short
    omega

theorem loadPointer_linear (linear : skb.paged = []) {ptr : Pointer}
    (lt : k < 2 ^ 31) (pos : 0 < size) (found : loadPointer skb k size = some ptr) :
    (∃ addr : Int, ptr = .buf addr ∧ 0 ≤ addr ∧ addr + size ≤ skb.tail) ∨
      ∃ addr, ptr = .buf addr ∧ k < skfAdOff ∧ rawLoadPointer skb k = some addr := by
  unfold loadPointer at found
  split_ifs at found with nonneg low
  · obtain ⟨rfl, le⟩ := skbHeaderPointer_linear linear nonneg lt pos found
    unfold SkBuff.headlen at le
    exact .inl ⟨_, rfl, by omega, by omega⟩
  · obtain ⟨addr, raw, rfl⟩ := Option.map_eq_some_iff.mp found
    exact .inr ⟨addr, rfl, by omega, raw⟩

theorem rawLoadPointer_inside {k addr : Int} (found : rawLoadPointer skb k = some addr) : Inside skb addr := by
  obtain ⟨-, bounds⟩ := Option.filter_eq_some_iff.mp found
  simpa [Inside] using bounds

theorem nlaFindFrom_bounded {t : Int} {n : Nat} {nla rem : Int} (nonneg : 0 ≤ nla)
    (le : nla + rem ≤ skb.tail) : Bounded skb (nlaFindFrom m skb t n nla rem) := by
  induction n generalizing nla rem with
  | zero => exact .nothing none
  | succ n ih =>
    have header : ¬rem < (sizeofNlattr : Int) → nla + 4 ≤ skb.tail := by
      unfold sizeofNlattr
      omega
    simp only [nlaFindFrom]
    split_ifs with short ok same
    · exact .nothing none
    · exact ⟨span_inside nonneg (header short)⟩
    · exact .append (span_inside nonneg (header short)) (ih (by omega) (by omega))
    · have := header short
      exact ⟨span_inside nonneg (by omega)⟩

theorem len_linear (linear : skb.paged = []) : skb.data + skb.len.toNat = skb.tail := by
  have len_lt := skb.len_lt
  have le := skb.data_le
  simp only [SkBuff.len, SkBuff.headlen, linear, List.length_nil, UInt32.toNat_ofNat'] at len_lt ⊢
  omega

/-- The check on the accumulator is right for a packet that has room for an attribute header. -/
theorem attr_fits {a : UInt32} (room : sizeofNlattr ≤ skb.len.toNat)
    (ok : pastLastAttr m skb a = false) : a.toNat + sizeofNlattr ≤ skb.len.toNat := by
  unfold pastLastAttr sizeofNlattr at *
  simp only [decide_eq_false_iff_not] at ok
  cases hw : m.sizeT with
  | bits32 | bits64 =>
    simp only [hw, SizeT.bits] at ok
    omega

theorem loadAttr_bounded (linear : skb.paged = []) (room : sizeofNlattr ≤ skb.len.toNat)
    (a x : UInt32) : Bounded skb (loadAttr m skb a x) := by
  unfold loadAttr
  split_ifs with outside
  · exact .nothing none
  rw [Bool.or_eq_true, not_or, Bool.not_eq_true, Bool.not_eq_true] at outside
  have fits := attr_fits room outside.2
  have len := len_linear linear
  have rest : (skb.len - a).toNat = skb.len.toNat - a.toNat :=
    UInt32.toNat_sub_of_le _ _ (UInt32.le_iff_toNat_le.mpr (by omega))
  have le := toInt_le (skb.len - a).toNat
  refine .attrOffset ?_
  refine nlaFindFrom_bounded ?_ ?_
  all_goals omega

theorem loadNestedAttr_bounded (linear : skb.paged = []) (room : sizeofNlattr ≤ skb.len.toNat) {a : UInt32}
    (x : UInt32)
    (nested : a.toNat + sizeofNlattr ≤ skb.len.toNat → a.toNat + nlaLen m skb (skb.data + a.toNat) ≤ skb.len.toNat) :
    Bounded skb (loadNestedAttr m skb a x) := by
  unfold loadNestedAttr
  split_ifs with outside
  · exact .nothing none
  rw [Bool.or_eq_true, not_or, Bool.not_eq_true, Bool.not_eq_true] at outside
  have fits := attr_fits room outside.2
  have len := len_linear linear
  have within := nested fits
  unfold sizeofNlattr at fits
  have header : ∀ b ∈ span (skb.data + a.toNat) 2, Inside skb b :=
    span_inside (by omega) (by omega)
  simp only
  split_ifs with long
  · exact ⟨header⟩
  · refine .append header (.attrOffset ?_)
    refine nlaFindFrom_bounded ?_ ?_
    all_goals omega

/-- The checks that `sk_run_filter` leaves out before a load at an offset: that a half word or word
below the ancillary offsets ends within the packet, that the packet has room for an attribute header,
and that the outer attribute of a nested search ends within the packet. -/
structure GuardedLoad (m : Machine) (skb : SkBuff) (a : UInt32) (size : Size) (k : Int) : Prop where
  ends : ∀ addr, k < skfAdOff → rawLoadPointer skb k = some addr → addr + size.bytes ≤ skb.tail
  room : k - skfAdOff = 12 ∨ k - skfAdOff = 16 → sizeofNlattr ≤ skb.len.toNat
  nested : k - skfAdOff = 16 → a.toNat + sizeofNlattr ≤ skb.len.toNat →
    a.toNat + nlaLen m skb (skb.data + a.toNat) ≤ skb.len.toNat

theorem Size.bytes_pos (size : Size) : 0 < size.bytes := by
  cases size <;> decide

theorem load_bounded (linear : skb.paged = []) {a x : UInt32} {size : Size}
    (lt : k < 2 ^ 31) (guarded : GuardedLoad m skb a size k) : Bounded skb (load m skb a x size k) := by
  unfold load
  cases found : loadPointer skb k size.bytes with
  | some ptr =>
    rcases loadPointer_linear linear lt size.bytes_pos found with
      ⟨addr, rfl, nonneg, le⟩ | ⟨addr, rfl, low, raw⟩
    · exact ⟨span_inside nonneg le⟩
    · exact ⟨span_inside (rawLoadPointer_inside raw).1 (guarded.ends addr low raw)⟩
  | none =>
    simp only [ancillary]
    split_ifs with _ _ _ _ _ attr nest
    · exact .nothing _
    · exact .nothing _
    · exact .nothing _
    · exact .nothing _
    · exact .nothing _
    · exact loadAttr_bounded linear (guarded.room (.inl attr)) a x
    · exact loadNestedAttr_bounded linear (guarded.room (.inr nest)) x (guarded.nested nest)
    · exact .nothing none

theorem loadMsh_bounded (linear : skb.paged = []) (lt : k < 2 ^ 31) : Bounded skb (loadMsh skb k) := by
  unfold loadMsh
  cases found : loadPointer skb k 1 with
  | none => exact .nothing none
  | some ptr =>
    rcases loadPointer_linear linear lt Nat.one_pos found with
      ⟨addr, rfl, nonneg, le⟩ | ⟨addr, rfl, -, raw⟩
    · exact ⟨span_inside nonneg le⟩
    · have inside := rawLoadPointer_inside raw
      exact ⟨span_inside inside.1 (by have := inside.2; omega)⟩

/-- The condition on an instruction, at the offset that it loads from. -/
def GuardedInsn (m : Machine) (skb : SkBuff) (fentry : SockFilter) (s : State) : Insn → Prop
  | .ldAbs size => GuardedLoad m skb s.a size (toInt fentry.k.toNat)
  | .ldInd size => GuardedLoad m skb s.a size (toInt (s.x + fentry.k).toNat)
  | _ => True

def Guarded (m : Machine) (skb : SkBuff) (filter : List SockFilter) (s : State) : Prop :=
  ∀ fentry i, fetch filter s.pc = some fentry → decode fentry.code = some i →
    GuardedInsn m skb fentry s i

theorem execInsn_bounded (linear : skb.paged = []) {fentry : SockFilter} {s : State} {i : Insn}
    (guarded : GuardedInsn m skb fentry s i) : Bounded skb (execInsn m skb fentry s i) := by
  cases i with
  | ldAbs size | ldInd size =>
    exact .loaded (load_bounded linear (toInt_lt _) guarded)
  | ldxMsh =>
    exact .loaded (loadMsh_bounded linear (toInt_lt _))
  | _ => exact .nothing _

theorem execute_bounded (linear : skb.paged = []) {s : State} (guarded : Guarded m skb filter s) :
    Bounded skb (execute m skb filter s) := by
  unfold execute
  split_ifs
  · cases fetched : fetch filter s.pc with
    | none => exact .nothing _
    | some fentry =>
      cases decoded : decode fentry.code with
      | none =>
        simp only [decoded]
        exact .nothing _
      | some i =>
        simp only [decoded]
        exact execInsn_bounded linear (guarded fentry i fetched decoded)
  · exact .nothing _

/-- In every run on a linear packet whose loads all meet the condition, every byte read from the
packet lies between the start of the buffer and the end of the packet data. -/
theorem packet_reads_inside (linear : skb.paged = []) {mem : Fin bpfMemwords → UInt32}
    (guarded : ∀ s, Transition.Reachable (· = start mem) (Steps m skb filter) s → Guarded m skb filter s) :
    ∀ s, Transition.Reachable (· = start mem) (Steps m skb filter) s →
      ∀ b ∈ (execute m skb filter s).2, Inside skb b := by
  intro s reach
  exact (execute_bounded linear (guarded s reach)).inside

def loadWord (k : UInt32) : List SockFilter :=
  [⟨bpfLd ||| bpfW ||| bpfAbs, 0, 0, k⟩, ⟨bpfRet ||| bpfA, 0, 0, 0⟩]

def packet (memory : Int → UInt8) (tail : Nat) (networkHeader : Int) (lt : tail < 2 ^ 32) : SkBuff :=
  ⟨memory, 0, tail, [], networkHeader, 0, (8, 0), 0, 1, 0, 0, Nat.zero_le tail, by simpa using lt⟩

/-- The first word of the network header of an Ethernet frame. -/
theorem packet_reads_inside_network : (packet (fun _ => 0) 60 14 (by decide)).paged = [] ∧
      ∀ b ∈ (execute ⟨.little, .bits64⟩ (packet (fun _ => 0) 60 14 (by decide)) (loadWord 0xfff00000)
        (start fun _ => 0)).2, 0 ≤ b ∧ b < 60 := by
  refine ⟨rfl, packet_reads_inside rfl (fun s _ fentry i fetched decoded => ?_) _ (.start rfl)⟩
  have mem : fentry ∈ loadWord 0xfff00000 := by
    unfold fetch at fetched
    split_ifs at fetched
    exact List.mem_of_getElem? fetched
  simp only [loadWord, List.mem_cons, List.not_mem_nil, or_false] at mem
  rcases mem with rfl | rfl
  · cases decoded
    have offset : toInt (0xfff00000 : UInt32).toNat = skfNetOff := by decide +kernel
    have header : rawLoadPointer (packet (fun _ => 0) 60 14 (by decide)) skfNetOff = some 14 := by
      decide +kernel
    rw [GuardedInsn, offset]
    refine ⟨fun addr _ raw => ?_, by decide, fun nested => absurd nested (by decide)⟩
    rw [header] at raw
    cases raw
    decide
  · cases decoded
    trivial

/-- Three accepted filters that read past the end of a packet: a word that begins with the last byte, the
header of an attribute in an empty packet, and the inside of an attribute that claims to be longer
than the packet. -/
theorem packet_reads_past_end : skChkFilter (loadWord 0xfff00000) = true ∧ skChkFilter (loadWord 0xfffff010) = true ∧
    (execute ⟨.little, .bits64⟩ (packet (fun _ => 0) 1 0 (by decide)) (loadWord 0xfff00000)
      (start fun _ => 0)).2 = [0, 1, 2, 3] ∧
    (execute ⟨.little, .bits64⟩ (packet (fun _ => 0) 0 0 (by decide)) (loadWord 0xfffff010)
      (start fun _ => 0)).2 = [0, 1] ∧
    (execute ⟨.little, .bits64⟩ (packet (fun _ => 8) 4 0 (by decide)) (loadWord 0xfffff010)
      (start fun _ => 0)).2 = [0, 1, 4, 5] := by
  refine ⟨by decide, by decide, ?_, ?_, ?_⟩
  all_goals decide +kernel

end Filter
