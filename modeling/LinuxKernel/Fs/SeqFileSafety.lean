/- What `seq_read` copies when allocations and copies fail. -/
import Mathlib.Order.Basic
import Mathlib.Data.Nat.Basic
import LinuxKernel.Foundation.Transition
import LinuxKernel.Fs.SeqFile

namespace SeqFs

open List

variable {ω π : Type} {ops : Ops ω π} {s s' : State ω}

variable {p : Elem π} {pos : Nat}

theorem start_spec {pos' : Nat} (h : start ops s pos = (s', p, pos')) : s'.m = s.m ∧ s'.events = s.events := by
  obtain ⟨rfl, -⟩ := Prod.mk.inj h
  exact ⟨rfl, rfl⟩

theorem next_spec {pos' : Nat} {p : π} {q : Elem π} (h : next ops s p pos = (s', q, pos')) :
    s'.m = s.m ∧ s'.events = s.events := by
  obtain ⟨rfl, -⟩ := Prod.mk.inj h
  exact ⟨rfl, rfl⟩

theorem show_spec {p : π} {ret : Int} (h : show_ ops s p = (s', ret)) :
    (∃ text, s'.m = append s.m text) ∧ s'.events = s.events := by
  obtain ⟨rfl, -⟩ := Prod.mk.inj h
  exact ⟨⟨_, rfl⟩, rfl⟩

theorem alloc_spec {n : Nat} {ok : Bool} (h : alloc ops s n = (s', ok)) :
    s'.m = { s.m with size := n, buf := if ok then some [] else none } ∧ s'.events = s.events := by
  obtain ⟨rfl, rfl⟩ := Prod.mk.inj h
  exact ⟨rfl, rfl⟩

theorem copyOut_spec {e : Bool → Event} {ok : Bool} (h : copyOut ops s e = (s', ok)) :
    s'.m = s.m ∧ s'.events = s.events ++ [e ok] := by
  obtain ⟨rfl, rfl⟩ := Prod.mk.inj h
  exact ⟨rfl, rfl⟩

theorem flushed_spec (n : Nat) : (flushed s n).events = s.events ∧ (flushed s n).m.buf = s.m.buf ∧
    (flushed s n).m.size = s.m.size ∧ (flushed s n).m.count = s.m.count - n ∧
    (flushed s n).m.from_ = s.m.from_ + n := by
  rw [flushed]
  split <;> exact ⟨rfl, rfl, rfl, rfl, rfl⟩

structure Written (m : SeqFile) (upto : Nat) : Prop where
  data : ∃ data, m.buf = some data ∧ upto ≤ data.length
  size : upto ≤ m.size

/-- A later call may flush the buffer. -/
def Trusted (m : SeqFile) : Prop := m.count ≠ 0 → Written m (m.from_ + m.count)

/-- No byte is copied that was not shown, and what is flushed is inside the buffer. -/
def Event.Good : Event → Prop
  | .flush from_ count size bytes _ => (∀ b ∈ bytes, b.isSome) ∧ from_ + count ≤ size
  | .fill _ bytes _ => ∀ b ∈ bytes, b.isSome
  | .grow _ => True

/-- The bytes come to the user: `copy_to_user` does not fail. -/
def Event.delivered : Event → Bool
  | .flush _ _ _ _ ok => ok
  | .fill _ _ ok => ok
  | .grow _ => false

/-- The failures that do no harm: the buffer grows, and the copy of new records fails only while
`m->from` is zero. -/
def Event.Harmless : Event → Prop
  | .flush _ _ _ _ _ => True
  | .fill from_ _ ok => ok = true ∨ from_ = 0
  | .grow ok => ok = true

instance : (e : Event) → Decidable e.Good
  | .flush _ _ _ _ _ => inferInstanceAs (Decidable (_ ∧ _))
  | .fill _ bytes _ => inferInstanceAs (Decidable (∀ b ∈ bytes, b.isSome))
  | .grow _ => inferInstanceAs (Decidable True)

instance : (e : Event) → Decidable e.Harmless
  | .flush _ _ _ _ _ => inferInstanceAs (Decidable True)
  | .fill _ _ _ => inferInstanceAs (Decidable (_ ∨ _))
  | .grow ok => inferInstanceAs (Decidable (ok = true))

def Harmless (es : List Event) : Prop := ∀ e ∈ es, e.Harmless

/-- Without harm so far, all events are good. -/
def Fine (es : List Event) : Prop := Harmless es → ∀ e ∈ es, e.Good

theorem harmless_append {es : List Event} {e : Event} : Harmless (es ++ [e]) ↔ Harmless es ∧ e.Harmless := by
  simp [Harmless, or_imp, forall_and]

theorem Fine.append {es : List Event} {e : Event} (h : Fine es) (good : Harmless es → e.Good) : Fine (es ++ [e]) := by
  intro harmless
  have before := (harmless_append.mp harmless).1
  intro e' mem
  rcases mem_append.mp mem with mem | mem
  · exact h before e' mem
  · rw [mem_singleton.mp mem]
    exact good before

variable {m : SeqFile}

theorem bytesAt_isSome {start n upto : Nat} (h : Written m upto) (le : start + n ≤ upto) :
    ∀ b ∈ bytesAt m start n, b.isSome := by
  obtain ⟨data, buf, len⟩ := h.data
  intro b mem
  obtain ⟨i, lt, rfl⟩ := mem_map.mp mem
  have := mem_range.mp lt
  rw [buf, Option.getD_some, getElem?_eq_getElem (by omega), Option.isSome_some]

theorem Written.mono {m m' : SeqFile} {upto upto' : Nat} (h : Written m upto) (buf : m'.buf = m.buf)
    (size : m'.size = m.size) (le : upto' ≤ upto) : Written m' upto' := by
  obtain ⟨data, eq, len⟩ := h.data
  exact ⟨⟨data, buf.trans eq, le.trans len⟩, size ▸ le.trans h.size⟩

theorem Written.shown (h : Written m m.count) (text : List UInt8) (fits : (append m text).count ≠ m.size) :
    Written (append m text) (append m text).count ∧ (append m text).count < m.size := by
  obtain ⟨data, buf, len⟩ := h.data
  have short : m.count + text.length < m.size := by
    by_contra full
    exact fits (if_neg full)
  have count : (append m text).count = m.count + text.length := if_pos short
  rw [count]
  refine ⟨⟨⟨_, by rw [append, buf]; rfl, ?_⟩, short.le⟩, short⟩
  simp only [length_append, length_take]
  omega

theorem Written.kept (h : Written m m.count) (text : List UInt8) : Written (append m text) m.count := by
  obtain ⟨data, buf, len⟩ := h.data
  refine ⟨⟨data.take m.count ++ text.take (m.size - m.count), ?_, ?_⟩, h.size⟩
  · rw [append, buf]
    rfl
  · rw [length_append, length_take]
    omega

theorem trusted_of_count (h : m.count = 0) : Trusted m := fun pos => absurd h pos

theorem shown_first {p : π} {ret : Int} {s2 : State ω} (written : Written s.m 0) (count : s.m.count = 0)
    (shown : show_ ops s p = (s', ret)) (eq : (if ret ≠ 0 then s'.setCount 0 else s') = s2) :
    s2.events = s.events ∧ Written s2.m 0 ∧ (s2.m.count ≠ s2.m.size → Written s2.m s2.m.count) := by
  obtain ⟨⟨text, m1⟩, events⟩ := show_spec shown
  have old : Written s.m s.m.count := count ▸ written
  have still : Written s'.m 0 := by
    rw [m1]
    exact (old.kept text).mono rfl rfl (Nat.zero_le _)
  subst eq
  split
  · exact ⟨events, still.mono rfl rfl le_rfl, fun _ => still.mono rfl rfl le_rfl⟩
  · refine ⟨events, still, ?_⟩
    intro fits
    rw [m1] at fits ⊢
    exact (old.shown text fits).1

variable {es : List Event} {fuel offset : Nat}

/-- `traverse` copies nothing, and a later call may flush what it leaves in the buffer. -/
abbrev Positioned (es : List Event) : Except (State ω) (State ω × Int) → Prop :=
  Fuel.Holds (fun s => s.events = es) fun r => r.1.events = es ∧ (r.2 = 0 → Trusted r.1.m)

theorem traverseFrom_positioned {index : Nat} (written : Written s.m 0)
    (count : s.m.count = 0) (quiet : s.events = es) : Positioned es (traverseFrom ops offset fuel s p pos index) := by
  induction fuel generalizing s p pos index with
  | zero => exact quiet
  | succ fuel ih =>
    cases p with
    | null | err code => exact ⟨quiet, fun _ => trusted_of_count count⟩
    | elem p =>
      rw [traverseFrom]
      rcases shown : show_ ops s p with ⟨s1, error⟩
      dsimp only
      split
      · rename_i neg
        exact ⟨(show_spec shown).2.trans quiet, fun zero => absurd zero (Int.ne_of_lt neg)⟩
      generalize eq2 : (if error ≠ 0 then s1.setCount 0 else s1) = s2
      obtain ⟨events, still, written2⟩ := shown_first written count shown eq2
      have quiet2 : s2.events = es := events.trans quiet
      split
      · rcases grown : alloc ops (stop ops s2) (2 * s2.m.size) with ⟨s3, ok⟩
        refine ⟨(alloc_spec grown).2.trans quiet2, ?_⟩
        intro zero
        cases ok <;> cases zero
      rename_i fits
      split
      · rename_i inside
        refine ⟨quiet2, fun _ _ => (written2 fits).mono rfl rfl ?_⟩
        change offset - pos + (s2.m.count - (offset - pos)) ≤ s2.m.count
        omega
      split
      · exact ⟨quiet2, fun _ => trusted_of_count rfl⟩
      rcases advanced : next ops (s2.setCount 0) p index with ⟨s3, q, index'⟩
      obtain ⟨m3, events3⟩ := next_spec advanced
      apply ih
      · rw [m3]
        exact (written2 fits).mono rfl rfl (Nat.zero_le _)
      · rw [m3]
        rfl
      · exact events3.trans quiet2

theorem grab_spec {ok : Bool} (h : grab ops s = (s', ok)) :
    s'.events = s.events ∧ s'.m.count = s.m.count ∧ s'.m.from_ = s.m.from_ ∧ (ok = true → Written s'.m 0) ∧
      (s.m.buf.isSome → s'.m = s.m ∧ ok = true) := by
  rw [grab] at h
  split at h
  · rename_i none
    obtain ⟨m', events⟩ := alloc_spec h
    rw [m']
    refine ⟨events, rfl, rfl, ?_, ?_⟩
    · rintro rfl
      exact ⟨⟨[], rfl, Nat.zero_le _⟩, Nat.zero_le _⟩
    · intro some
      rw [Option.isNone_iff_eq_none] at none
      rw [none] at some
      cases some
  · rename_i some
    obtain ⟨rfl, rfl⟩ := Prod.mk.inj h
    obtain ⟨data, buf⟩ := Option.ne_none_iff_exists'.mp (by simpa using some)
    exact ⟨rfl, rfl, rfl, fun _ => ⟨⟨data, buf, Nat.zero_le _⟩, Nat.zero_le _⟩, fun _ => ⟨rfl, rfl⟩⟩

theorem traverse_positioned (quiet : s.events = es) : Positioned es (traverse ops s fuel offset) := by
  rw [traverse]
  split
  · exact ⟨quiet, fun _ => trusted_of_count rfl⟩
  rcases grabbed : grab ops ((s.setCount 0).setFrom 0) with ⟨s1, ok⟩
  obtain ⟨events1, count1, -, written1, -⟩ := grab_spec grabbed
  dsimp only
  cases ok with
  | false => exact ⟨events1.trans quiet, fun zero => by cases zero⟩
  | true =>
    rcases started : start ops s1 0 with ⟨s2, p, index⟩
    obtain ⟨m2, events2⟩ := start_spec started
    apply traverseFrom_positioned
    · rw [m2]
      exact written1 rfl
    · rw [m2, count1]
      rfl
    · exact events2.trans (events1.trans quiet)

theorem traverseAgain_positioned {n : Nat} (quiet : s.events = es) :
    Positioned es (traverseAgain ops fuel offset n s) := by
  induction n generalizing s with
  | zero => exact quiet
  | succ n ih =>
    apply (traverse_positioned quiet).bind
    rintro ⟨s1, err⟩ ⟨quiet1, trusted⟩
    dsimp only at *
    split
    · exact ih quiet1
    · exact ⟨quiet1, trusted⟩

/-- The state after a call, and where it is cut. -/
abbrev Kept : Except (State ω) (State ω × Int × Nat) → Prop :=
  Fuel.Holds (fun s => Fine s.events) fun r =>
    Fine r.1.events ∧ (Harmless r.1.events → Trusted r.1.m)

def AfterFind (s : State ω) : Found π → Prop
  | .fill _ _ => Written s.m s.m.count
  | .done _ => Harmless s.events → Trusted s.m

theorem findRecord_kept (written : Written s.m 0) (count : s.m.count = 0) (fine : Fine s.events) :
    Fuel.Holds (fun s => Fine s.events) (fun r => Fine r.1.events ∧ AfterFind r.1 r.2)
      (findRecord ops fuel s p pos) := by
  induction fuel generalizing s p pos with
  | zero => exact fine
  | succ fuel ih =>
    cases p with
    | null | err code => exact ⟨fine, fun _ => trusted_of_count rfl⟩
    | elem p =>
      rw [findRecord]
      rcases shown : show_ ops s p with ⟨s1, error⟩
      dsimp only
      split
      · exact ⟨(show_spec shown).2 ▸ fine, fun _ => trusted_of_count rfl⟩
      generalize eq2 : (if error ≠ 0 then s1.setCount 0 else s1) = s2
      obtain ⟨events, still, written2⟩ := shown_first written count shown eq2
      rw [← events] at fine
      split
      · rename_i empty
        apply ih
        · exact still.mono rfl rfl le_rfl
        · exact empty
        · exact fine
      split
      · rename_i fits
        exact ⟨fine, written2 fits.ne⟩
      rcases grown : alloc ops (stop ops s2) (2 * s2.m.size) with ⟨s3, ok⟩
      obtain ⟨m3, events3⟩ := alloc_spec grown
      have fine3 : Fine (s3.log (.grow ok)).events := by
        apply Fine.append
        · rw [events3]
          exact fine
        · exact fun _ => trivial
      cases ok with
      | false =>
        refine ⟨fine3, ?_⟩
        intro harmless
        cases (harmless_append.mp harmless).2
      | true =>
        apply ih
        · change Written { s3.m with count := 0 } 0
          rw [m3]
          exact ⟨⟨[], rfl, Nat.zero_le _⟩, Nat.zero_le _⟩
        · rfl
        · exact fine3

theorem fillMore_kept {size : Nat} {p : π} (written : Written s.m s.m.count) (fine : Fine s.events) :
    Fuel.Holds (fun s => Fine s.events) (fun r => Fine r.1.events ∧ Written r.1.m r.1.m.count)
      (fillMore ops size fuel s p pos) := by
  induction fuel generalizing s p pos with
  | zero => exact fine
  | succ fuel ih =>
    rw [fillMore]
    split
    · rcases advanced : next ops s p pos with ⟨s1, q, pos'⟩
      obtain ⟨m1, events1⟩ := next_spec advanced
      have fine1 : Fine s1.events := events1 ▸ fine
      have written1 : Written s1.m s1.m.count := m1 ▸ written
      cases q with
      | null | err code => exact ⟨fine1, written1⟩
      | elem q =>
        rcases shown : show_ ops s1 q with ⟨s2, err⟩
        obtain ⟨⟨text, m2⟩, events2⟩ := show_spec shown
        have fine2 : Fine s2.events := events2 ▸ fine1
        simp only [shown]
        split
        · have before : Written (s2.setCount s.m.count).m s.m.count := by
            have kept := written1.kept text
            rw [← m2, m1] at kept
            exact kept.mono rfl rfl le_rfl
          split
          · exact ⟨fine2, before⟩
          · exact ih before fine2
        · rename_i fits
          apply ih _ fine2
          rw [m2] at fits ⊢
          exact (written1.shown text fun full => fits (.inl full)).1
    · exact ⟨fine, written⟩

theorem done_kept {copied ppos : Nat} {err : Int} (fine : Fine s.events) (trusted : Harmless s.events → Trusted s.m) :
    Kept (.ok (done s copied err ppos)) := by
  rw [done]
  split
  · exact ⟨fine, trusted⟩
  · exact ⟨fine, fun harmless pos => (trusted harmless pos).mono rfl rfl le_rfl⟩

theorem copyRecords_kept {size copied ppos : Nat} (written : Written s.m s.m.count) (fine : Fine s.events) :
    Kept (.ok (copyRecords ops s size pos copied ppos)) := by
  rw [copyRecords]
  rcases out : copyOut ops s (.fill s.m.from_ (bytesAt s.m 0 (min s.m.count size))) with ⟨s1, ok⟩
  obtain ⟨m1, events1⟩ := copyOut_spec out
  have fine1 : Fine s1.events := by
    rw [events1]
    apply fine.append
    intro _
    exact bytesAt_isSome written (by omega)
  dsimp only
  cases ok with
  | false =>
    apply done_kept fine1
    intro harmless _
    rw [events1] at harmless
    -- the records are still there for the next call
    have zero : s.m.from_ = 0 := by simpa [Event.Harmless] using (harmless_append.mp harmless).2
    rw [m1]
    exact written.mono rfl rfl (by omega)
  | true =>
    rw [if_neg (by simp), recordsCopied]
    split
    · apply done_kept
      · exact fine1
      intro _ _
      rw [← m1] at written
      refine written.mono rfl rfl ?_
      change min s.m.count size + (s1.m.count - min s.m.count size) ≤ s1.m.count
      rw [m1]
      omega
    · rename_i empty
      apply done_kept
      · exact fine1
      · exact fun _ => trusted_of_count (not_not.mp empty)

theorem readRecords_kept {size copied ppos : Nat} (written : Written s.m 0) (count : s.m.count = 0)
    (fine : Fine s.events) : Kept (readRecords ops s fuel size copied ppos) := by
  apply Fuel.Holds.bind (findRecord_kept (s := (start ops s s.m.index).1) written count fine)
  rintro ⟨s1, found⟩ ⟨fine1, after⟩
  cases found with
  | done err => exact done_kept fine1 after
  | fill p pos =>
    apply Fuel.Holds.bind (fillMore_kept after fine1)
    rintro ⟨s2, pos'⟩ ⟨fine2, written2⟩
    exact copyRecords_kept written2 fine2

variable {size ppos : Nat}

theorem flush_kept (fine : Fine s.events) (still : Written s.m 0) (pos : s.m.count ≠ 0)
    (trusted : Harmless s.events → Trusted s.m) : Kept (flush ops s fuel size ppos) := by
  rw [flush]
  rcases out : copyOut ops s (.flush s.m.from_ s.m.count s.m.size (bytesAt s.m s.m.from_ (min s.m.count size)))
    with ⟨s1, ok⟩
  obtain ⟨m1, events1⟩ := copyOut_spec out
  obtain ⟨events2, buf2, size2, count2, from2⟩ := flushed_spec (min s.m.count size)
  have fine1 : Fine s1.events := by
    rw [events1]
    apply fine.append
    intro harmless
    have written := trusted harmless pos
    exact ⟨bytesAt_isSome written (by omega), written.size⟩
  have before : Harmless s1.events → Written s1.m (s.m.from_ + s.m.count) := by
    intro harmless
    rw [events1] at harmless
    rw [m1]
    exact trusted (harmless_append.mp harmless).1 pos
  rw [m1] at count2 from2
  dsimp only
  split
  · exact done_kept fine1 fun harmless _ => (before harmless).mono rfl rfl (by rw [m1])
  split
  · apply done_kept (events2 ▸ fine1)
    intro harmless _
    rw [events2] at harmless
    exact (before harmless).mono buf2 size2 (by omega)
  apply readRecords_kept
  · rw [← m1] at still
    exact still.mono buf2 size2 le_rfl
  · omega
  · rw [events2]
    exact fine1

theorem readHere_kept (fine : Fine s.events) (trusted : Harmless s.events → Trusted s.m) :
    Kept (readHere ops s fuel size ppos) := by
  rw [readHere]
  rcases grabbed : grab ops s with ⟨s1, ok⟩
  obtain ⟨events1, count1, from1, written1, same⟩ := grab_spec grabbed
  rw [← events1] at fine trusted
  have trusted1 : Harmless s1.events → Trusted s1.m := by
    intro harmless pos
    have written := trusted harmless (count1 ▸ pos)
    obtain ⟨data, buf, -⟩ := written.data
    rw [(same (by rw [buf]; rfl)).1]
    exact written
  dsimp only
  cases ok with
  | false => exact done_kept fine trusted1
  | true =>
    rw [if_neg (by simp)]
    split
    · rename_i pos
      exact flush_kept fine (written1 rfl) pos trusted1
    · rename_i zero
      exact readRecords_kept (written1 rfl) (not_not.mp zero) fine

theorem Positioned.fine {x : Except (State ω) (State ω × Int)} (h : Positioned es x) (fine : Fine es) :
    Fuel.Holds (fun s => Fine s.events) (fun r => Fine r.1.events ∧ (r.2 = 0 → Trusted r.1.m)) x :=
  h.mono (fun _ quiet => quiet ▸ fine) fun _ r => ⟨r.1 ▸ fine, r.2⟩

theorem seqRead_kept (fine : Fine s.events) (trusted : Harmless s.events → Trusted s.m) :
    Kept (seqRead ops s fuel size ppos) := by
  rw [seqRead]
  split
  · have positioned : Positioned s.events (traverseAgain ops fuel ppos fuel (s.setReadPos ppos)) :=
      traverseAgain_positioned rfl
    apply (positioned.fine fine).bind
    rintro ⟨s1, err⟩ ⟨fine1, trusted1⟩
    dsimp only at *
    split
    · exact done_kept fine1 fun _ => trusted_of_count rfl
    · rename_i zero
      exact readHere_kept fine1 fun _ => trusted1 (not_not.mp zero)
  · exact readHere_kept fine trusted

theorem seqLseek_kept {position : Nat} {origin : Int} {dest : Int} (fine : Fine s.events)
    (trusted : Harmless s.events → Trusted s.m) : Kept (seqLseek ops s fuel dest origin position) := by
  rw [seqLseek]
  split
  · exact ⟨fine, trusted⟩
  dsimp only
  generalize (if origin = 1 then Int.bmod (dest + position) (2 ^ 64) else dest) = target
  split
  · exact ⟨fine, trusted⟩
  split
  · apply ((traverseAgain_positioned rfl).fine fine).bind
    rintro ⟨s1, err⟩ ⟨fine1, trusted1⟩
    split
    · exact ⟨fine1, fun _ => trusted_of_count rfl⟩
    · rename_i zero
      exact ⟨fine1, fun _ pos => (trusted1 (not_not.mp zero) pos).mono rfl rfl le_rfl⟩
  · exact ⟨fine, trusted⟩

section Runs

variable (ops) {f f' : File ω}

def Step (f f' : File ω) : Prop := ∃ (call : Call) (fuel : Nat) (ret : Int), call.exec ops fuel f = .ok (f', ret)

def stateOf : Except (State ω) (File ω × Int) → State ω
  | .error s => s
  | .ok r => r.1.s

structure Inv (f : File ω) : Prop where
  fine : Fine f.s.events
  trusted : Harmless f.s.events → Trusted f.s.m

theorem exec_kept (h : Inv f) (call : Call) (fuel : Nat) :
    Fuel.Holds (fun s => Fine s.events) (fun r => Inv r.1) (call.exec ops fuel f) := by
  cases call with
  | read size | pread size pos => exact (seqRead_kept h.fine h.trusted).bind fun r kept => ⟨kept.1, kept.2⟩
  | lseek offset origin => exact (seqLseek_kept h.fine h.trusted).bind fun r kept => ⟨kept.1, kept.2⟩

variable {ops}

theorem Inv.of_reachable (h : Transition.Reachable Opened (Step ops) f) : Inv f := by
  apply h.invariant
  · rintro f ⟨world, rfl⟩
    exact ⟨fun _ _ mem => absurd mem not_mem_nil, fun _ => trusted_of_count rfl⟩
  · rintro f f' inv ⟨call, fuel, ret, run⟩
    have kept := exec_kept ops inv call fuel
    rw [run] at kept
    exact kept

end Runs

/-- A sequence of texts in which one copy and one allocation fail; the world counts both. -/
def failingOps (texts : List (List UInt8)) (badCopy badAlloc : Nat) : Ops (Nat × Nat) (List UInt8) where
  start w pos := (w, (texts[pos]?).elim .null .elem, pos)
  next w _ pos := (w, (texts[pos + 1]?).elim .null .elem, pos + 1)
  show_ w text := (w, text, 0)
  stop w := w
  kmalloc w _ := ((w.1, w.2 + 1), w.2 != badAlloc)
  copyToUser w := ((w.1 + 1, w.2), w.1 != badCopy)
  pageSize := 4096
  pageSize_pos := by decide

/-- In every run whose failures are harmless, also inside a call that has not returned, every byte that is
copied was shown into the current buffer, and a flush stays inside the buffer. -/
theorem seq_read_copies_shown {f : File ω} (h : Transition.Reachable Opened (Step ops) f) (call : Call) (fuel : Nat)
    (harmless : Harmless (stateOf (call.exec ops fuel f)).events) :
    ∀ e ∈ (stateOf (call.exec ops fuel f)).events, e.Good := by
  have kept := exec_kept ops (Inv.of_reachable h) call fuel
  cases run : call.exec ops fuel f with
  | error s =>
    rw [run] at kept harmless
    exact kept harmless
  | ok r =>
    rw [run] at kept harmless
    exact kept.fine harmless

/-- The copy of the first record fails and its bytes stay for the next call. -/
theorem seq_read_copies_shown_again : Opened (⟨seqOpen (0, 0), 0⟩ : File (Nat × Nat)) ∧
      ∀ e ∈ (stateOf ((Call.read 2).exec (failingOps [[97]] 0 9) 20 ⟨seqOpen (0, 0), 0⟩)).events, e.Good :=
  ⟨⟨(0, 0), rfl⟩,
    seq_read_copies_shown (.start ⟨(0, 0), rfl⟩) (.read 2) 20 (by unfold Harmless; decide +kernel)⟩

/-- Calls one after the other, as long as they return. -/
def runCalls {ω π : Type} (ops : Ops ω π) (fuel : Nat) : List Call → File ω → Option (File ω)
  | [], f => some f
  | call :: calls, f =>
    match call.exec ops fuel f with
    | .ok r => runCalls ops fuel calls r.1
    | .error _ => none

theorem reachable_runCalls {ops : Ops ω π} {fuel : Nat} {calls : List Call} {f f' : File ω}
    (h : Transition.Reachable Opened (Step ops) f) (run : runCalls ops fuel calls f = some f') :
    Transition.Reachable Opened (Step ops) f' := by
  induction calls generalizing f with
  | nil =>
    obtain rfl := Option.some.inj run
    exact h
  | cons call calls ih =>
    rw [runCalls] at run
    split at run
    · rename_i r exec
      exact ih (h.next ⟨call, fuel, r.2, exec⟩) run
    · cases run

/-- A run that copies a byte that was not shown. -/
theorem reachable_not_good {ops : Ops ω π} (world : ω) (fuel : Nat) (calls : List Call)
    (bad : ((runCalls ops fuel calls ⟨seqOpen world, 0⟩).any fun f => f.s.events.any fun e =>
      e.delivered && !decide e.Good) = true) :
    ∃ f, Transition.Reachable Opened (Step ops) f ∧ ∃ e ∈ f.s.events, e.delivered = true ∧ ¬ e.Good := by
  cases run : runCalls ops fuel calls ⟨seqOpen world, 0⟩ with
  | none =>
    rw [run] at bad
    cases bad
  | some f =>
    rw [run] at bad
    obtain ⟨e, mem, not_good⟩ := any_eq_true.mp bad
    exact ⟨f, reachable_runCalls (.start ⟨world, rfl⟩) run, e, mem, by simpa using not_good⟩

/-- A record is half read; the next call flushes the rest, and the copy of the second record fails while
`m->from` is 4. The third call then flushes two bytes behind that record. The same happens when the buffer
cannot grow for a long record: `m->count` is kept and the next buffer is flushed unwritten. -/
theorem seq_read_copies_stale :
    (∃ f, Transition.Reachable Opened (Step (failingOps [[97, 97, 97, 97], [98, 98]] 2 9)) f ∧
      ∃ e ∈ f.s.events, e.delivered = true ∧ ¬ e.Good) ∧
    ∃ f, Transition.Reachable Opened (Step (failingOps [replicate 4096 97] 9 1)) f ∧
      ∃ e ∈ f.s.events, e.delivered = true ∧ ¬ e.Good := by
  constructor
  · exact reachable_not_good (0, 0) 20 [.read 2, .read 4, .read 2] (by decide +kernel)
  · exact reachable_not_good (0, 0) 20 [.read 2, .read 4] (by decide +kernel)

end SeqFs
