/- Reading an unchanging sequence of records: a sequence file is the text of its records. -/
import Mathlib.Algebra.Order.BigOperators.Group.List
import Mathlib.Data.List.TakeDrop
import Mathlib.Algebra.Order.Ring.Nat
import LinuxKernel.Foundation.Transition
import LinuxKernel.Fs.SeqFile

namespace SeqFs

open List

/-- A record: `show` appends its text and may ask to skip it. -/
structure Record where
  text : List UInt8
  skip : Bool

def Record.shown (r : Record) : List UInt8 := if r.skip then [] else r.text

/-- A fixed sequence; nothing fails. -/
def recordOps (recs : List Record) (pageSize : Nat) (pos : 0 < pageSize) : Ops Unit Record where
  start _ pos := ((), (recs[pos]?).elim .null .elem, pos)
  next _ _ pos := ((), (recs[pos + 1]?).elim .null .elem, pos + 1)
  show_ _ r := ((), r.text, if r.skip then 1 else 0)
  stop _ := ()
  kmalloc _ _ := ((), true)
  copyToUser _ := ((), true)
  pageSize := pageSize
  pageSize_pos := pos

def content (recs : List Record) : List UInt8 := recs.flatMap Record.shown

def Event.copied : Event → List (Option UInt8)
  | .flush _ _ _ bytes _ => bytes
  | .fill _ bytes _ => bytes
  | .grow _ => []

def copiedBytes (es : List Event) : List (Option UInt8) := es.flatMap Event.copied

variable {recs : List Record}

def offsetOf (recs : List Record) (i : Nat) : Nat := (content (recs.take i)).length

variable {r : Record} {i : Nat}

theorem offsetOf_succ (h : recs[i]? = some r) : offsetOf recs (i + 1) = offsetOf recs i + r.shown.length := by
  obtain ⟨lt, rfl⟩ := List.getElem?_eq_some_iff.mp h
  rw [offsetOf, offsetOf, content, content, take_succ_eq_append_getElem lt, flatMap_append,
    length_append, flatMap_singleton]

theorem offsetOf_end (h : recs.length ≤ i) : offsetOf recs i = (content recs).length := by
  rw [offsetOf, take_of_length_le h]

theorem content_split (i : Nat) : content recs = content (recs.take i) ++ content (recs.drop i) := by
  rw [content, content, content, ← flatMap_append, take_append_drop]

theorem drop_offsetOf (i : Nat) : (content recs).drop (offsetOf recs i) = content (recs.drop i) := by
  rw [content_split i, offsetOf, drop_left]

theorem drop_offsetOf_eq (h : recs[i]? = some r) :
    (content recs).drop (offsetOf recs i) = r.shown ++ (content recs).drop (offsetOf recs (i + 1)) := by
  obtain ⟨lt, rfl⟩ := List.getElem?_eq_some_iff.mp h
  rw [drop_offsetOf, drop_offsetOf, drop_eq_getElem_cons lt]
  rfl

theorem offsetOf_le (i : Nat) : offsetOf recs i ≤ (content recs).length := by
  rw [content_split i, length_append]
  exact Nat.le_add_right _ _

variable {m : SeqFile} {n start : Nat} {data : List UInt8}

theorem bytesAt_eq (buf : m.buf = some data)
    (le : start + n ≤ data.length) : bytesAt m start n = ((data.drop start).take n).map some := by
  apply ext_getElem
  · simp only [bytesAt, length_map, length_range, length_take, length_drop]
    omega
  · intro i lt lt'
    simp only [bytesAt] at lt
    simp [bytesAt, buf]

/-- The buffer holds `n` bytes of the file from `pos` on, up to the end of the record `i`. -/
structure Holding (recs : List Record) (m : SeqFile) (start n pos i : Nat) : Prop where
  data : ∃ data, m.buf = some data ∧ start + n ≤ data.length ∧
    (data.drop start).take n = ((content recs).drop pos).take n
  upto : offsetOf recs (i + 1) = pos + n

def StartsAt (recs : List Record) (i pos : Nat) : Prop :=
  offsetOf recs i = pos ∨ recs.length ≤ i ∧ (content recs).length ≤ pos

structure At (recs : List Record) (m : SeqFile) (pos : Nat) : Prop where
  size : m.buf.isSome → 0 < m.size
  empty : m.count = 0 → StartsAt recs m.index pos
  left : m.count ≠ 0 → Holding recs m m.from_ m.count pos m.index

variable {pos k : Nat}

theorem Holding.bytes (h : Holding recs m start n pos i) (le : k ≤ n) :
    bytesAt m start k = (((content recs).drop pos).take k).map some := by
  obtain ⟨data, buf, len, eq⟩ := h.data
  rw [bytesAt_eq buf (by omega)]
  have take := congrArg (List.take k) eq
  rw [take_take, take_take, min_eq_left le] at take
  rw [take]

theorem Holding.rest {m m' : SeqFile} (h : Holding recs m start n pos i) (le : k ≤ n)
    (buf : m'.buf = m.buf) : Holding recs m' (start + k) (n - k) (pos + k) i := by
  obtain ⟨data, eq, len, slice⟩ := h.data
  refine ⟨⟨data, buf.trans eq, by omega, ?_⟩, by rw [h.upto]; omega⟩
  have drop := congrArg (List.drop k) slice
  rw [drop_take, drop_take, drop_drop, drop_drop] at drop
  exact drop

theorem Holding.le (h : Holding recs m start n pos i) : pos + n ≤ (content recs).length :=
  h.upto ▸ offsetOf_le (i + 1)

variable {text : List UInt8}

theorem append_fits (buf : m.buf = some data) (fits : m.count + text.length < m.size) :
    (append m text).buf = some (data.take m.count ++ text) ∧ (append m text).count = m.count + text.length := by
  constructor
  · have all : text.take (m.size - m.count) = text := take_of_length_le (by omega)
    simp [append, buf, all]
  · exact if_pos fits

theorem append_full (full : ¬ m.count + text.length < m.size) :
    (append m text).count = m.size := if_neg full

theorem Holding.kept {m m' : SeqFile} (h : Holding recs m 0 m.count pos i)
    (buf' : m'.buf = (append m text).buf) : Holding recs m' 0 m.count pos i := by
  obtain ⟨data, buf, len, slice⟩ := h.data
  rw [drop_zero] at slice
  refine ⟨⟨data.take m.count ++ text.take (m.size - m.count), ?_, ?_, ?_⟩, h.upto⟩
  · rw [buf', append, buf]
    rfl
  · rw [length_append, length_take]
    omega
  · rw [drop_zero, take_append_of_le_length (by rw [length_take]; omega), take_take, min_self,
      slice]

theorem holding_shown (get : recs[i]? = some r) (buf : m.buf = some r.shown) :
    Holding recs m 0 r.shown.length (offsetOf recs i) i := by
  refine ⟨⟨r.shown, buf, by omega, ?_⟩, offsetOf_succ get⟩
  rw [drop_offsetOf_eq get, drop_zero, take_length, take_left]

theorem Holding.more (h : Holding recs m 0 m.count pos i)
    (get : recs[i + 1]? = some r) (noSkip : r.skip = false) (fits : m.count + r.text.length < m.size) :
    Holding recs (append m r.text) 0 (m.count + r.text.length) pos (i + 1) := by
  obtain ⟨data, buf, len, slice⟩ := h.data
  rw [drop_zero] at slice
  have shown : r.shown = r.text := by rw [Record.shown, noSkip]; rfl
  refine ⟨⟨data.take m.count ++ r.text, (append_fits buf fits).1, ?_, ?_⟩, ?_⟩
  · rw [length_append, length_take]
    omega
  · have behind : (content recs).drop (pos + m.count) = r.text ++ (content recs).drop (offsetOf recs (i + 2)) := by
      rw [← h.upto, drop_offsetOf_eq get, shown]
    rw [drop_zero, take_of_length_le (by rw [length_append, length_take]; omega), take_add,
      slice, drop_drop, behind, take_left]
  · rw [offsetOf_succ get, h.upto, shown]
    omega

section Loops

variable {pageSize longest : Nat} {page_pos : 0 < pageSize} {ops : Ops Unit Record}
  (fixed : ops = recordOps recs pageSize page_pos)

def elemAt (recs : List Record) (i : Nat) : Elem Record := (recs[i]?).elim .null .elem

/-- The parts of the state that a loop leaves alone. -/
structure Alike (s s' : State Unit) : Prop where
  copied : copiedBytes s'.events = copiedBytes s.events
  readPos : s'.m.readPos = s.m.readPos

theorem Alike.trans {s s' s'' : State Unit} (h : Alike s s') (h' : Alike s' s'') : Alike s s'' :=
  ⟨h'.copied.trans h.copied, h'.readPos.trans h.readPos⟩

/-- What the first loop of `seq_read` gives at `pos`: the next record with a text, or nothing. -/
def FoundAt (recs : List Record) (pos : Nat) (s : State Unit) : Found Record → Prop
  | .fill r i => recs[i]? = some r ∧ offsetOf recs i = pos ∧ s.m.buf = some r.shown ∧
      s.m.count = r.shown.length ∧ 0 < s.m.count ∧ s.m.count < s.m.size
  | .done err => err = 0 ∧ s.m.count = 0 ∧ StartsAt recs s.m.index pos ∧ (content recs).length ≤ pos ∧ 0 < s.m.size

/-- The buffer after a record was shown into it and, if it is to be skipped, dropped. -/
def afterShow (s : State Unit) (r : Record) : State Unit :=
  let s' : State Unit := { s with m := append s.m r.text }
  if r.skip then s'.setCount 0 else s'

theorem afterShow_alike (s : State Unit) (r : Record) : Alike s (afterShow s r) ∧
    (afterShow s r).m.size = s.m.size ∧ (afterShow s r).m.index = s.m.index ∧
    ((afterShow s r).m.buf.isSome ↔ s.m.buf.isSome) := by
  rw [afterShow]
  split
  · exact ⟨⟨rfl, rfl⟩, rfl, rfl, by simp [State.setCount, append]⟩
  · exact ⟨⟨rfl, rfl⟩, rfl, rfl, by simp [append]⟩

variable {s : State Unit}

theorem afterShow_empty (buf : s.m.buf = some data) (count : s.m.count = 0)
    (size : 0 < s.m.size) (r : Record) : (r.shown.length < s.m.size ∧ (afterShow s r).m.count = r.shown.length ∧
      (r.shown ≠ [] → (afterShow s r).m.buf = some r.shown)) ∨
    (s.m.size ≤ r.text.length ∧ (afterShow s r).m.count = s.m.size) := by
  rw [afterShow, Record.shown]
  cases r.skip with
  | true => exact .inl ⟨size, rfl, fun h => absurd rfl h⟩
  | false =>
    by_cases fits : s.m.count + r.text.length < s.m.size
    · obtain ⟨buf', count'⟩ := append_fits buf fits
      rw [count] at buf'
      rw [count, Nat.zero_add] at count' fits
      exact .inl ⟨fits, count', fun _ => buf'⟩
    · have full := append_full fits
      rw [count, Nat.zero_add] at fits
      exact .inr ⟨Nat.le_of_not_lt fits, full⟩

def grown (s : State Unit) : State Unit :=
  { s with m := { s.m with size := 2 * s.m.size, buf := some [], count := 0 }, events := s.events ++ [.grow true] }

theorem done_zero (s : State Unit) (copied ppos : Nat) :
    done s copied 0 ppos = (s.setReadPos (s.m.readPos + copied), (copied : Int), ppos + copied) := by
  rw [done]
  split
  · rename_i zero
    subst zero
    rfl
  · rfl

structure Copied (recs : List Record) (pos size k : Nat) (s s' : State Unit) : Prop where
  bytes : copiedBytes s'.events = copiedBytes s.events ++ (((content recs).drop pos).take k).map some
  at_ : At recs s'.m (pos + k)
  le : k ≤ size
  inside : k = 0 ∨ pos + k ≤ (content recs).length
  stuck : 0 < size → k = 0 → (content recs).length ≤ pos

theorem Copied.after {s s1 s' : State Unit} {size : Nat} (alike : Alike s s1) (h : Copied recs pos size k s1 s') :
    Copied recs pos size k s s' :=
  ⟨by rw [h.bytes, alike.copied], h.at_, h.le, h.inside, h.stuck⟩

theorem flushed_at (at_ : At recs s.m pos) (nonempty : s.m.count ≠ 0)
    (le : n ≤ s.m.count) : At recs (flushed s n).m (pos + n) ∧ Alike s (flushed s n) ∧
      (flushed s n).m.buf = s.m.buf ∧ (flushed s n).m.count = s.m.count - n := by
  have holding := at_.left nonempty
  have rest := holding.rest le rfl
  rw [flushed]
  split
  · rename_i zero
    have all : s.m.count - n = 0 := zero
    refine ⟨⟨at_.size, fun _ => .inl ?_, fun left => absurd zero left⟩, ⟨rfl, rfl⟩, rfl, rfl⟩
    change offsetOf recs (s.m.index + 1) = _
    rw [holding.upto]
    omega
  · rename_i left
    exact ⟨⟨at_.size, fun zero => absurd zero left, fun _ => ⟨rest.data, rest.upto⟩⟩, ⟨rfl, rfl⟩, rfl, rfl⟩

theorem Copied.append {s s1 s' : State Unit} {size k' : Nat}
    (bytes : copiedBytes s1.events = copiedBytes s.events ++ (((content recs).drop pos).take k).map some)
    (pos_k : 0 < k) (le : k ≤ size) (inside : pos + k ≤ (content recs).length)
    (h : Copied recs (pos + k) (size - k) k' s1 s') : Copied recs pos size (k + k') s s' where
  bytes := by
    rw [h.bytes, bytes, append_assoc, ← map_append, take_add, drop_drop]
  at_ := by
    rw [← Nat.add_assoc]
    exact h.at_
  le := by
    have := h.le
    omega
  inside := by
    have := h.inside
    omega
  stuck := by omega

include fixed

theorem findRecord_elem {fuel : Nat} (s : State Unit) (r : Record) :
    findRecord ops (fuel + 1) s (.elem r) i = if (afterShow s r).m.count = 0 then
        findRecord ops fuel ((afterShow s r).setIndex (i + 1)) (elemAt recs (i + 1)) (i + 1)
      else if (afterShow s r).m.count < (afterShow s r).m.size then .ok (afterShow s r, .fill r i) else
        findRecord ops fuel (grown (afterShow s r))
          (elemAt recs (afterShow s r).m.index) (afterShow s r).m.index := by
  subst fixed
  rw [findRecord, afterShow]
  cases skip : r.skip with
  | true => simp [show_, recordOps, skip, next, elemAt, State.setCount]
  | false => simp [show_, recordOps, skip, next, start, elemAt, alloc, stop, grown, State.log, State.setCount]

variable {i pos : Nat}

theorem fillMore_elem {r q : Record} {fuel size : Nat} (less : s.m.count < size)
    (get : recs[i + 1]? = some q) :
    fillMore ops size (fuel + 1) s r i =
      let shown : State Unit := { s with m := append s.m q.text }
      if q.skip then fillMore ops size fuel (shown.setCount s.m.count) q (i + 1)
      else if shown.m.count = shown.m.size then .ok (shown.setCount s.m.count, i)
      else fillMore ops size fuel shown q (i + 1) := by
  subst fixed
  rw [fillMore, if_pos less]
  cases skip : q.skip with
  | true => simp [next, recordOps, get, show_, skip]
  | false => simp [next, recordOps, get, show_, skip, stop]

theorem fillMore_ends {r : Record} (size : Nat) (room : s.m.count < s.m.size)
    (holding : Holding recs s.m 0 s.m.count pos i) :
    ∃ s' i', Fuel.Ends (fun fuel => fillMore ops size fuel s r i) (s', i') ∧
      Alike s s' ∧ s'.m.size = s.m.size ∧ s.m.count ≤ s'.m.count ∧ Holding recs s'.m 0 s'.m.count pos i' := by
  induction measure : recs.length - i using Nat.strong_induction_on generalizing s r i with
  | _ k ih =>
    by_cases less : s.m.count < size
    · cases get : recs[i + 1]? with
      | none =>
        refine ⟨s, i, Fuel.Ends.const.succ fun n => ?_, ⟨rfl, rfl⟩, rfl, le_rfl, holding⟩
        rw [fillMore]
        simp [fixed, next, recordOps, get, stop]
      | some q =>
        have lt : i + 1 < recs.length := (List.getElem?_eq_some_iff.mp get).1
        have step : ∀ n, fillMore ops size (n + 1) s r i = _ := fun _ => fillMore_elem fixed less get
        have before : Holding recs (append s.m q.text) 0 s.m.count pos i := holding.kept rfl
        cases skip : q.skip with
        | true =>
          simp only [skip] at step
          have upto : offsetOf recs (i + 1 + 1) = pos + s.m.count := by
            simp [offsetOf_succ get, before.upto, Record.shown, skip]
          obtain ⟨s', i', ends, alike, size', le, holding'⟩ := ih (recs.length - (i + 1)) (by omega)
            (s := ({ s with m := append s.m q.text } : State Unit).setCount s.m.count) room
            ⟨before.data, upto⟩ rfl
          exact ⟨s', i', ends.succ step, ⟨alike.copied, alike.readPos⟩, size', le, holding'⟩
        | false =>
          simp only [skip] at step
          by_cases fits : s.m.count + q.text.length < s.m.size
          · have count : (append s.m q.text).count = s.m.count + q.text.length := if_pos fits
            have not_full : (append s.m q.text).count ≠ (append s.m q.text).size := by
              rw [count]
              exact fits.ne
            have more := holding.more get skip fits
            rw [← count] at more
            simp only [not_full] at step
            obtain ⟨s', i', ends, alike, size', le, holding'⟩ := ih (recs.length - (i + 1)) (by omega)
              (s := { s with m := append s.m q.text }) (count ▸ fits) more rfl
            refine ⟨s', i', ends.succ step, ⟨alike.copied, alike.readPos⟩, size', ?_, holding'⟩
            change (append s.m q.text).count ≤ _ at le
            omega
          · have full : (append s.m q.text).count = (append s.m q.text).size := append_full fits
            simp only [full] at step
            exact ⟨_, i, Fuel.Ends.const.succ step, ⟨rfl, rfl⟩, rfl, le_rfl, before.data, before.upto⟩
    · refine ⟨s, i, Fuel.Ends.const.succ fun n => ?_, ⟨rfl, rfl⟩, rfl, le_rfl, holding⟩
      rw [fillMore, if_neg less]
      rfl

theorem traverseFrom_elem {r : Record} {fuel offset : Nat} :
    traverseFrom ops offset (fuel + 1) s (.elem r) pos i =
      if (afterShow s r).m.count = (afterShow s r).m.size then
        .ok ((alloc ops (afterShow s r) (2 * (afterShow s r).m.size)).1, -EAGAIN)
      else if offset < pos + (afterShow s r).m.count then .ok ((((afterShow s r).setFrom (offset - pos)).setCount
          ((afterShow s r).m.count - (offset - pos))).setIndex i, 0)
      else if pos + (afterShow s r).m.count = offset then .ok (((afterShow s r).setCount 0).setIndex (i + 1), 0) else
        traverseFrom ops offset fuel ((afterShow s r).setCount 0)
          (elemAt recs (i + 1)) (pos + (afterShow s r).m.count) (i + 1) := by
  subst fixed
  rw [traverseFrom, afterShow]
  cases skip : r.skip with
  | true | false => simp [show_, recordOps, skip, next, elemAt, stop, alloc]

structure TooSmall (longest size : Nat) (s : State Unit) (err : Int) : Prop where
  again : err = -EAGAIN
  small : size < longest
  pos : 0 < size
  doubled : s.m.size = 2 * size
  buf : s.m.buf.isSome

structure Grabbed (s s' : State Unit) : Prop where
  buf : s'.m.buf.isSome
  size : 0 < s'.m.size
  alike : Alike s s'
  count : s'.m.count = s.m.count
  from_ : s'.m.from_ = s.m.from_
  index : s'.m.index = s.m.index
  same : s.m.buf.isSome → s' = s

theorem grab_records (h : s.m.buf.isSome → 0 < s.m.size) :
    ∃ s', grab ops s = (s', true) ∧ Grabbed s s' := by
  rw [grab, fixed]
  cases buf : s.m.buf with
  | none => exact ⟨_, rfl, rfl, page_pos, ⟨rfl, rfl⟩, rfl, rfl, rfl, by simp [buf]⟩
  | some data =>
    have some' : s.m.buf.isSome := by rw [buf]; rfl
    exact ⟨s, rfl, some', h some', ⟨rfl, rfl⟩, rfl, rfl, rfl, fun _ => rfl⟩

theorem copyRecords_copied (size copied ppos : Nat) (nonempty : 0 < s.m.count)
    (room : s.m.buf.isSome → 0 < s.m.size) (holding : Holding recs s.m 0 s.m.count pos i) :
    ∃ s' k, copyRecords ops s size i copied ppos = done s' (copied + k) 0 ppos ∧
      s'.m.readPos = s.m.readPos ∧ Copied recs pos size k s s' := by
  subst fixed
  refine ⟨recordsCopied (s.log (.fill s.m.from_ (bytesAt s.m 0 (min s.m.count size)) true)) (min s.m.count size) i,
    min s.m.count size, rfl, ?_, ?_⟩
  · rw [recordsCopied]
    split <;> rfl
  · have bytes := holding.bytes (Nat.min_le_left s.m.count size)
    have rest := holding.rest (Nat.min_le_left s.m.count size) rfl
    have le := holding.le
    constructor
    · have events : ∀ (s : State Unit) (n i : Nat), (recordsCopied s n i).events = s.events := by
        intro s n i
        rw [recordsCopied]
        split <;> rfl
      rw [events, ← bytes]
      simp [copiedBytes, State.log, Event.copied]
    · rw [recordsCopied]
      split
      · rename_i left
        rw [Nat.zero_add] at rest
        exact ⟨room, fun zero => absurd zero left, fun _ => ⟨rest.data, rest.upto⟩⟩
      rename_i empty
      have all : s.m.count - min s.m.count size = 0 := not_not.mp empty
      refine ⟨room, fun _ => .inl ?_, fun pos => absurd all pos⟩
      change offsetOf recs (i + 1) = _
      rw [holding.upto]
      omega
    · exact Nat.min_le_right _ _
    · right
      omega
    · omega

section

variable (bound : ∀ r ∈ recs, r.text.length < longest)
include bound

theorem findRecord_ends (buf : s.m.buf.isSome) (size : 0 < s.m.size) (count : s.m.count = 0) (index : s.m.index = i)
    (starts : StartsAt recs i pos) :
    Fuel.Ensures (fun fuel => findRecord ops fuel s (elemAt recs i) i) fun r => Alike s r.1 ∧
      FoundAt recs pos r.1 r.2 := by
  -- the loop goes on to the next record or doubles the buffer
  induction measure : recs.length - i + (longest - s.m.size) using Nat.strong_induction_on generalizing s i with
  | _ k ih =>
    cases get : recs[i]? with
    | none =>
      have past : recs.length ≤ i := List.getElem?_eq_none_iff.mp get
      have far : (content recs).length ≤ pos := by
        rcases starts with eq | ⟨-, le⟩
        · rw [← eq, offsetOf_end past]
        · exact le
      have stops : FoundAt recs pos (s.setCount 0) (.done 0) := ⟨rfl, rfl, .inr ⟨index ▸ past, far⟩, far, size⟩
      refine (Fuel.Ensures.const (a := (s.setCount 0, .done 0)) ⟨⟨rfl, rfl⟩, stops⟩).succ fun n => ?_
      rw [elemAt, get]
      rfl
    | some r =>
      obtain ⟨lt, -⟩ := List.getElem?_eq_some_iff.mp get
      have here : offsetOf recs i = pos := starts.resolve_right fun past => absurd lt past.1.not_gt
      have elem : elemAt recs i = .elem r := by rw [elemAt, get]; rfl
      obtain ⟨data, buf'⟩ := Option.isSome_iff_exists.mp buf
      obtain ⟨alike, size', index', some'⟩ := afterShow_alike s r
      have step : ∀ n, findRecord ops (n + 1) s (.elem r) i = _ := fun _ => findRecord_elem fixed s r
      rw [elem]
      have fit := afterShow_empty buf' count size r
      generalize afterShow s r = a at *
      rcases fit with ⟨fits, count', shown⟩ | ⟨long, full⟩
      · by_cases empty : r.shown = []
        · have zero : a.m.count = 0 := by rw [count', empty]; rfl
          simp only [zero] at step
          have next_starts : StartsAt recs (i + 1) pos := by
            left
            rw [offsetOf_succ get, empty, here]
            rfl
          have less : recs.length - (i + 1) + (longest - a.m.size) < k := by omega
          have rest := ih _ less (s := a.setIndex (i + 1)) (some'.mpr buf) (size' ▸ size) zero rfl next_starts rfl
          exact (rest.mono fun r h => ⟨alike.trans ⟨h.1.copied, h.1.readPos⟩, h.2⟩).succ step
        · have pos_count : 0 < a.m.count := by
            rw [count']
            exact length_pos_iff.mpr empty
          have fits' : a.m.count < a.m.size := by omega
          simp only [pos_count.ne', fits'] at step
          exact ⟨_, Fuel.Ends.const.succ step, alike, get, here, shown empty, count', pos_count, fits'⟩
      · have nonzero : a.m.count ≠ 0 := by omega
        have not_fits : ¬ a.m.count < a.m.size := by omega
        have short := bound r (mem_of_getElem? get)
        simp only [nonzero, not_fits] at step
        have less : recs.length - i + (longest - 2 * a.m.size) < k := by omega
        have rest := ih _ less (s := grown a) rfl
          (by change 0 < 2 * a.m.size; omega) rfl (index'.trans index) starts rfl
        rw [index', index] at step
        have grow : Alike a (grown a) := ⟨by simp [grown, copiedBytes, Event.copied], rfl⟩
        exact (rest.mono fun r h => ⟨(alike.trans grow).trans h.1, h.2⟩).succ step

theorem traverseFrom_ends {offset : Nat}
    (buf : s.m.buf.isSome) (size : 0 < s.m.size) (count : s.m.count = 0) (before : offsetOf recs i < offset) :
    ∃ s' err, Fuel.Ends (fun fuel => traverseFrom ops offset fuel s (elemAt recs i)
      (offsetOf recs i) i) (s', err) ∧ Alike s s' ∧
      (err = 0 ∧ At recs s'.m offset ∨ TooSmall longest s.m.size s' err) := by
  induction measure : recs.length - i using Nat.strong_induction_on generalizing s i with
  | _ k ih =>
    cases get : recs[i]? with
    | none =>
      have past : recs.length ≤ i := List.getElem?_eq_none_iff.mp get
      refine ⟨s.setIndex i, 0, Fuel.Ends.const.succ fun n => ?_, ⟨rfl, rfl⟩, .inl ⟨rfl, fun _ => size, ?_, ?_⟩⟩
      · rw [elemAt, get]
        rfl
      · rw [offsetOf_end past] at before
        exact fun _ => .inr ⟨past, before.le⟩
      · exact fun pos => absurd count pos
    | some r =>
      have lt : i < recs.length := (List.getElem?_eq_some_iff.mp get).1
      have elem : elemAt recs i = .elem r := by rw [elemAt, get]; rfl
      obtain ⟨data, buf'⟩ := Option.isSome_iff_exists.mp buf
      obtain ⟨alike, size', index', some'⟩ := afterShow_alike s r
      have step : ∀ n, traverseFrom ops offset (n + 1) s (.elem r) (offsetOf recs i) i = _ :=
        fun _ => traverseFrom_elem fixed
      rw [elem]
      have fit := afterShow_empty buf' count size r
      generalize afterShow s r = a at *
      rcases fit with ⟨fits, count', shown⟩ | ⟨long, full⟩
      · have not_full : a.m.count ≠ a.m.size := by omega
        simp only [not_full] at step
        by_cases inside : offset < offsetOf recs i + a.m.count
        · simp only [inside] at step
          have holding : Holding recs a.m 0 a.m.count (offsetOf recs i) i := by
            rw [count']
            apply holding_shown get (shown _)
            rintro empty
            rw [count', empty] at inside
            exact absurd before (by simpa using inside.le)
          refine ⟨_, _, Fuel.Ends.const.succ step, ⟨alike.copied, alike.readPos⟩,
            .inl ⟨rfl, fun _ => size' ▸ size, ?_, fun _ => ?_⟩⟩
          · intro zero
            change a.m.count - (offset - offsetOf recs i) = 0 at zero
            omega
          · have rest := holding.rest (k := offset - offsetOf recs i) (by omega) rfl
            rw [Nat.zero_add, Nat.add_sub_cancel' before.le] at rest
            exact ⟨rest.data, rest.upto⟩
        · simp only [inside] at step
          have next_offset : offsetOf recs (i + 1) = offsetOf recs i + a.m.count := by
            rw [offsetOf_succ get, count']
          by_cases reached : offsetOf recs i + a.m.count = offset
          · simp only [reached] at step
            exact ⟨_, _, Fuel.Ends.const.succ step, ⟨alike.copied, alike.readPos⟩,
              .inl ⟨rfl, fun _ => size' ▸ size, fun _ => .inl (next_offset.trans reached), fun pos => absurd rfl pos⟩⟩
          simp only [reached] at step
          rw [← next_offset] at step
          obtain ⟨s', err, ends, alike', traversed⟩ := ih (recs.length - (i + 1)) (by omega)
            (s := a.setCount 0) (some'.mpr buf) (size' ▸ size) rfl (by omega) rfl
          rw [show (a.setCount 0).m.size = s.m.size from size'] at traversed
          exact ⟨s', err, ends.succ step, alike.trans ⟨alike'.copied, alike'.readPos⟩, traversed⟩
      · have full' : a.m.count = a.m.size := by omega
        have short := bound r (mem_of_getElem? get)
        simp only [full'] at step
        subst fixed
        refine ⟨_, _, Fuel.Ends.const.succ step, ⟨alike.copied, alike.readPos⟩, .inr ⟨rfl, by omega, size, ?_, rfl⟩⟩
        change 2 * a.m.size = _
        rw [size']

theorem traverse_ends (offset : Nat) (h : s.m.buf.isSome → 0 < s.m.size) :
    ∃ s' err, Fuel.Ends (fun fuel => traverse ops s fuel offset) (s', err) ∧
      Alike s s' ∧ (err = 0 ∧ At recs s'.m offset ∨
        ∃ size, (s.m.buf.isSome → size = s.m.size) ∧ TooSmall longest size s' err) := by
  have start : offsetOf recs 0 = 0 := by simp [offsetOf, content]
  by_cases zero : offset = 0
  · subst zero
    exact ⟨_, _, Fuel.Ends.const, ⟨rfl, rfl⟩, .inl ⟨rfl, h, fun _ => .inl start, fun pos => absurd rfl pos⟩⟩
  obtain ⟨s1, run, grabbed⟩ := grab_records fixed (s := (s.setCount 0).setFrom 0) h
  obtain ⟨s', err, ends, alike, result⟩ := traverseFrom_ends fixed bound
    grabbed.buf grabbed.size grabbed.count (start ▸ Nat.pos_of_ne_zero zero)
  rw [start] at ends
  have eq : ∀ fuel, traverse ops s fuel offset =
      traverseFrom ops offset fuel s1 (elemAt recs 0) 0 0 := by
    intro fuel
    rw [traverse, if_neg zero, run, fixed]
    rfl
  refine ⟨s', err, by simpa only [eq] using ends, ?_, ?_⟩
  · exact ⟨alike.copied.trans grabbed.alike.copied, alike.readPos.trans grabbed.alike.readPos⟩
  · rcases result with done | small
    · exact .inl done
    · refine .inr ⟨s1.m.size, fun some' => ?_, small⟩
      rw [grabbed.same some']
      rfl

/-- The loop around `traverse`; its own fuel and that of `traverse` need not be the same. -/
theorem traverseAgain_ends (offset : Nat) (h : s.m.buf.isSome → 0 < s.m.size) :
    ∃ s' k, (∀ fuel n, k ≤ fuel → k ≤ n →
        traverseAgain ops fuel offset n s = .ok (s', 0)) ∧
      Alike s s' ∧ At recs s'.m offset := by
  induction measure : (if s.m.buf.isSome then longest - s.m.size else longest)
    using Nat.strong_induction_on generalizing s with
  | _ m ih =>
    obtain ⟨s1, err, ⟨k, ends⟩, alike, result⟩ := traverse_ends fixed bound offset h
    dsimp only at ends
    rcases result with ⟨rfl, at_⟩ | ⟨size, same, small⟩
    · refine ⟨s1, k + 1, ?_, alike, at_⟩
      intro fuel n le le'
      obtain ⟨n, rfl⟩ : ∃ j, n = j + 1 := ⟨n - 1, by omega⟩
      rw [traverseAgain, ends fuel (by omega)]
      rfl
    have pos := small.pos
    have doubled := small.doubled
    have lt := small.small
    have less : longest - s1.m.size < m := by
      split at measure
      · rename_i some'
        have := same some'
        omega
      · omega
    obtain ⟨s', k', again, alike', at_⟩ := ih _ less (s := s1) (fun _ => by omega) (by rw [if_pos small.buf])
    refine ⟨s', max k k' + 1, ?_, alike.trans alike', at_⟩
    intro fuel n le le'
    obtain ⟨n, rfl⟩ : ∃ j, n = j + 1 := ⟨n - 1, by omega⟩
    rw [traverseAgain, ends fuel (by omega)]
    change (if err = -EAGAIN then _ else _) = _
    rw [if_pos small.again]
    exact again fuel n (by omega) (by omega)

theorem readRecords_ends (size copied ppos : Nat)
    (buf : s.m.buf.isSome) (room : 0 < s.m.size) (count : s.m.count = 0) (starts : StartsAt recs s.m.index pos) :
    ∃ s' k, Fuel.Ends (fun fuel => readRecords ops s fuel size copied ppos)
      (done s' (copied + k) 0 ppos) ∧ s'.m.readPos = s.m.readPos ∧ Copied recs pos size k s s' := by
  subst fixed
  obtain ⟨⟨s1, found⟩, ends, alike, foundAt⟩ := findRecord_ends rfl bound buf room count rfl starts
  cases found with
  | done err =>
    obtain ⟨rfl, zero, starts', far, room'⟩ := foundAt
    refine ⟨s1, 0, ?_, alike.readPos, ?_⟩
    · exact ends.bind Fuel.Ends.const
    · refine ⟨?_, ⟨fun _ => room', fun _ => starts', fun pos => absurd zero pos⟩, Nat.zero_le _, .inl rfl,
        fun _ _ => far⟩
      rw [alike.copied, take_zero, map_nil, append_nil]
  | fill r i =>
    obtain ⟨get, here, buf1, count1, pos1, fits⟩ := foundAt
    have holding : Holding recs s1.m 0 s1.m.count pos i := by
      rw [count1, ← here]
      exact holding_shown get buf1
    obtain ⟨s2, i2, ends2, alike2, size2, le2, holding2⟩ := fillMore_ends rfl size fits holding
    obtain ⟨s3, k, run3, readPos3, copied3⟩ := copyRecords_copied rfl size copied ppos
      (pos1.trans_le le2) (fun _ => by omega) holding2
    refine ⟨s3, k, ?_, ?_, ?_⟩
    · refine ends.bind (ends2.bind ?_)
      rw [← run3]
      exact Fuel.Ends.const
    · rw [readPos3, alike2.readPos, alike.readPos]
    · exact copied3.after (alike.trans alike2)

theorem flush_ends (size ppos : Nat) (buf : s.m.buf.isSome) (at_ : At recs s.m pos) (nonempty : s.m.count ≠ 0) :
    ∃ s' k, Fuel.Ends (fun fuel => flush ops s fuel size ppos) (done s' k 0 ppos) ∧
      s'.m.readPos = s.m.readPos ∧ Copied recs pos size k s s' := by
  have holding := at_.left nonempty
  have inside := holding.le
  have le := Nat.min_le_left s.m.count size
  have bytes := holding.bytes le
  generalize e : Event.flush s.m.from_ s.m.count s.m.size (bytesAt s.m s.m.from_ (min s.m.count size)) true = event
  have run : ∀ fuel, flush ops s fuel size ppos =
      let n := min s.m.count size
      let s1 := flushed (s.log event) n
      if size - n = 0 then .ok (done s1 n 0 ppos) else readRecords ops s1 fuel (size - n) n ppos := by
    intro fuel
    rw [← e, fixed]
    rfl
  have logged : copiedBytes (s.log event).events = copiedBytes s.events ++
      (((content recs).drop pos).take (min s.m.count size)).map some := by
    rw [← e, ← bytes]
    simp [copiedBytes, State.log, Event.copied]
  obtain ⟨at1, alike1, buf1, count1⟩ := flushed_at (s := s.log event) at_ nonempty le
  dsimp only at run
  generalize hn : min s.m.count size = n at *
  generalize flushed (s.log event) n = s1 at *
  have bytes1 := alike1.copied.trans logged
  by_cases all : size - n = 0
  · simp only [all, if_true] at run
    exact ⟨_, _, by simpa only [run] using Fuel.Ends.const, alike1.readPos, bytes1, at1, by omega, by omega, by omega⟩
  simp only [all, if_false] at run
  have emptied : s1.m.count = 0 := by
    rw [count1]
    change s.m.count - n = 0
    omega
  have some1 : s1.m.buf.isSome := by rwa [buf1]
  obtain ⟨s', k, ends, readPos', copied⟩ :=
    readRecords_ends fixed bound (size - n) n ppos some1 (at1.size some1) emptied
    (at1.empty emptied)
  refine ⟨s', _, by simpa only [run] using ends, readPos'.trans alike1.readPos, ?_⟩
  exact .append bytes1 (by omega) (by omega) (by omega) copied

theorem readHere_ends (size ppos : Nat) (at_ : At recs s.m pos) :
    ∃ s' k, Fuel.Ends (fun fuel => readHere ops s fuel size ppos) (done s' k 0 ppos) ∧
      s'.m.readPos = s.m.readPos ∧ Copied recs pos size k s s' := by
  obtain ⟨s1, run, grabbed⟩ := grab_records fixed at_.size
  have at1 : At recs s1.m pos := by
    refine ⟨fun _ => grabbed.size, ?_, ?_⟩
    · rw [grabbed.count, grabbed.index]
      exact at_.empty
    · intro nonempty
      rw [grabbed.count] at nonempty
      have holding := at_.left nonempty
      obtain ⟨data, buf, -⟩ := holding.data
      rw [grabbed.same (by rw [buf]; rfl)]
      exact holding
  have eq : ∀ fuel, readHere ops s fuel size ppos =
      if s1.m.count ≠ 0 then flush ops s1 fuel size ppos
      else readRecords ops s1 fuel size 0 ppos := by
    intro fuel
    rw [readHere, run]
    rfl
  by_cases nonempty : s1.m.count ≠ 0
  · simp only [nonempty, ne_eq, not_false_eq_true, if_true] at eq
    obtain ⟨s', k, ends, readPos', copied⟩ := flush_ends fixed bound size ppos grabbed.buf at1 nonempty
    exact ⟨s', k, by simpa only [eq] using ends, readPos'.trans grabbed.alike.readPos, copied.after grabbed.alike⟩
  simp only [nonempty, if_false] at eq
  have empty := not_not.mp nonempty
  obtain ⟨s', k, ends, readPos', copied⟩ := readRecords_ends fixed bound size 0 ppos grabbed.buf grabbed.size
    empty (at1.empty empty)
  rw [Nat.zero_add] at ends
  exact ⟨s', k, by simpa only [eq] using ends, readPos'.trans grabbed.alike.readPos, copied.after grabbed.alike⟩

theorem seqRead_ends (size ppos : Nat) (at_ : At recs s.m s.m.readPos) :
    ∃ (s' : State Unit) (k : Nat), Fuel.Ends (fun fuel => seqRead ops s fuel size ppos)
      (s', (k : Int), ppos + k) ∧ At recs s'.m s'.m.readPos ∧ Copied recs ppos size k s s' := by
  -- the last part of both ways
  have here : ∀ s1 : State Unit, Alike { s with m := { s.m with readPos := ppos } } s1 → At recs s1.m ppos →
      ∃ (s' : State Unit) (k : Nat), Fuel.Ends (fun fuel => readHere ops s1 fuel size ppos)
        (s', (k : Int), ppos + k) ∧ At recs s'.m s'.m.readPos ∧ Copied recs ppos size k s s' := by
    intro s1 alike at1
    obtain ⟨s2, k, ends, readPos, copied⟩ := readHere_ends fixed bound size ppos at1
    rw [done_zero] at ends
    have position : s2.m.readPos + k = ppos + k := by rw [readPos, alike.readPos]
    have at2 : At recs (s2.setReadPos (s2.m.readPos + k)).m (ppos + k) :=
      ⟨copied.at_.size, copied.at_.empty, fun left => ⟨(copied.at_.left left).data, (copied.at_.left left).upto⟩⟩
    refine ⟨_, k, ends, ?_, ?_⟩
    · change At recs _ (s2.m.readPos + k)
      exact position ▸ at2
    · exact ⟨by rw [← alike.copied]; exact copied.bytes, at2, copied.le, copied.inside, copied.stuck⟩
  by_cases moved : ppos ≠ s.m.readPos
  · obtain ⟨s1, k1, again, alike, at1⟩ := traverseAgain_ends fixed bound (s := s.setReadPos ppos) ppos at_.size
    obtain ⟨s', k, ends, rest⟩ := here s1 alike at1
    refine ⟨s', k, ?_, rest⟩
    simp only [seqRead, if_pos moved]
    exact Fuel.Ends.bind ⟨k1, fun n le => again n n le le⟩ ends
  · have same : ppos = s.m.readPos := not_not.mp moved
    simp only [seqRead, if_neg moved]
    exact here s ⟨rfl, same.symm⟩ (same ▸ at_)

theorem seqLseek_ends (offset origin : Int) (fPos : Nat) (at_ : At recs s.m s.m.readPos) :
    ∃ r, Fuel.Ends (fun fuel => seqLseek ops s fuel offset origin fPos) r ∧ At recs r.1.m r.1.m.readPos := by
  by_cases known : origin ≠ 0 ∧ origin ≠ 1
  · simp only [seqLseek, if_pos known]
    exact ⟨_, Fuel.Ends.const, at_⟩
  simp only [seqLseek, if_neg known]
  generalize (if origin = 1 then Int.bmod (offset + fPos) (2 ^ 64) else offset) = target
  by_cases neg : target < 0
  · simp only [if_pos neg]
    exact ⟨_, Fuel.Ends.const, at_⟩
  simp only [if_neg neg]
  by_cases moved : target.toNat ≠ s.m.readPos
  · simp only [if_pos moved]
    obtain ⟨s1, k, again, -, at1⟩ := traverseAgain_ends fixed bound target.toNat at_.size
    have rest : Fuel.Ends (fun _ => Except.ok (s1.setReadPos target.toNat, target, target.toNat)) _ :=
      Fuel.Ends.const (ε := State Unit)
    refine ⟨_, Fuel.Ends.bind ⟨k, fun n le => again n n le le⟩ rest, ?_⟩
    exact ⟨at1.size, at1.empty, fun left => ⟨(at1.left left).data, (at1.left left).upto⟩⟩
  · simp only [if_neg moved]
    exact ⟨_, Fuel.Ends.const, at_⟩

end

end Loops

section Runs

variable (recs : List Record) {pageSize : Nat} (page_pos : 0 < pageSize)

def Returns (f f' : File Unit) : Prop :=
  ∃ (call : Call) (ret : Int), Fuel.Ends (fun fuel => call.exec (recordOps recs pageSize page_pos) fuel f) (f', ret)

theorem exists_longest (recs : List Record) : ∃ longest, ∀ r ∈ recs, r.text.length < longest :=
  ⟨(recs.map (·.text.length)).sum + 1,
    fun _ mem => Nat.lt_succ_of_le (single_le_sum (by simp) _ (mem_map_of_mem mem))⟩

variable {recs page_pos}

theorem Returns.at {f f' : File Unit} (returns : Returns recs page_pos f f') (h : At recs f.s.m f.s.m.readPos) :
    At recs f'.s.m f'.s.m.readPos := by
  obtain ⟨call, ret, ends⟩ := returns
  obtain ⟨longest, bound⟩ := exists_longest recs
  cases call with
  | read size =>
    obtain ⟨s', k, ends', at_, -⟩ := seqRead_ends rfl bound size f.fPos h
    rw [(Prod.mk.inj (ends.unique (ends'.bind .const))).1]
    exact at_
  | pread size pos =>
    obtain ⟨s', k, ends', at_, -⟩ := seqRead_ends rfl bound size pos h
    rw [(Prod.mk.inj (ends.unique (ends'.bind .const))).1]
    exact at_
  | lseek offset origin =>
    obtain ⟨r, ends', at_⟩ := seqLseek_ends rfl bound offset origin f.fPos h
    rw [(Prod.mk.inj (ends.unique (ends'.bind .const))).1]
    exact at_

theorem At.of_reachable {f : File Unit} (h : Transition.Reachable Opened (Returns recs page_pos) f) :
    At recs f.s.m f.s.m.readPos := by
  refine h.invariant (fun f => At recs f.s.m f.s.m.readPos) ?_ fun f f' at_ returns => returns.at at_
  rintro f ⟨world, rfl⟩
  refine ⟨nofun, fun _ => .inl ?_, fun left => absurd rfl left⟩
  rfl

/-- After any calls, `seq_read` at the position `pos` returns, and it copies bytes of the file from `pos` on:
none only if there are none, or none are asked for. -/
theorem seq_read_returns_text {f : File Unit} (h : Transition.Reachable Opened (Returns recs page_pos) f)
    (size pos : Nat) : ∃ (s' : State Unit) (k : Nat),
      Fuel.Ends (fun fuel => seqRead (recordOps recs pageSize page_pos) f.s fuel size pos) (s', (k : Int), pos + k) ∧
      copiedBytes s'.events = copiedBytes f.s.events ++ (((content recs).drop pos).take k).map some ∧
      k ≤ size ∧ (k = 0 ∨ pos + k ≤ (content recs).length) ∧ (0 < size → k = 0 → (content recs).length ≤ pos) := by
  obtain ⟨longest, bound⟩ := exists_longest recs
  obtain ⟨s', k, ends, -, copied⟩ := seqRead_ends rfl bound size pos (At.of_reachable h)
  exact ⟨s', k, ends, copied.bytes, copied.le, copied.inside, copied.stuck⟩

/-- Three bytes from the middle of the first record on, over a record that is skipped and an empty one, with a
buffer that has to grow. -/
theorem seq_read_returns_text_grown : ∃ (s' : State Unit) (k : Nat),
      Fuel.Ends (fun fuel => seqRead (recordOps [⟨[97, 98], false⟩, ⟨[99], true⟩, ⟨[], false⟩, ⟨[100, 101], false⟩] 2
        (by decide)) (seqOpen ()) fuel 3 1) (s', (k : Int), 1 + k) ∧
      copiedBytes s'.events = ([98, 100, 101].take k).map some ∧ 0 < k ∧ k ≤ 3 := by
  have opened : Transition.Reachable Opened (Returns [⟨[97, 98], false⟩, ⟨[99], true⟩, ⟨[], false⟩,
    ⟨[100, 101], false⟩] (by decide : 0 < 2)) ⟨seqOpen (), 0⟩ := .start ⟨(), rfl⟩
  obtain ⟨s', k, ends, bytes, le, -, stuck⟩ := seq_read_returns_text opened 3 1
  refine ⟨s', k, ends, bytes, ?_, le⟩
  by_contra none
  exact absurd (stuck (by decide) (by omega)) (by decide)

end Runs

end SeqFs
