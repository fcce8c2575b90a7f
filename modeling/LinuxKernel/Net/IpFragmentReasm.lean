/- The queue of fragments is a chain of pieces of the datagram, and it is handed over when it has no hole. -/
import Mathlib.Data.List.Basic
import LinuxKernel.Foundation.Transition
import LinuxKernel.Net.IpFragment

namespace IpFragment

open Pieces List

variable {D : List UInt8} {qp : Ipq} {skb : SkBuff} {f : Faults}

/-- The fragments are pieces of the datagram that do not overlap, and the queue counts them. -/
structure Queued (D : List UInt8) (qp : Ipq) : Prop where
  chain : Chain qp.fragments
  nonempty : ∀ f ∈ qp.fragments, f.data ≠ []
  high : ∀ f ∈ qp.fragments, f.stop ≤ qp.len
  pieces : ∀ f ∈ qp.fragments, f.Of D
  meat : qp.meat = total qp.fragments

theorem Queued.empty : Queued D Ipq.empty :=
  ⟨.nil, by simp [Ipq.empty], by simp [Ipq.empty], by simp [Ipq.empty], rfl⟩

theorem Queued.grow (h : Queued D qp) {lastIn : Bool} {len : Nat} (le : qp.len ≤ len) :
    Queued D { qp with len := len, lastIn := lastIn } :=
  ⟨h.chain, h.nonempty, fun f member => (h.high f member).trans le, h.pieces, h.meat⟩

theorem Queued.claimEnd (h : Queued D qp) {qp' : Ipq} (claim : claimEnd qp skb = some qp') :
    Queued D qp' ∧ skb.stop ≤ qp'.len := by
  rw [IpFragment.claimEnd] at claim
  split_ifs at claim with final bad more last
  · cases claim
    rw [not_or] at bad
    exact ⟨h.grow (Nat.le_of_not_lt bad.1), le_rfl⟩
  · cases claim
    exact ⟨h.grow more.le, le_rfl⟩
  · cases claim
    exact ⟨h, Nat.le_of_not_lt more⟩

structure Eaten (stop : Nat) (l : List (Piece UInt8)) (meat : Int) (r : List (Piece UInt8) × Int × Bool) : Prop where
  chain : Chain r.1
  /-- Every piece is the rest of one that was there. -/
  rest : ∀ g ∈ r.1, ∃ f ∈ l, ∃ i < f.data.length, g = f.pull i
  behind : r.2.2 = true → ∀ g ∈ r.1, stop ≤ g.offset
  meat : r.2.1 + total l = meat + total r.1

theorem eatNext_eaten {stop : Nat} {fails : Bool} {l : List (Piece UInt8)} {meat : Int} (chain : Chain l)
    (nonempty : ∀ f ∈ l, f.data ≠ []) : Eaten stop l meat (eatNext stop fails l meat) := by
  have pos : ∀ f ∈ l, 0 < f.data.length := fun f member => length_pos_iff.mpr (nonempty f member)
  induction l generalizing meat with
  | nil => exact ⟨.nil, by simp [eatNext], by simp [eatNext], by simp [eatNext]⟩
  | cons next rest ih =>
    have same : ∀ g ∈ next :: rest, ∃ f ∈ next :: rest, ∃ i < f.data.length, g = f.pull i :=
      fun g member => ⟨g, member, 0, pos g member, rfl⟩
    have ⟨first, others⟩ := pairwise_cons.mp chain
    have after : next.offset ≤ next.stop := Nat.le_add_right _ _
    rw [eatNext]
    by_cases overlaps : next.offset < stop
    · rw [if_pos overlaps]
      by_cases inside : stop - next.offset < next.data.length
      · rw [if_pos inside]
        cases fails with
        | true => exact ⟨chain, same, by simp, rfl⟩
        | false =>
          have ends := Piece.stop_pull inside.le
          refine ⟨?_, ?_, ?_, ?_⟩
          · refine pairwise_cons.mpr ⟨fun g member => ?_, others⟩
            rw [ends]
            exact first g member
          · intro g member
            rcases mem_cons.mp member with rfl | member
            · exact ⟨next, .head rest, _, inside, rfl⟩
            · exact same g (.tail next member)
          · intro _ g member
            rcases mem_cons.mp member with rfl | member
            · simp only [Piece.pull]
              omega
            · have := first g member
              rw [Piece.stop] at this
              omega
          · simp only [total_cons, Piece.pull, length_drop, Bool.false_eq_true, if_false]
            omega
      · rw [if_neg inside]
        have eaten : Eaten stop rest (meat - next.data.length) _ :=
          ih others (fun f member => nonempty f (.tail next member)) fun f member => pos f (.tail next member)
        refine ⟨eaten.chain, fun g member => ?_, eaten.behind, ?_⟩
        · obtain ⟨f, there, found⟩ := eaten.rest g member
          exact ⟨f, .tail next there, found⟩
        · have := eaten.meat
          rw [total_cons]
          omega
    · rw [if_neg overlaps]
      refine ⟨chain, same, fun _ g member => ?_, rfl⟩
      rcases mem_cons.mp member with rfl | member
      · exact Nat.le_of_not_lt overlaps
      · have := first g member
        omega

variable {new : Piece UInt8}

theorem trimFront_ok {before : List (Piece UInt8)} {new' : Piece UInt8} {fails : Bool} (chain : Chain before)
    (h : trimFront before.getLast? new fails = .ok new') (nonempty : new.data ≠ []) :
    (∀ f ∈ before, f.stop ≤ new'.offset) ∧ ∃ i < new.data.length, new' = new.pull i := by
  have pos := length_pos_iff.mpr nonempty
  rcases eq_nil_or_concat' before with rfl | ⟨init, prev, rfl⟩
  · cases h
    exact ⟨by simp, 0, pos, rfl⟩
  -- the last one before the new one ends behind all others
  have last : ∀ f ∈ init ++ [prev], f.stop ≤ prev.stop := by
    intro f member
    rcases mem_append.mp member with member | member
    · have := (pairwise_append.mp chain).2.2 f member prev (mem_singleton_self prev)
      exact this.trans (Nat.le_add_right _ _)
    · rw [mem_singleton.mp member]
  rw [List.getLast?_concat, trimFront] at h
  split_ifs at h with overlaps covered
  · cases h
    refine ⟨fun f member => (last f member).trans ?_, _, ?_, rfl⟩
    · simp only [Piece.pull]
      omega
    · rw [Piece.stop.eq_def new] at covered
      omega
  · cases h
    exact ⟨fun f member => (last f member).trans (Nat.le_of_not_lt overlaps), 0, pos, rfl⟩

structure Fits (D : List UInt8) (len : Nat) (f : Piece UInt8) : Prop where
  nonempty : f.data ≠ []
  high : f.stop ≤ len
  of : f.Of D

theorem Fits.pull {len i : Nat} {f : Piece UInt8} (h : Fits D len f) (lt : i < f.data.length) :
    Fits D len (f.pull i) := by
  refine ⟨?_, (Piece.stop_pull lt.le).trans_le h.high, h.of.pull i⟩
  apply ne_nil_of_length_pos
  rw [Piece.pull, length_drop]
  omega

theorem Queued.fits (h : Queued D qp) : ∀ f ∈ qp.fragments, Fits D qp.len f :=
  fun f member => ⟨h.nonempty f member, h.high f member, h.pieces f member⟩

theorem Queued.of_fits (chain : Chain qp.fragments) (fits : ∀ f ∈ qp.fragments, Fits D qp.len f)
    (meat : qp.meat = total qp.fragments) : Queued D qp :=
  ⟨chain, fun f member => (fits f member).nonempty, fun f member => (fits f member).high,
    fun f member => (fits f member).of, meat⟩

theorem Queued.insertFragment (h : Queued D qp) (fit : Fits D qp.len new) :
    Queued D (insertFragment qp new f).1 := by
  rw [IpFragment.insertFragment]
  have split := takeWhile_append_dropWhile (p := fun f : Piece UInt8 => decide (f.offset < new.offset))
    (l := qp.fragments)
  generalize qp.fragments.takeWhile (·.offset < new.offset) = before at split ⊢
  generalize qp.fragments.dropWhile (·.offset < new.offset) = next at split ⊢
  have chain := h.chain
  have fits := h.fits
  have meat := h.meat
  rw [← split] at chain fits meat
  have ⟨chain1, chain2, across⟩ := pairwise_append.mp chain
  have fits1 := fun f member => fits f (mem_append_left next member)
  have fits2 := fun f member => fits f (mem_append_right before member)
  cases trim : trimFront before.getLast? new f.pullSkb with
  | error e => exact h
  | ok new' =>
    obtain ⟨behind, i, lt, rfl⟩ := trimFront_ok chain1 trim fit.nonempty
    have fit' := fit.pull lt
    have eaten : Eaten (new.pull i).stop next qp.meat (eatNext (new.pull i).stop f.pullNext next qp.meat) :=
      eatNext_eaten chain2 fun f member => (fits2 f member).nonempty
    dsimp only
    generalize eatNext (new.pull i).stop f.pullNext next qp.meat = r at eaten ⊢
    obtain ⟨next', left, pulled⟩ := r
    have fits2' : ∀ g ∈ next', Fits D qp.len g := by
      intro g member
      obtain ⟨f, there, j, lt, rfl⟩ := eaten.rest g member
      exact (fits2 f there).pull lt
    have across' : ∀ f ∈ before, ∀ g ∈ next', f.stop ≤ g.offset := by
      intro f member g member'
      obtain ⟨f', there, j, -, rfl⟩ := eaten.rest g member'
      exact (across f member f' there).trans (Nat.le_add_right _ _)
    have chain' := eaten.chain
    have count := eaten.meat
    rw [total_append] at meat
    dsimp only at chain' count ⊢
    cases pulled with
    | false =>
      rw [Bool.not_false, if_pos rfl]
      refine .of_fits ?_ ?_ ?_
      · exact pairwise_append.mpr ⟨chain1, chain', across'⟩
      · intro g member
        exact (mem_append.mp member).elim (fits1 g) (fits2' g)
      · simp only [total_append]
        omega
    | true =>
      have queued : Queued D { qp with
          fragments := before ++ new.pull i :: next'
          meat := left + (new.pull i).data.length
          firstIn := qp.firstIn || (new.pull i).offset = 0 } := by
        refine .of_fits ?_ ?_ ?_
        · refine pairwise_append.mpr ⟨chain1, pairwise_cons.mpr ⟨eaten.behind rfl, chain'⟩, ?_⟩
          intro f member g member'
          rcases mem_cons.mp member' with rfl | member'
          · exact behind f member
          · exact across' f member g member'
        · intro g member
          rcases mem_append.mp member with member | member
          · exact fits1 g member
          · rcases mem_cons.mp member with rfl | member
            · exact fit'
            · exact fits2' g member
        · simp only [total_append, total_cons]
          omega
      rw [Bool.not_true, if_neg Bool.false_ne_true]
      split
      all_goals exact queued

/-- A queue is handed over only if its fragments have as much as the datagram. -/
theorem insertFragment_reasm (h : (insertFragment qp new f).2 = .reasm) :
    (insertFragment qp new f).1.meat = (insertFragment qp new f).1.len := by
  rw [insertFragment] at h ⊢
  cases trim : trimFront (qp.fragments.takeWhile (·.offset < new.offset)).getLast? new f.pullSkb with
  | error e =>
    rw [trim] at h
    cases h
  | ok new' =>
    rw [trim] at h
    dsimp only at h ⊢
    split at h
    · cases h
    rename_i pulled
    split at h
    · rename_i full
      rw [if_neg pulled, if_pos full]
      exact full.2.2.2
    · cases h

/-- The bytes of the fragment that count are those of the datagram. -/
def Claims (D : List UInt8) (skb : SkBuff) : Prop :=
  ∀ i < skb.stop - skb.offset, skb.data[i]? = D[skb.offset + i]?

theorem SkBuff.offset_le_stop (skb : SkBuff) : skb.offset ≤ skb.stop ∧ skb.stop ≤ skb.offset + skb.data.length := by
  have aligned : skb.offset = (skb.fragOff &&& IP_OFFSET).toNat * 8 := by
    rw [offset, Nat.shiftLeft_eq]
  rw [stop]
  split
  all_goals omega

theorem Claims.fits (h : Claims D skb) {len : Nat} (high : skb.stop ≤ len) (some : skb.stop ≠ skb.offset) :
    Fits D len ⟨skb.offset, skb.data.take (skb.stop - skb.offset)⟩ := by
  have bounds := skb.offset_le_stop
  have length : (skb.data.take (skb.stop - skb.offset)).length = skb.stop - skb.offset := by
    rw [length_take]
    omega
  refine ⟨ne_nil_of_length_pos (by dsimp only; omega), ?_, ?_⟩
  · rw [Piece.stop]
    dsimp only
    omega
  · rw [Piece.Of]
    rw [length]
    apply ext_getElem?
    intro i
    by_cases lt : i < skb.stop - skb.offset
    · rw [List.getElem?_take_of_lt lt, List.getElem?_take_of_lt lt, List.getElem?_drop]
      exact h i lt
    · rw [List.getElem?_take_eq_none (by omega), List.getElem?_take_eq_none (by omega)]

theorem Queued.ipFragQueue (h : Queued D qp) (claims : Claims D skb) : Queued D (ipFragQueue qp skb f).1 ∧
    ((ipFragQueue qp skb f).2 = .reasm → (ipFragQueue qp skb f).1.meat = (ipFragQueue qp skb f).1.len) := by
  have queued : ∀ {r : Ipq × Verdict}, Queued D r.1 → r.2 ≠ .reasm →
      Queued D r.1 ∧ (r.2 = .reasm → r.1.meat = r.1.len) := fun h other => ⟨h, fun eq => absurd eq other⟩
  rw [IpFragment.ipFragQueue]
  split
  · exact queued h nofun
  dsimp only
  split
  · exact queued ⟨h.chain, h.nonempty, h.high, h.pieces, h.meat⟩ nofun
  have start : Queued D (if (f.tooFar && !qp.fragments.isEmpty) = true then ipFragReinit qp else qp) := by
    split
    · exact .empty
    · exact h
  generalize (if (f.tooFar && !qp.fragments.isEmpty) = true then ipFragReinit qp else qp) = qp' at start
  cases claim : IpFragment.claimEnd qp' skb with
  | none => exact queued start nofun
  | some qp'' =>
    obtain ⟨claimed, high⟩ := start.claimEnd claim
    dsimp only
    split
    · exact queued claimed nofun
    · rename_i some
      split
      · exact queued claimed nofun
      · exact ⟨claimed.insertFragment (claims.fits high some), insertFragment_reasm⟩

/-- The queue, or the queue as it is handed over to `ip_frag_reasm`, after which it takes no fragment. -/
inductive State
  | queue (qp : Ipq)
  | handed (qp : Ipq)

def State.ipq : State → Ipq
  | queue qp => qp
  | handed qp => qp

def arrive (s : State) (skb : SkBuff) (f : Faults) : State :=
  match s with
  | .queue qp =>
    match ipFragQueue qp skb f with
    | (qp, .reasm) => .handed qp
    | (qp, _) => .queue qp
  | .handed qp => .handed qp

/-- What holds of the queue, and of a queue that is handed over. -/
structure Ready (D : List UInt8) (s : State) : Prop where
  queued : Queued D s.ipq
  full : ∀ qp, s = .handed qp → qp.meat = qp.len

theorem Ready.arrive {s : State} (h : Ready D s) (claims : Claims D skb) : Ready D (arrive s skb f) := by
  cases s with
  | handed qp => exact h
  | queue qp =>
    have ⟨queued, full⟩ := h.queued.ipFragQueue claims (f := f)
    change Queued D (ipFragQueue qp skb f).1 at queued
    change (ipFragQueue qp skb f).2 = _ → (ipFragQueue qp skb f).1.meat = (ipFragQueue qp skb f).1.len at full
    rw [IpFragment.arrive]
    generalize ipFragQueue qp skb f = r at queued full ⊢
    obtain ⟨qp', verdict⟩ := r
    cases verdict with
    | reasm =>
      refine ⟨queued, fun qp'' eq => ?_⟩
      cases eq
      exact full rfl
    | err e | inProgress => exact ⟨queued, nofun⟩

def Arrives (D : List UInt8) (s s' : State) : Prop := ∃ skb f, Claims D skb ∧ s' = arrive s skb f

/-- However the fragments of a datagram arrive, the queue is in order, without empty fragments and overlaps, it
counts its bytes and knows a length that none goes beyond; and when it is handed over, it has the first bytes of
the datagram, which `ip_frag_reasm` then returns. -/
theorem ip_frag_queue_reassembles (D : List UInt8) {s : State}
    (h : Transition.Reachable (· = State.queue .empty) (Arrives D) s) :
    s.ipq.fragments.Pairwise (fun f g => f.offset + f.data.length ≤ g.offset) ∧ (∀ f ∈ s.ipq.fragments, f.data ≠ []) ∧
    (∀ f ∈ s.ipq.fragments, f.offset + f.data.length ≤ s.ipq.len) ∧
    s.ipq.meat = (s.ipq.fragments.map fun f => f.data.length).sum ∧
    ∀ qp, s = .handed qp → qp.len ≤ D.length ∧ qp.fragments.flatMap (·.data) = D.take qp.len ∧
      ∀ ihlen noClone noHead data, (ipFragReasm qp ihlen noClone noHead).2 = .ok data → data = D.take qp.len := by
  have ready : Ready D s := by
    apply h.invariant (Ready D)
    · rintro s rfl
      exact ⟨.empty, nofun⟩
    · rintro s s' ready ⟨skb, f, claims, rfl⟩
      exact ready.arrive claims
  refine ⟨ready.queued.chain, ready.queued.nonempty, ready.queued.high, ready.queued.meat, ?_⟩
  rintro qp rfl
  have meat : qp.meat = total qp.fragments := ready.queued.meat
  have whole : glue qp.fragments = D.take qp.len := by
    have full := ready.full qp rfl
    have all : total qp.fragments = qp.len - 0 := by omega
    exact ready.queued.chain.glue_eq (fun f _ => Nat.zero_le _) ready.queued.high ready.queued.pieces all
  refine ⟨?_, whole, ?_⟩
  · have length := congrArg List.length whole
    have full := ready.full qp rfl
    rw [length_glue, length_take] at length
    omega
  · intro ihlen noClone noHead data result
    rw [ipFragReasm] at result
    split_ifs at result
    cases result
    exact whole

def noFaults : Faults := ⟨false, false, false, false, false, false⟩

/-- The second fragment of a datagram of 12 bytes arrives first, and the first one with 4 bytes too many. -/
theorem ip_frag_queue_reassembles_twelve :
    ∃ qp, Transition.Reachable (· = State.queue .empty) (Arrives [1, 2, 3, 4, 5, 6, 7, 8, 9, 10, 11, 12])
      (.handed qp) ∧
      qp.fragments.flatMap (·.data) = [1, 2, 3, 4, 5, 6, 7, 8, 9, 10, 11, 12] := by
  have last : Arrives [1, 2, 3, 4, 5, 6, 7, 8, 9, 10, 11, 12] (.queue .empty)
      (arrive (.queue .empty) ⟨1, [9, 10, 11, 12]⟩ noFaults) :=
    ⟨_, _, by unfold Claims; decide, rfl⟩
  have first : Arrives [1, 2, 3, 4, 5, 6, 7, 8, 9, 10, 11, 12] (arrive (.queue .empty) ⟨1, [9, 10, 11, 12]⟩ noFaults)
      (.handed ⟨[⟨0, [1, 2, 3, 4, 5, 6, 7, 8]⟩, ⟨8, [9, 10, 11, 12]⟩], 12, 12, true, true, false⟩) :=
    ⟨⟨0x2000, [1, 2, 3, 4, 5, 6, 7, 8, 9, 9, 9, 9]⟩, noFaults, by unfold Claims; decide, rfl⟩
  have start : Transition.Reachable (· = State.queue .empty) (Arrives [1, 2, 3, 4, 5, 6, 7, 8, 9, 10, 11, 12])
      (.queue .empty) := .start rfl
  have run := (start.next last).next first
  exact ⟨_, run, ((ip_frag_queue_reassembles _ run).2.2.2.2 _ rfl).2.1⟩

end IpFragment
