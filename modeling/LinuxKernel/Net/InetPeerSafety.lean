/- Internet peers are freed once, unreferenced and off both lists, in every interleaving of the sections. -/
import LinuxKernel.Foundation.Transition
import LinuxKernel.Net.InetPeer

namespace InetPeer

open Census Function List

/-- References a thread has for the time of a section, besides those it holds. -/
def Pc.refs (p : Peer) : Pc → ℕ
  | .pooling q | .putting q => if q = p then 1 else 0
  | _ => 0

/-- The thread has just taken a reference and is about to unlink the peer from the unused list. -/
def Pc.pending (p : Peer) : Pc → ℕ
  | .unlinking q _ => if q = p then 1 else 0
  | _ => 0

/-- A peer outside the pool that only this thread knows. -/
def Pc.owns : Pc → Option Peer
  | .linking n | .freeing n => some n
  | .unlinking _ spare => spare
  | _ => none

variable {T : Type} [Fintype T]

def State.refs (s : State T) (p : Peer) : ℕ :=
  total (fun f : Peer → ℕ => f p) s.held + total (Pc.refs p) s.pc

def State.pending (s : State T) (p : Peer) : ℕ :=
  total (Pc.pending p) s.pc

/-- Reference counts are exact, and a peer on the unused list has none but pending references. -/
structure Counted (s : State T) : Prop where
  sorted : s.pool.Sorted
  count : ∀ p ∈ s.pool, s.refcnt p = s.refs p
  linked : ∀ p, p ∉ s.pool → s.refs p = 0
  unused : ∀ p ∈ s.unusedPeers, p ∈ s.pool ∧ s.refs p = s.pending p
  nodup : s.unusedPeers.Nodup
  pending : ∀ t p, (s.pc t).pending p ≤ s.held t p

/-- Every peer is in the pool, with one thread, freed or not yet allocated. -/
structure Named (s : State T) : Prop where
  pool : ∀ p ∈ s.pool, p.id < s.allocated ∧ p ∉ s.freed ∧ ∀ t, (s.pc t).owns ≠ some p
  owned : ∀ t n, (s.pc t).owns = some n → n.id < s.allocated ∧ n ∉ s.freed
  once : ∀ t u n, (s.pc t).owns = some n → (s.pc u).owns = some n → t = u
  freed : ∀ p ∈ s.freed, p.id < s.allocated
  nodup : s.freed.Nodup
  fresh : ∀ t n, s.pc t = .linking n → s.refcnt n = 1

variable {s s' : State T} {t : T} {p q n : Peer} {pc : Pc}

section

variable {pc₀ : Pc} (c : Counted s) (start : s.pc t = pc₀) (more : pc₀.refs p ≠ 0)
include c start more

theorem Counted.not_unused : p ∉ s.unusedPeers := by
  intro mem
  have exact_ := (c.unused p mem).2
  have own := le_total (Pc.refs p) s.pc t
  have le : s.pending p ≤ total (fun f : Peer → ℕ => f p) s.held :=
    Finset.sum_le_sum fun u _ => c.pending u p
  rw [start] at own
  unfold State.refs at exact_
  omega

theorem Counted.mem_of_refs : p ∈ s.pool := by
  by_contra out
  have none := c.linked p out
  have own := le_total (Pc.refs p) s.pc t
  rw [start] at own
  unfold State.refs at none
  omega

end

section Changes

variable [DecidableEq T]

/-- A section of thread `t` from `pc₀` to `pc`, after which it holds `held`. -/
structure Moves (s s' : State T) (t : T) (pc₀ pc : Pc) (held : Peer → ℕ) : Prop where
  start : s.pc t = pc₀
  place : s'.pc = update s.pc t pc
  held : s'.held = update s.held t held

variable {pc₀ : Pc} {held : Peer → ℕ}

omit [Fintype T] in
theorem Moves.same (start : s.pc t = pc₀) (place : s'.pc = update s.pc t pc) (held : s'.held = s.held) :
    Moves s s' t pc₀ pc (s.held t) :=
  ⟨start, place, by rw [held, update_eq_self]⟩

theorem Moves.refs (m : Moves s s' t pc₀ pc held) (q : Peer) :
    s'.refs q + (pc₀.refs q + s.held t q) = s.refs q + (pc.refs q + held q) := by
  have places := total_update (Pc.refs q) s.pc t pc
  have holds := total_update (fun f : Peer → ℕ => f q) s.held t held
  unfold State.refs
  rw [m.place, m.held, ← m.start]
  omega

theorem Moves.pending (m : Moves s s' t pc₀ pc held) (q : Peer) :
    s'.pending q + pc₀.pending q = s.pending q + pc.pending q := by
  unfold State.pending
  rw [m.place, ← m.start]
  exact total_update ..

/-- What the thread has gained or given up is in the reference counts, and the peers that stay unused have
none but pending references. -/
theorem Counted.step (c : Counted s) (m : Moves s s' t pc₀ pc held) (owed : ∀ q, pc.pending q ≤ held q)
    (sorted : s'.pool.Sorted)
    (count : ∀ q ∈ s'.pool, s'.refcnt q + (pc₀.refs q + s.held t q : ℕ) = s.refs q + (pc.refs q + held q : ℕ))
    (linked : ∀ q ∉ s'.pool, s.refs q + (pc.refs q + held q) = pc₀.refs q + s.held t q)
    (unused : ∀ q ∈ s'.unusedPeers, q ∈ s'.pool ∧ q ∈ s.unusedPeers ∧
      pc.refs q + held q + pc₀.pending q = pc₀.refs q + s.held t q + pc.pending q)
    (nodup : s'.unusedPeers.Nodup) : Counted s' := by
  refine ⟨sorted, fun q mem => ?_, fun q out => ?_, fun q mem => ?_, nodup, fun u q => ?_⟩
  · have refs := m.refs q
    have count := count q mem
    omega
  · have refs := m.refs q
    have linked := linked q out
    omega
  · obtain ⟨inPool, mem, same⟩ := unused q mem
    have refs := m.refs q
    have pending := m.pending q
    have before := (c.unused q mem).2
    exact ⟨inPool, by omega⟩
  · rw [m.place, m.held]
    by_cases same : u = t
    · rw [same, update_self, update_self]
      exact owed q
    · rw [update_of_ne same, update_of_ne same]
      exact c.pending u q

theorem update_add {α M : Type*} [DecidableEq α] [AddZeroClass M] (f : α → M) (a : α) (d : M) (b : α) :
    update f a (f a + d) b = f b + if a = b then d else 0 := by
  by_cases same : a = b
  · rw [same, update_self, if_pos rfl]
  · rw [update_of_ne (Ne.symm same), if_neg same, add_zero]

theorem Counted.move (c : Counted s) (m : Moves s s' t pc₀ pc (s.held t)) (pool : s'.pool = s.pool)
    (unused : s'.unusedPeers = s.unusedPeers) (refcnt : ∀ p ∈ s.pool, s'.refcnt p = s.refcnt p)
    (refs : ∀ p, pc.refs p = pc₀.refs p) (pending : ∀ p, pc.pending p = pc₀.pending p) : Counted s' := by
  refine c.step m (fun q => ?_) (pool ▸ c.sorted) (fun q mem => ?_) (fun q out => ?_) (fun q mem => ?_)
    (unused ▸ c.nodup)
  · rw [pending, ← m.start]
    exact c.pending t q
  · rw [pool] at mem
    rw [refcnt q mem, refs, c.count q mem]
  · rw [c.linked q (pool ▸ out), refs, Nat.zero_add]
  · rw [unused] at mem
    rw [pool, refs, pending]
    exact ⟨(c.unused q mem).1, mem, rfl⟩

omit [DecidableEq T] in
theorem Counted.addUnused (c : Counted s) (mem : p ∈ s.pool) (out : p ∉ s.unusedPeers) (zero : s.refs p = 0)
    (dtime : Peer → BitVec 32) : Counted { s with unusedPeers := s.unusedPeers ++ [p], dtime := dtime } := by
  refine ⟨c.sorted, c.count, c.linked, fun q unused => ?_, ?_, c.pending⟩
  · rcases mem_append.mp unused with unused | last
    · exact c.unused q unused
    rw [mem_singleton.mp last]
    have le : s.pending p ≤ total (fun f : Peer → ℕ => f p) s.held := Finset.sum_le_sum fun u _ => c.pending u p
    refine ⟨mem, ?_⟩
    change s.refs p = s.pending p
    unfold State.refs at zero ⊢
    omega
  · refine nodup_append.mpr ⟨c.nodup, nodup_singleton p, fun q unused r last same => ?_⟩
    rw [mem_singleton.mp last] at same
    exact out (same ▸ unused)

end Changes

section Names

variable [DecidableEq T]

omit [Fintype T]

/-- A section of thread `t`: what it now owns, and what is now in the pool, no other thread owns. -/
theorem Named.step (h : Named s) (place : s'.pc = update s.pc t pc)
    (pool : ∀ q ∈ s'.pool, q.id < s'.allocated ∧ q ∉ s'.freed ∧ pc.owns ≠ some q ∧ ∀ u ≠ t, (s.pc u).owns ≠ some q)
    (mine : ∀ q, pc.owns = some q → q.id < s'.allocated ∧ q ∉ s'.freed ∧ ∀ u ≠ t, (s.pc u).owns ≠ some q)
    (others : ∀ u ≠ t, ∀ q, (s.pc u).owns = some q → q.id < s'.allocated ∧ q ∉ s'.freed)
    (freed : ∀ q ∈ s'.freed, q.id < s'.allocated) (nodup : s'.freed.Nodup)
    (fresh : ∀ q, pc = .linking q → s'.refcnt q = 1)
    (kept : ∀ u ≠ t, ∀ q, s.pc u = .linking q → s'.refcnt q = s.refcnt q) : Named s' := by
  have cases_ (u : T) : u = t ∧ s'.pc u = pc ∨ u ≠ t ∧ s'.pc u = s.pc u := by
    rw [place]
    by_cases same : u = t
    · exact .inl ⟨same, by rw [same, update_self]⟩
    · exact .inr ⟨same, update_of_ne same ..⟩
  refine ⟨fun q mem => ?_, fun u q has => ?_, fun u v q has has' => ?_, freed, nodup, fun u q linking => ?_⟩
  · obtain ⟨lt, out, notMine, theirs⟩ := pool q mem
    refine ⟨lt, out, fun u => ?_⟩
    rcases cases_ u with ⟨-, at_⟩ | ⟨other, at_⟩
    · rwa [at_]
    · rw [at_]
      exact theirs u other
  · rcases cases_ u with ⟨-, at_⟩ | ⟨other, at_⟩
    · obtain ⟨lt, out, -⟩ := mine q (at_ ▸ has)
      exact ⟨lt, out⟩
    · exact others u other q (at_ ▸ has)
  · rcases cases_ u with ⟨hu, at_⟩ | ⟨hu, at_⟩ <;> rcases cases_ v with ⟨hv, at'⟩ | ⟨hv, at'⟩ <;>
      rw [at_] at has <;> rw [at'] at has'
    · exact hu.trans hv.symm
    · exact absurd has' ((mine q has).2.2 v hv)
    · exact absurd has ((mine q has').2.2 u hu)
    · exact h.once u v q has has'
  · rcases cases_ u with ⟨-, at_⟩ | ⟨other, at_⟩ <;> rw [at_] at linking
    · exact fresh q linking
    · rw [kept u other q linking]
      exact h.fresh u q linking

theorem Named.move (h : Named s) {pc₀ : Pc} (start : s.pc t = pc₀) (place : s'.pc = update s.pc t pc)
    (allocated : s'.allocated = s.allocated) (freed : s'.freed = s.freed) (pool : s'.pool = s.pool)
    (own : ∀ q, pc.owns = some q → pc₀.owns = some q) (old : ∀ q, pc ≠ .linking q)
    (refcnt : ∀ u q, s.pc u = .linking q → s'.refcnt q = s.refcnt q) : Named s' := by
  subst start
  refine h.step place (fun q mem => ?_) (fun q has => ?_) (fun u _ q has => ?_) ?_ ?_
    (fun q at_ => absurd at_ (old q))
    fun u _ => refcnt u
  · obtain ⟨lt, out, alone⟩ := h.pool q (pool ▸ mem)
    rw [allocated, freed]
    exact ⟨lt, out, fun has => alone t (own q has), fun u _ => alone u⟩
  · obtain ⟨lt, out⟩ := h.owned t q (own q has)
    rw [allocated, freed]
    exact ⟨lt, out, fun u other theirs => other (h.once u t q theirs (own q has))⟩
  · rw [allocated, freed]
    exact h.owned u q has
  · rw [freed, allocated]
    exact h.freed
  · rw [freed]
    exact h.nodup

omit [DecidableEq T] in
theorem Named.refcnt_linking (h : Named s) (mem : p ∈ s.pool) (d : ℤ) (u : T) (q : Peer)
    (linking : s.pc u = .linking q) :
    update s.refcnt p d q = s.refcnt q := by
  apply update_of_ne
  rintro rfl
  exact (h.pool q mem).2.2 u (by rw [linking]; rfl)

theorem Named.allocate (h : Named s) (daddr : BitVec 32) : Named (allocate s t daddr) := by
  have new : ∀ q : Peer, q.id < s.allocated → q ≠ ⟨s.allocated, daddr⟩ := by
    rintro q lt rfl
    exact Nat.lt_irrefl _ lt
  refine h.step rfl (fun q mem => ?_) (fun q has => ?_) (fun u _ q has => ?_)
    (fun q mem => Nat.lt_succ_of_lt (h.freed q mem))
    h.nodup (fun q at_ => ?_) fun u _ q linking => ?_
  · obtain ⟨lt, out, alone⟩ := h.pool q mem
    exact ⟨Nat.lt_succ_of_lt lt, out, fun has => new q lt (Option.some.inj has).symm, fun u _ => alone u⟩
  · obtain rfl := Option.some.inj has
    exact ⟨Nat.lt_succ_self _, fun mem => Nat.lt_irrefl _ (h.freed _ mem),
      fun u _ theirs => Nat.lt_irrefl _ (h.owned u _ theirs).1⟩
  · exact ⟨Nat.lt_succ_of_lt (h.owned u q has).1, (h.owned u q has).2⟩
  · obtain rfl := Pc.linking.inj at_
    exact update_self ..
  · exact update_of_ne (new q (h.owned u q (by rw [linking]; rfl)).1) ..

theorem Named.free (h : Named s) (place : s.pc t = .freeing p) :
    Named ({ s with freed := p :: s.freed }.goto t .idle) := by
  have mine : (s.pc t).owns = some p := by
    rw [place]
    rfl
  obtain ⟨lt, out⟩ := h.owned t p mine
  refine h.step rfl (fun q mem => ?_) nofun (fun u other q theirs => ?_) (fun q mem => ?_)
    (nodup_cons.mpr ⟨out, h.nodup⟩) nofun fun _ _ _ _ => rfl
  · obtain ⟨lt, out, alone⟩ := h.pool q mem
    refine ⟨lt, fun freed => ?_, nofun, fun u _ => alone u⟩
    rcases mem_cons.mp freed with rfl | freed
    · exact alone t mine
    · exact out freed
  · refine ⟨(h.owned u q theirs).1, fun freed => ?_⟩
    rcases mem_cons.mp freed with rfl | freed
    · exact other (h.once u t q theirs mine)
    · exact (h.owned u q theirs).2 freed
  · rcases mem_cons.mp mem with rfl | mem
    · exact lt
    · exact h.freed q mem

end Names

structure Inv (s : State T) : Prop where
  counted : Counted s
  named : Named s

variable [DecidableEq T]

section

variable (inv : Inv s)
include inv

theorem Inv.goto {pc₀ : Pc} (start : s.pc t = pc₀) (refs : ∀ q, pc.refs q = pc₀.refs q)
    (pending : ∀ q, pc.pending q = pc₀.pending q) (own : ∀ q, pc.owns = some q → pc₀.owns = some q)
    (old : ∀ q, pc ≠ .linking q) : Inv (s.goto t pc) :=
  ⟨inv.counted.move (.same start rfl rfl) rfl rfl (fun _ _ => rfl) refs pending,
    inv.named.move start rfl rfl rfl rfl own old fun _ _ _ => rfl⟩

theorem Inv.takeReference {pc₀ : Pc} (start : s.pc t = pc₀) (mem : p ∈ s.pool) (refs : ∀ q, pc₀.refs q = 0)
    (pending : ∀ q, pc₀.pending q = 0) {spare : Option Peer} (own : pc₀.owns = spare) :
    Inv (takeReference s t p spare) := by
  have c := inv.counted
  have m : Moves s (InetPeer.takeReference s t p spare) t pc₀ (.unlinking p spare)
      (update (s.held t) p (s.held t p + 1)) :=
    ⟨start, rfl, rfl⟩
  refine ⟨c.step m (fun q => ?_) c.sorted (fun q inPool => ?_) (fun q out => ?_)
    (fun q unused => ⟨(c.unused q unused).1, unused, ?_⟩) c.nodup, inv.named.move start rfl rfl rfl rfl
    (fun _ has => own.trans has) nofun (inv.named.refcnt_linking mem _)⟩
  all_goals simp only [refs, pending, update_add]
  · exact Nat.le_add_left ..
  · change update s.refcnt p (s.refcnt p + 1) q + _ = _ + ((0 + _ : ℕ) : ℤ)
    rw [update_add, c.count q inPool]
    split <;> omega
  · rw [c.linked q out, if_neg fun same : p = q => out (by rw [← same]; exact mem)]
    exact Nat.zero_add _
  · exact (Nat.zero_add _).trans (by rw [Nat.zero_add]; rfl)

theorem Inv.givePut (idle : s.pc t = .idle) (holds : 0 < s.held t p) :
    Inv ((s.setHeld t p (s.held t p - 1)).goto t (.putting p)) := by
  have c := inv.counted
  have own (q : Peer) : (Pc.putting p).refs q + update (s.held t) p (s.held t p - 1) q = 0 + s.held t q := by
    simp only [Pc.refs]
    split
    next same =>
      rw [← same, update_self]
      omega
    next other => rw [update_of_ne (Ne.symm other)]
  refine ⟨c.step ⟨idle, rfl, rfl⟩ (fun _ => Nat.zero_le _) c.sorted (fun q mem => ?_) (fun q out => ?_)
    (fun q unused => ⟨(c.unused q unused).1, unused, ?_⟩) c.nodup,
    inv.named.move idle rfl rfl rfl rfl nofun nofun fun _ _ _ => rfl⟩
  · rw [own, ← c.count q mem]
    rfl
  · rw [own, c.linked q out, Nat.zero_add]
    rfl
  · rw [own]
    rfl

theorem Inv.call (idle : s.pc t = .idle) (c : Call) : Inv (call s t c) := by
  cases c with
  | inetGetpeer daddr create =>
    unfold InetPeer.call getpeer
    dsimp only
    split
    next p found => exact inv.takeReference idle (lookup_mem found).1 (fun _ => rfl) (fun _ => rfl) rfl
    next =>
      cases create with
      | true | false => exact inv.goto idle (fun _ => rfl) (fun _ => rfl) nofun nofun
  | inetPutpeer p =>
    unfold InetPeer.call
    dsimp only
    split
    next holds => exact inv.givePut idle holds
    next => exact inv
  | cleanupOnce ttl => exact inv.goto idle (fun _ => rfl) (fun _ => rfl) nofun nofun

theorem Inv.link (start : s.pc t = .linking n) : Inv (link s t n) := by
  obtain ⟨c, h⟩ := inv
  have mine : (s.pc t).owns = some n := by
    rw [start]
    rfl
  have out : n ∉ s.pool := fun mem => (h.pool n mem).2.2 t mine
  unfold InetPeer.link
  split
  next p found => exact Inv.takeReference ⟨c, h⟩ start (lookup_mem found).1 (fun _ => rfl) (fun _ => rfl) rfl
  next fresh =>
    have other : ∀ q ∈ s.pool, n ≠ q := fun q mem same => out (by rw [same]; exact mem)
    have linked {q : Peer} := @mem_linkToPool s.pool q n c.sorted fresh
    refine ⟨c.step ⟨start, rfl, rfl⟩ (fun _ => Nat.zero_le _) (sorted_linkToPool c.sorted fresh) (fun q mem => ?_)
      (fun q notIn => ?_) (fun q unused => ?_) c.nodup,
        h.step rfl (fun q mem => ?_) nofun (fun u _ => h.owned u) h.freed
      h.nodup nofun fun _ _ _ _ => rfl⟩
    · change s.refcnt q + ((0 + _ : ℕ) : ℤ) = _ + ((0 + update (s.held t) n (s.held t n + 1) q : ℕ) : ℤ)
      rw [update_add]
      rcases linked.mp mem with rfl | mem
      · rw [if_pos rfl, c.linked q out, h.fresh t q start]
        omega
      · rw [if_neg (other q mem), ← c.count q mem, Nat.add_zero]
    · have outside := fun mem => notIn (linked.mpr mem)
      rw [update_of_ne fun same => outside (.inl same), c.linked q fun mem => outside (.inr mem), Nat.zero_add]
      rfl
    · have inPool := (c.unused q unused).1
      rw [update_of_ne (other q inPool).symm]
      exact ⟨linked.mpr (.inr inPool), unused, rfl⟩
    · rcases linked.mp mem with rfl | mem
      · exact ⟨(h.owned t q mine).1, (h.owned t q mine).2, nofun,
          fun u other theirs => other (h.once u t q theirs mine)⟩
      · obtain ⟨lt, out, alone⟩ := h.pool q mem
        exact ⟨lt, out, nofun, fun u _ => alone u⟩

theorem Inv.unlinkFromUnused {spare : Option Peer} (start : s.pc t = .unlinking p spare) :
    Inv (unlinkFromUnused s t p spare) := by
  have c := inv.counted
  have after : ∀ pc : Pc, (∀ q, pc.refs q = 0) → (∀ q, pc.pending q = 0) → (∀ q, pc.owns = some q → spare = some q) →
      (∀ q, pc ≠ .linking q) → Inv ({ s with unusedPeers := s.unusedPeers.erase p }.goto t pc) := by
    intro pc refs pending own old
    refine ⟨c.step (.same start rfl rfl) (fun q => ?_) c.sorted (fun q mem => ?_) (fun q out => ?_) (fun q mem => ?_)
      (c.nodup.erase p), inv.named.move start rfl rfl rfl rfl own old fun _ _ _ => rfl⟩
    · rw [pending]
      exact Nat.zero_le _
    · rw [refs, ← c.count q mem]
      rfl
    · rw [refs, c.linked q out, Nat.zero_add]
      rfl
    · obtain ⟨other, mem⟩ := (c.nodup.mem_erase_iff).mp mem
      rw [refs, pending, show (Pc.unlinking p spare).pending q = 0 from if_neg other.symm]
      exact ⟨(c.unused q mem).1, mem, rfl⟩
  cases spare with
  | none => exact after .idle (fun _ => rfl) (fun _ => rfl) nofun nofun
  | some n => exact after (.freeing n) (fun _ => rfl) (fun _ => rfl) (fun _ has => has) nofun

theorem Inv.cleanupOnce {ttl : ℕ} (start : s.pc t = .cleaning ttl) (now : BitVec 32) :
    Inv (cleanupOnce s t ttl now) := by
  have c := inv.counted
  have stop : Inv (s.goto t .idle) := inv.goto start (fun _ => rfl) (fun _ => rfl) nofun nofun
  unfold InetPeer.cleanupOnce
  cases list : s.unusedPeers with
  | nil => exact stop
  | cons p rest =>
    dsimp only
    split
    · exact stop
    obtain ⟨mem, pend⟩ := c.unused p (by rw [list]; exact mem_cons_self)
    have nodup := c.nodup
    rw [list] at nodup
    obtain ⟨out, nodup⟩ := nodup_cons.mp nodup
    refine ⟨c.step (.same start rfl rfl) (fun _ => Nat.zero_le _) c.sorted (fun q inPool => ?_) (fun q free => ?_)
      (fun q left => ?_) nodup, inv.named.move start rfl rfl rfl rfl nofun nofun
      (inv.named.refcnt_linking mem _)⟩
    · change update s.refcnt p (s.refcnt p + 1) q + ((0 + _ : ℕ) : ℤ) = _ + (((if p = q then 1 else 0) + _ : ℕ) : ℤ)
      rw [update_add, c.count q inPool]
      split <;> omega
    · have other : p ≠ q := fun same => free (by rw [← same]; exact mem)
      rw [c.linked q free, Nat.zero_add, Pc.refs, if_neg other]
      rfl
    · have other : p ≠ q := by
        rintro rfl
        exact out left
      have unused : q ∈ s.unusedPeers := by
        rw [list]
        exact mem_cons_of_mem p left
      rw [Pc.refs, if_neg other]
      exact ⟨(c.unused q unused).1, unused, rfl⟩

/-- If the only reference left is the one `cleanup_once` has taken, the peer leaves the pool. -/
theorem Inv.unlinkFromPool (start : s.pc t = .pooling p) : Inv (unlinkFromPool s t p) := by
  obtain ⟨c, h⟩ := inv
  have more : (Pc.pooling p).refs p ≠ 0 := by simp [Pc.refs]
  have mem := c.mem_of_refs start more
  unfold InetPeer.unlinkFromPool
  split
  next one =>
    rw [if_pos (lookup_of_mem c.sorted mem).1]
    have left {q : Peer} := @mem_unlinkNode s.pool p q c.sorted mem
    refine ⟨c.step (.same start rfl rfl) (fun _ => Nat.zero_le _) (sorted_unlinkNode c.sorted mem)
      (fun q inPool => ?_)
      (fun q out => ?_) (fun q unused => ?_) c.nodup,
        h.step rfl (fun q inPool => ?_) (fun q has => ?_) (fun u _ => h.owned u)
      h.freed h.nodup nofun fun _ _ _ _ => rfl⟩
    · obtain ⟨inPool, other⟩ := left.mp inPool
      rw [show (Pc.pooling p).refs q = 0 from if_neg other.symm, ← c.count q inPool]
      rfl
    · have count := c.count p mem
      change s.refs q + (0 + _) = (if p = q then 1 else 0) + _
      split
      next same =>
        subst same
        omega
      next other => rw [c.linked q fun inPool => out (left.mpr ⟨inPool, Ne.symm other⟩), Nat.zero_add]
    · have other : p ≠ q := by
        rintro rfl
        exact c.not_unused start more unused
      rw [Pc.refs, if_neg other]
      exact ⟨left.mpr ⟨(c.unused q unused).1, other.symm⟩, unused, rfl⟩
    · obtain ⟨inPool, other⟩ := left.mp inPool
      obtain ⟨lt, out, alone⟩ := h.pool q inPool
      exact ⟨lt, out, fun has => other (Option.some.inj has).symm, fun u _ => alone u⟩
    · obtain rfl := Option.some.inj has
      obtain ⟨lt, out, alone⟩ := h.pool p mem
      exact ⟨lt, out, fun u _ => alone u⟩
  next => exact Inv.goto ⟨c, h⟩ start (fun _ => rfl) (fun _ => rfl) nofun nofun

theorem Inv.putpeer (start : s.pc t = .putting p) (now : BitVec 32) : Inv (putpeer s t p now) := by
  obtain ⟨c, h⟩ := inv
  have more : (Pc.putting p).refs p ≠ 0 := by simp [Pc.refs]
  have mem := c.mem_of_refs start more
  have put : Counted ((s.addRefcnt p (-1)).goto t .idle) := by
    refine c.step (.same start rfl rfl) (fun _ => Nat.zero_le _) c.sorted (fun q inPool => ?_) (fun q out => ?_)
      (fun q unused => ⟨(c.unused q unused).1, unused, ?_⟩) c.nodup
    · change update s.refcnt p (s.refcnt p + -1) q + (((if p = q then 1 else 0) + _ : ℕ) : ℤ) = _ + ((0 + _ : ℕ) : ℤ)
      rw [update_add, c.count q inPool]
      split <;> omega
    · have other : p ≠ q := fun same => out (by rw [← same]; exact mem)
      rw [c.linked q out, show (Pc.putting p).refs q = 0 from if_neg other, Nat.zero_add]
      rfl
    · have other : p ≠ q := fun same => c.not_unused start more (same ▸ unused)
      rw [show (Pc.putting p).refs q = 0 from if_neg other]
      rfl
  unfold InetPeer.putpeer
  dsimp only
  split
  next zero =>
    refine ⟨put.addUnused mem (c.not_unused start more) ?_ _, ?_⟩
    · have eq := put.count p mem
      rw [show ((s.addRefcnt p (-1)).goto t .idle).refcnt p = 0 from zero] at eq
      exact_mod_cast eq.symm
    · exact h.move start rfl rfl rfl rfl nofun nofun (h.refcnt_linking mem _)
  next => exact ⟨put, h.move start rfl rfl rfl rfl nofun nofun (h.refcnt_linking mem _)⟩

theorem Inv.step (threshold : ℤ) (t : T) (c : Call) (now : BitVec 32) (room : Bool) :
    Inv (step threshold s t c now room) := by
  unfold InetPeer.step
  cases start : s.pc t with
  | idle => exact inv.call start c
  | allocating daddr =>
    cases room with
    | true =>
      refine ⟨inv.counted.move (.same start rfl rfl) rfl rfl (fun q mem => ?_) (fun _ => rfl) fun _ => rfl,
        inv.named.allocate daddr⟩
      apply update_of_ne
      rintro rfl
      exact Nat.lt_irrefl _ (inv.named.pool _ mem).1
    | false => exact inv.goto start (fun _ => rfl) (fun _ => rfl) nofun nofun
  | linking n => exact inv.link start
  | unlinking p spare => exact inv.unlinkFromUnused start
  | counting =>
    dsimp only
    split
    all_goals exact inv.goto start (fun _ => rfl) (fun _ => rfl) nofun nofun
  | cleaning ttl => exact inv.cleanupOnce start now
  | pooling p => exact inv.unlinkFromPool start
  | putting p => exact inv.putpeer start now
  | freeing p =>
    exact ⟨inv.counted.move (.same start rfl rfl) rfl rfl (fun _ _ => rfl) (fun _ => rfl) fun _ => rfl,
      inv.named.free start⟩
  | bug => exact inv

end

omit [DecidableEq T] in
theorem Inv.init : Inv (initPeers T) := by
  have refs : ∀ p, (initPeers T).refs p = 0 := by
    intro p
    have held : total (fun f : Peer → ℕ => f p) (initPeers T).held = 0 := total_eq_zero fun _ => rfl
    have places : total (Pc.refs p) (initPeers T).pc = 0 := total_eq_zero fun _ => rfl
    unfold State.refs
    rw [held, places]
  refine ⟨⟨List.Pairwise.nil, fun p mem => absurd mem not_mem_nil, fun p _ => refs p, nofun, nodup_nil,
    fun _ _ => Nat.le_refl 0⟩, fun p mem => absurd mem not_mem_nil, nofun, nofun, nofun, nodup_nil, nofun⟩

/-- A peer that a thread is about to free is referenced by no thread, is in neither the pool nor the unused
list and has not been freed before; and a peer on the unused list has no references, or a thread that has
just taken one is about to unlink it. -/
theorem inet_peer_freed_once {threshold : ℤ} (h : Transition.Reachable (· = initPeers T) (Step threshold) s) :
    (∀ t p, s.pc t = .freeing p →
        (∀ u, s.held u p = 0 ∧ (s.pc u).refs p = 0) ∧ p ∉ s.pool ∧ p ∉ s.unusedPeers ∧ p ∉ s.freed) ∧ s.freed.Nodup ∧
      ∀ p ∈ s.unusedPeers, s.refcnt p = 0 ∨ ∃ t spare, s.pc t = .unlinking p spare ∧ 0 < s.held t p := by
  have inv : Inv s := by
    refine h.invariant Inv ?_ ?_
    · rintro _ rfl
      exact Inv.init
    · rintro s _ inv ⟨t, c, now, room, rfl⟩
      exact inv.step threshold t c now room
  refine ⟨fun t p freeing => ?_, inv.named.nodup, fun p unused => ?_⟩
  · have own : (s.pc t).owns = some p := by
      rw [freeing]
      rfl
    have out : p ∉ s.pool := fun mem => (inv.named.pool p mem).2.2 t own
    refine ⟨fun u => ?_, out, fun mem => out (inv.counted.unused p mem).1, (inv.named.owned t p own).2⟩
    have none := inv.counted.linked p out
    have held := le_total (fun f : Peer → ℕ => f p) s.held u
    have refs := le_total (Pc.refs p) s.pc u
    unfold State.refs at none
    omega
  · obtain ⟨mem, eq⟩ := inv.counted.unused p unused
    rw [inv.counted.count p mem, eq]
    by_cases zero : s.pending p = 0
    · exact .inl (by rw [zero]; rfl)
    obtain ⟨t, some⟩ := exists_of_total_pos (Nat.pos_of_ne_zero zero)
    refine .inr ⟨t, ?_⟩
    have held := inv.counted.pending t p
    cases place : s.pc t with
    | unlinking q spare =>
      rw [place] at some held
      by_cases same : q = p
      · exact ⟨spare, by rw [same], Nat.lt_of_lt_of_le some held⟩
      · rw [show (Pc.unlinking q spare).pending p = 0 from if_neg same] at some
        exact absurd some (Nat.lt_irrefl 0)
    | _ =>
      rw [place] at some
      exact absurd some (Nat.lt_irrefl 0)

/-- A peer is created, given back, found to have expired and unlinked from the pool. -/
def expired : State (Fin 1) :=
  [Call.inetGetpeer 7 true, .cleanupOnce 0, .cleanupOnce 0, .cleanupOnce 0, .inetPutpeer ⟨0, 7⟩, .cleanupOnce 0,
    .cleanupOnce 0, .cleanupOnce 0, .cleanupOnce 0].foldl (fun s c => step 1000 s 0 c 0 true) (initPeers (Fin 1))

theorem inet_peer_freed_once_expired :
    expired.pc 0 = .freeing ⟨0, 7⟩ ∧ (⟨0, 7⟩ : Peer) ∉ expired.pool ∧ (⟨0, 7⟩ : Peer) ∉ expired.freed := by
  have reach : Transition.Reachable (· = initPeers (Fin 1)) (Step 1000) expired := by
    apply Transition.Reachable.foldl
    · exact .start rfl
    · exact fun s c => ⟨0, c, 0, true, rfl⟩
  have freeing : expired.pc 0 = .freeing ⟨0, 7⟩ := rfl
  obtain ⟨-, out, -, new⟩ := (inet_peer_freed_once reach).1 0 _ freeing
  exact ⟨freeing, out, new⟩

end InetPeer
