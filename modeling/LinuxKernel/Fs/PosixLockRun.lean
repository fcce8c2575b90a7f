/- Runs of lock requests: the locks of an inode stay in order, a request changes what it asks for, and
waiters wait for locks that block them. -/
import Mathlib.Data.List.TakeWhile
import LinuxKernel.Foundation.Transition
import LinuxKernel.Fs.PosixLockWait

namespace PosixLock

open List Function

variable {ι ω : Type} [DecidableEq ι] [DecidableEq ω]

def owned (o : ω) (locks : List (FileLock ω)) : List (FileLock ω) :=
  locks.filter fun fl => fl.owner = o

structure ListOk (locks : List (FileLock ω)) : Prop where
  nodup : (ids locks).Nodup
  tidy : ∀ o, Tidy o (owned o locks)
  grouped : ∀ a b c, [a, b, c].Sublist locks → a.owner = c.owner → b.owner = a.owner
  exclusive : ∀ o p, o ≠ p → ∀ b t, Holds (owned o locks) b .wrlck → ¬Holds (owned p locks) b t

section Owned

variable {o : ω} {locks A M C : List (FileLock ω)}

theorem owned_append (l₁ l₂ : List (FileLock ω)) : owned o (l₁ ++ l₂) = owned o l₁ ++ owned o l₂ :=
  filter_append ..

theorem owned_eq_nil (h : ∀ fl ∈ locks, fl.owner ≠ o) : owned o locks = [] := by
  simpa [owned] using h

theorem owned_eq_self (h : ∀ fl ∈ locks, fl.owner = o) : owned o locks = locks := by
  simpa [owned] using h

theorem mem_owned {fl : FileLock ω} : fl ∈ owned o locks ↔ fl ∈ locks ∧ fl.owner = o := by
  simp [owned]

/-- The list around the locks of an owner; an owner without locks has no place in it yet. -/
structure Around (o : ω) (locks A M C : List (FileLock ω)) : Prop where
  eq : locks = A ++ M ++ C
  front : A = locks.takeWhile fun fl => decide (fl.owner ≠ o)
  rest : M ++ C = locks.dropWhile fun fl => decide (fl.owner ≠ o)
  own : M = owned o locks
  before : ∀ fl ∈ A, fl.owner ≠ o
  after : ∀ fl ∈ C, fl.owner ≠ o
  last : M = [] → C = []

theorem around_exists (grouped : ∀ a b c, [a, b, c].Sublist locks → a.owner = c.owner → b.owner = a.owner)
    (o : ω) : ∃ A M C, Around o locks A M C := by
  set others := fun fl : FileLock ω => decide (fl.owner ≠ o)
  set A := locks.takeWhile others
  set D := locks.dropWhile others with hD
  set M := D.takeWhile fun fl => decide (fl.owner = o) with hM
  set C := D.dropWhile fun fl => decide (fl.owner = o) with hC
  have whole : A ++ D = locks := takeWhile_append_dropWhile
  have parts : M ++ C = D := takeWhile_append_dropWhile
  have before : ∀ fl ∈ A, fl.owner ≠ o := fun fl hfl => by simpa [others] using mem_takeWhile_imp hfl
  have inside : ∀ fl ∈ M, fl.owner = o := fun fl hfl => by simpa using mem_takeWhile_imp hfl
  have first : ∀ d D', D = d :: D' → d.owner = o := by
    intro d D' h
    have := List.head?_dropWhile_not others locks
    rw [← hD, h] at this
    simpa [others] using this
  have other : ∀ c C', C = c :: C' → c.owner ≠ o := by
    intro c C' h
    have := List.head?_dropWhile_not (fun fl : FileLock ω => decide (fl.owner = o)) D
    rw [← hC, h] at this
    simpa using this
  have last : M = [] → C = [] := by
    intro h
    cases hcases : D with
    | nil => rw [hC, hcases]; rfl
    | cons d D' =>
      rw [hM, hcases, takeWhile_cons_of_pos (by simpa using first d D' hcases)] at h
      cases h
  have after : ∀ fl ∈ C, fl.owner ≠ o := by
    intro fl hfl same
    cases hc : C with
    | nil => rw [hc] at hfl; cases hfl
    | cons c C' =>
      have c_other := other c C' hc
      cases hm : M with
      | nil => rw [last hm] at hc; cases hc
      | cons m M' =>
        have later : fl ∈ C' := by
          rw [hc] at hfl
          rcases mem_cons.mp hfl with rfl | h
          · exact absurd same c_other
          · exact h
        have sub : [m, c, fl].Sublist locks := by
          rw [← whole, ← parts, hm, hc]
          refine List.Sublist.trans ?_ (sublist_append_right A _)
          refine List.Sublist.cons_cons m (List.Sublist.trans ?_ (sublist_append_right M' _))
          exact List.Sublist.cons_cons c (singleton_sublist.mpr later)
        have m_own : m.owner = o := inside m (by simp [hm])
        exact c_other ((grouped m c fl sub (m_own.trans same.symm)).trans m_own)
  refine ⟨A, M, C, ⟨by rw [append_assoc, parts, whole], rfl, parts, ?_, before, after, last⟩⟩
  rw [← whole, ← parts, owned_append, owned_append, owned_eq_nil before, owned_eq_nil after,
    owned_eq_self inside]
  simp

omit [DecidableEq ω] in
theorem sublist_three {a b c : FileLock ω} (h : [a, b, c].Sublist (A ++ M ++ C)) :
    (a ∈ A ∧ b ∈ M ∧ c ∈ C) ∨ (a ∈ M ∧ (b ∈ M ∨ c ∈ C)) ∨ (c ∈ M ∧ (b ∈ M ∨ a ∈ A)) ∨ [a, b, c].Sublist (A ++ C) := by
  obtain ⟨l, l₃, eq, hl, h₃⟩ := sublist_append_iff.mp h
  obtain ⟨l₁, l₂, rfl, h₁, h₂⟩ := sublist_append_iff.mp hl
  have mem₁ := h₁.subset
  have mem₂ := h₂.subset
  have mem₃ := h₃.subset
  rcases l₂ with _ | ⟨x, l₂⟩
  · rw [eq, append_nil]
    exact .inr (.inr (.inr (h₁.append h₃)))
  rcases l₁ with _ | ⟨y, _ | ⟨z, l₁⟩⟩
  · obtain ⟨rfl, tail⟩ : a = x ∧ [b, c] = l₂ ++ l₃ := by simpa using eq
    refine .inr (.inl ⟨mem₂ (by simp), ?_⟩)
    cases l₂ with
    | nil => exact .inr (mem₃ (by rw [nil_append] at tail; simp [← tail]))
    | cons y l₂ =>
      obtain ⟨rfl, -⟩ : b = y ∧ [c] = l₂ ++ l₃ := by simpa using tail
      exact .inl (mem₂ (by simp))
  · obtain ⟨rfl, rfl, tail⟩ : a = y ∧ b = x ∧ [c] = l₂ ++ l₃ := by simpa using eq
    have mem : c ∈ l₂ ++ l₃ := by rw [← tail]; simp
    rcases mem_append.mp mem with h | h
    · exact .inr (.inr (.inl ⟨mem₂ (by simp [h]), .inl (mem₂ (by simp))⟩))
    · exact .inl ⟨mem₁ (by simp), mem₂ (by simp), mem₃ h⟩
  · obtain ⟨rfl, rfl, tail⟩ : a = y ∧ b = z ∧ [c] = l₁ ++ x :: (l₂ ++ l₃) := by simpa using eq
    cases l₁ with
    | nil =>
      obtain ⟨rfl, -⟩ : c = x ∧ [] = l₂ ++ l₃ := by simpa using tail
      exact .inr (.inr (.inl ⟨mem₂ (by simp), .inr (mem₁ (by simp))⟩))
    | cons w l₁ => simp at tail

/-- The owner's locks may change as long as they stay in their place. -/
theorem Around.grouped (around : Around o locks A M C)
    (grouped : ∀ a b c, [a, b, c].Sublist locks → a.owner = c.owner → b.owner = a.owner)
    {M' : List (FileLock ω)} (own : ∀ fl ∈ M', fl.owner = o) (a b c : FileLock ω)
    (sub : [a, b, c].Sublist (A ++ M' ++ C)) (same : a.owner = c.owner) : b.owner = a.owner := by
  rcases sublist_three sub with ⟨ha, -, hc⟩ | ⟨ha, hb⟩ | ⟨hc, hb⟩ | sub
  · -- between two locks of another owner there was a lock of this one
    cases hm : M with
    | nil => rw [around.last hm] at hc; cases hc
    | cons m M₀ =>
      have between : [a, m, c].Sublist locks := by
        rw [around.eq, hm]
        exact ((singleton_sublist.mpr ha).append (singleton_sublist.mpr (by simp))).append
          (singleton_sublist.mpr hc)
      have m_own : m.owner = o := (mem_owned.mp (around.own ▸ (by simp [hm] : m ∈ M))).2
      exact absurd ((grouped a m c between same).symm.trans m_own) (around.before a ha)
  · rcases hb with hb | hc
    · exact (own b hb).trans (own a ha).symm
    · exact absurd (same.symm.trans (own a ha)) (around.after c hc)
  · rcases hb with hb | ha
    · exact (own b hb).trans ((own c hc).symm.trans same.symm)
    · exact absurd (same.trans (own c hc)) (around.before a ha)
  · refine grouped a b c (sub.trans ?_) same
    rw [around.eq, append_assoc]
    exact List.Sublist.append_left (sublist_append_right M C) A

end Owned

/-- A range that the system calls let through. -/
structure Valid (q : FileLock ω) : Prop where
  nonneg : 0 ≤ q.start
  le : q.start ≤ q.stop
  limit : q.stop ≤ offsetMax

section SetLock

variable {r : Request ω} {locks : List (FileLock ω)} {newFl newFl2 : Option Nat}

theorem setLock_answers (ok : ListOk locks) (valid : Valid r.lock) (fresh : Fresh newFl newFl2 locks)
    {A M C : List (FileLock ω)} (around : Around r.lock.owner locks A M C) :
    Answers r.lock.owner A M C r.lock (setLock r newFl newFl2 locks) := by
  have go : Going r.lock.owner A [] M C r.lock none := by
    refine ⟨?_, ⟨by simp, by simp, by simp⟩, rfl, valid.nonneg, valid.le, valid.limit, ?_, ?_⟩
    · rw [around.own]
      exact ok.tidy _
    · rw [nil_append, ← around.eq]
      exact ok.nodup
    · exact fun c hc => around.after c (mem_of_mem_head? hc)
  unfold setLock
  simp only
  rw [← around.front, ← around.rest]
  rw [around.eq] at fresh
  simpa using settle_request go (fun _ => rfl) fresh

structure Carried (q : FileLock ω) (locks locks' : List (FileLock ω)) : Prop where
  own : ∀ b t, Holds (owned q.owner locks') b t ↔ Over q (owned q.owner locks) b t
  others : ∀ o, o ≠ q.owner → owned o locks' = owned o locks

/-- Another owner's lock on a requested byte lets the request through only if both are read locks. -/
theorem read_of_free {q : FileLock ω}
    (free : q.type ≠ .unlck → ∀ fl ∈ locks, posixLocksConflict q fl = false) (lock : q.type ≠ .unlck)
    {p : ω} (ne : p ≠ q.owner) {b : Int} {t : LockType} (cover : Covers q b)
    (h : Holds (owned p locks) b t) : q.type ≠ .wrlck ∧ t ≠ .wrlck := by
  obtain ⟨fl, mem, rfl, cover'⟩ := h
  obtain ⟨hfl, rfl⟩ := mem_owned.mp mem
  have overlap : locksOverlap q fl = true := by
    unfold Covers at cover cover'
    simp only [locksOverlap, Bool.and_eq_true, decide_eq_true_eq]
    omega
  have none := free lock fl hfl
  rw [posixLocksConflict, if_neg (Ne.symm ne), overlap] at none
  simp only [Bool.not_true, Bool.false_eq_true, if_false, locksConflict, Bool.or_eq_false_iff,
    beq_eq_false_iff_ne] at none
  exact ⟨none.2, none.1⟩

theorem Carried.exclusive {q : FileLock ω} {locks' : List (FileLock ω)} (carried : Carried q locks locks')
    (free : q.type ≠ .unlck → ∀ fl ∈ locks, posixLocksConflict q fl = false)
    (exclusive : ∀ o p, o ≠ p → ∀ b t, Holds (owned o locks) b .wrlck → ¬Holds (owned p locks) b t)
    (o p : ω) (ne : o ≠ p) (b : Int) (t : LockType) (write : Holds (owned o locks') b .wrlck) :
    ¬Holds (owned p locks') b t := by
  intro other
  by_cases ho : o = q.owner
  · subst ho
    rw [carried.others p ne.symm] at other
    rcases (carried.own b .wrlck).mp write with ⟨cover, type, lock⟩ | ⟨-, old⟩
    · exact (read_of_free free (type ▸ lock) ne.symm cover other).1 type.symm
    · exact exclusive _ p ne b t old other
  · rw [carried.others o ho] at write
    by_cases hp : p = q.owner
    · subst hp
      rcases (carried.own b t).mp other with ⟨cover, type, lock⟩ | ⟨-, old⟩
      · exact (read_of_free free (type ▸ lock) ne cover write).2 rfl
      · exact exclusive o _ ne b t write old
    · rw [carried.others p hp] at other
      exact exclusive o p ne b t write other

theorem setLock_spec (ok : ListOk locks) (valid : Valid r.lock) (fresh : Fresh newFl newFl2 locks)
    (request : r.lock.id ∉ ids locks)
    (free : r.lock.type ≠ .unlck → ∀ fl ∈ locks, posixLocksConflict r.lock fl = false) :
    Refuses locks (setLock r newFl newFl2 locks) ∨
      ((setLock r newFl newFl2 locks).ret = .ok ∧ ListOk (setLock r newFl newFl2 locks).locks ∧
        Carried r.lock locks (setLock r newFl newFl2 locks).locks) := by
  obtain ⟨A, M, C, around⟩ := around_exists ok.grouped r.lock.owner
  have nodup := (setLock_traced ok.nodup request fresh).nodup
  rcases setLock_answers ok valid fresh around with refused | ⟨ret, M', eq, tidy, holds⟩
  · exact .inl (around.eq ▸ refused)
  have own : owned r.lock.owner (A ++ M' ++ C) = M' := by
    rw [owned_append, owned_append, owned_eq_nil around.before, owned_eq_nil around.after,
      owned_eq_self fun fl hfl => (tidy.ok fl hfl).owner]
    simp
  have others : ∀ o, o ≠ r.lock.owner → owned o (A ++ M' ++ C) = owned o locks := by
    intro o ne
    have none : ∀ N : List (FileLock ω), (∀ fl ∈ N, fl.owner = r.lock.owner) → owned o N = [] :=
      fun N h => owned_eq_nil fun fl hfl => h fl hfl ▸ ne.symm
    rw [around.eq]
    simp only [owned_append]
    rw [none M' fun fl hfl => (tidy.ok fl hfl).owner,
      none M fun fl hfl => (mem_owned.mp (around.own ▸ hfl)).2]
  right
  rw [eq] at nodup ⊢
  have carried : Carried r.lock locks (A ++ M' ++ C) := by
    refine ⟨fun b t => ?_, others⟩
    rw [own, holds, around.own]
  refine ⟨ret, ⟨nodup, fun o => ?_, ?_, carried.exclusive free ok.exclusive⟩, carried⟩
  · by_cases same : o = r.lock.owner
    · rw [same, own]
      exact tidy
    · rw [others o same]
      exact ok.tidy o
  · exact around.grouped ok.grouped fun fl hfl => (tidy.ok fl hfl).owner

end SetLock

/-- What a caller guarantees: the range is one that the system calls let through, and neither its own
structure nor the allocated ones are in use. -/
structure Admits (s : State ι ω) (r : Request ω) (newFl newFl2 : Option Nat) : Prop where
  valid : Valid r.lock
  request : ∀ i, r.lock.id ∉ ids (s.flock i)
  fresh : ∀ i, Fresh newFl newFl2 (s.flock i)

/-- One request, or the end of a wait that a signal interrupts. -/
inductive Step : State ι ω → State ι ω → Prop
  | request (s : State ι ω) (i : ι) (r : Request ω) (newFl newFl2 : Option Nat)
      (admits : Admits s r newFl newFl2) : Step s (posixLockFile s i r newFl newFl2).1
  | interrupt (s : State ι ω) (id : Nat) : Step s (locksDeleteBlock s id)

def Initial (s : State ι ω) : Prop := (∀ i, s.flock i = []) ∧ s.blocked = []

structure StateOk (s : State ι ω) : Prop where
  lists : ∀ i, ListOk (s.flock i)
  apart : ∀ i j, i ≠ j → ∀ x ∈ ids (s.flock i), x ∉ ids (s.flock j)
  blocked : ∀ w ∈ s.blocked,
    ∃ fl ∈ s.flock w.inode, fl.id = w.next ∧ posixLocksConflict w.request fl = true

section Request

variable {s : State ι ω} {i : ι} {r : Request ω} {newFl newFl2 : Option Nat}

theorem posixLockFile_cases (s : State ι ω) (i : ι) (r : Request ω) (newFl newFl2 : Option Nat) :
    (∃ ret, (posixLockFile s i r newFl newFl2 = (s, ret)) ∧ (ret = .ok → r.access = true)) ∨
    (∃ fl ∈ s.flock i, posixLocksConflict r.lock fl = true ∧ posixLocksDeadlock s r.lock fl = false ∧
      posixLockFile s i r newFl newFl2 =
        ({ s with blocked := ⟨r.lock, i, fl.id⟩ :: s.blocked }, .deferred)) ∨
    (∃ n n2, (∀ id, n = some id → newFl = some id) ∧ (∀ id, n2 = some id → newFl2 = some id) ∧
      (r.lock.type ≠ .unlck → ∀ fl ∈ s.flock i, posixLocksConflict r.lock fl = false) ∧
      r.access = false ∧
      posixLockFile s i r newFl newFl2 =
        ({ flock := update s.flock i (setLock r n n2 (s.flock i)).locks
           blocked := s.blocked.filter fun w => w.next ∉ (setLock r n n2 (s.flock i)).woken },
          (setLock r n n2 (s.flock i)).ret)) := by
  unfold posixLockFile
  cases conflict : if r.lock.type = .unlck then none else (s.flock i).find? (posixLocksConflict r.lock) with
  | some fl =>
    have found : (s.flock i).find? (posixLocksConflict r.lock) = some fl := by
      by_cases unlck : r.lock.type = .unlck
      · rw [if_pos unlck] at conflict
        cases conflict
      · rwa [if_neg unlck] at conflict
    simp only
    split_ifs with sleep deadlock
    · exact .inl ⟨.eagain, rfl, nofun⟩
    · exact .inl ⟨.edeadlk, rfl, nofun⟩
    · exact .inr (.inl ⟨fl, mem_of_find?_eq_some found, List.find?_some found,
        by simpa using deadlock, rfl⟩)
  | none =>
    have free : r.lock.type ≠ .unlck → ∀ fl ∈ s.flock i, posixLocksConflict r.lock fl = false := by
      intro lock fl hfl
      rw [if_neg lock, List.find?_eq_none] at conflict
      simpa using conflict fl hfl
    simp only
    have plain : ¬r.access = true → r.access = false := by simp
    split_ifs with access needs
    · exact .inl ⟨.ok, rfl, fun _ => access⟩
    · exact .inr (.inr ⟨newFl, newFl2, fun _ h => h, fun _ h => h, free, plain access, rfl⟩)
    · exact .inr (.inr ⟨none, none, nofun, nofun, free, plain access, rfl⟩)

variable {locks : List (FileLock ω)}

omit [DecidableEq ω] in
theorem Fresh.restrict (fresh : Fresh newFl newFl2 locks) {n n2 : Option Nat}
    (h : ∀ id, n = some id → newFl = some id) (h2 : ∀ id, n2 = some id → newFl2 = some id) : Fresh n n2 locks :=
  ⟨fun id hn => fresh.first id (h id hn), fun id hn => fresh.second id (h2 id hn),
    fun id hn hn2 => fresh.distinct id (h id hn) (h2 id hn2)⟩

theorem Wider.conflict {q fl fl' : FileLock ω} (wider : Wider fl fl')
    (h : posixLocksConflict q fl = true) : posixLocksConflict q fl' = true := by
  unfold posixLocksConflict at *
  rw [wider.owner]
  by_cases same : q.owner = fl.owner
  · rw [if_pos same] at h
    cases h
  rw [if_neg same] at h ⊢
  by_cases overlap : locksOverlap q fl = true
  · have overlap' : locksOverlap q fl' = true := by
      have := wider.start
      have := wider.stop
      simp only [locksOverlap, Bool.and_eq_true, decide_eq_true_eq] at *
      omega
    simp only [overlap, overlap', locksConflict,
      wider.type] at h ⊢
    exact h
  · simp [overlap] at h

/-- A lock that is removed, or no longer covers its bytes with its type, has no waiters left. -/
def Wakes (s s' : State ι ω) : Prop :=
  ∀ i, ∀ fl ∈ s.flock i, (∃ fl' ∈ s'.flock i, Wider fl fl') ∨ ∀ w ∈ s'.blocked, w.next ≠ fl.id

omit [DecidableEq ι] [DecidableEq ω] in
theorem wakes_of_flock_eq {s' : State ι ω} (h : s'.flock = s.flock) : Wakes s s' :=
  fun _ fl hfl => .inl ⟨fl, h ▸ hfl, .refl fl⟩

omit [DecidableEq ω] in
theorem update_wakes {new woken : List Nat} (traced : Traced (s.flock i) new woken locks) :
    Wakes s { flock := update s.flock i locks
              blocked := s.blocked.filter fun w => w.next ∉ woken } := by
  intro j fl hfl
  by_cases here : j = i
  · subst here
    rcases traced.keeps fl hfl with h | ⟨fl', hfl', wider⟩
    · right
      intro w hw next
      have := (mem_filter.mp hw).2
      simp only [decide_eq_true_eq] at this
      exact this (next ▸ h)
    · exact .inl ⟨fl', by simpa using hfl', wider⟩
  · exact .inl ⟨fl, by simpa [update_of_ne here] using hfl, .refl fl⟩

theorem StateOk.update (ok : StateOk s) (listOk : ListOk locks)
    {new woken : List Nat} (traced : Traced (s.flock i) new woken locks)
    (unused : ∀ x ∈ new, ∀ j, x ∉ ids (s.flock j)) :
    StateOk { flock := update s.flock i locks, blocked := s.blocked.filter fun w => w.next ∉ woken } := by
  have elsewhere : ∀ j, j ≠ i → ∀ x ∈ ids locks, x ∉ ids (s.flock j) := by
    intro j ne x hx
    rcases traced.sub x hx with h | h
    · exact ok.apart i j ne.symm x h
    · exact unused x h j
  refine ⟨fun j => ?_, fun j k ne x hx => ?_, fun w hw => ?_⟩
  · by_cases here : j = i
    · subst here
      simpa using listOk
    · simpa [update_of_ne here] using ok.lists j
  · by_cases hj : j = i
    · subst hj
      simp only [update_self] at hx
      simpa [update_of_ne ne.symm] using elsewhere k ne.symm x hx
    simp only [update_of_ne hj] at hx
    by_cases hk : k = i
    · subst hk
      simp only [update_self]
      exact fun h => elsewhere j ne x h hx
    · simpa [update_of_ne hk] using ok.apart j k ne x hx
  · obtain ⟨hw', -⟩ := mem_filter.mp hw
    obtain ⟨fl, hfl, next, conflict⟩ := ok.blocked w hw'
    rcases update_wakes traced w.inode fl hfl with ⟨fl', hfl', wider⟩ | gone
    · exact ⟨fl', hfl', wider.id.trans next, wider.conflict conflict⟩
    · exact absurd next.symm (gone w hw)

theorem Step.keeps (ok : StateOk s) {s' : State ι ω} (step : Step s s') : StateOk s' ∧ Wakes s s' := by
  cases step with
  | request i r newFl newFl2 admits =>
    rcases posixLockFile_cases s i r newFl newFl2 with
      ⟨ret, eq, -⟩ | ⟨fl, hfl, conflict, -, eq⟩ | ⟨n, n2, hn, hn2, free, -, eq⟩
    · rw [eq]
      exact ⟨ok, wakes_of_flock_eq rfl⟩
    · rw [eq]
      refine ⟨⟨ok.lists, ok.apart, fun w hw => ?_⟩, wakes_of_flock_eq rfl⟩
      rcases mem_cons.mp hw with rfl | hw
      · exact ⟨fl, hfl, rfl, conflict⟩
      · exact ok.blocked w hw
    · rw [eq]
      have fresh := (admits.fresh i).restrict hn hn2
      have traced := setLock_traced (ok.lists i).nodup (admits.request i) fresh
      refine ⟨ok.update ?_ traced fun x hx j => ?_, update_wakes traced⟩
      · rcases setLock_spec (ok.lists i) admits.valid fresh (admits.request i) free with
          refused | ⟨-, listOk, -⟩
        · rw [refused.2.1]
          exact ok.lists i
        · exact listOk
      · have freshj := (admits.fresh j).restrict hn hn2
        rcases mem_append.mp hx with h | h
        · exact freshj.second x (by simpa using h)
        · exact freshj.first x (by simpa using h)
  | interrupt id =>
    refine ⟨⟨ok.lists, ok.apart, fun w hw => ?_⟩, wakes_of_flock_eq rfl⟩
    exact ok.blocked w (mem_filter.mp hw).1

end Request

theorem reachable_ok {s : State ι ω} (reach : Transition.Reachable Initial Step s) : StateOk s := by
  refine reach.invariant StateOk (fun s h => ?_) fun s t ok step => (step.keeps ok).1
  refine ⟨fun i => ?_, fun i j _ x hx => ?_, fun w hw => ?_⟩
  · rw [h.1]
    refine ⟨nodup_nil, fun o => tidy_nil, fun a b c sub => ?_, fun o p _ b t write => ?_⟩
    · cases sub
    · exact absurd write (holds_nil b _)
  · rw [h.1] at hx
    cases hx
  · rw [h.2] at hw
    cases hw

def view (locks : List (FileLock ω)) (o : ω) (b : Int) : Option LockType :=
  ((owned o locks).find? fun fl => fl.start ≤ b && b ≤ fl.stop).map (·.type)

def LockType.grants : LockType → Option LockType
  | .unlck => none
  | .rdlck => some .rdlck
  | .wrlck => some .wrlck

variable {locks : List (FileLock ω)}

theorem view_eq_some {o : ω} (tidy : Tidy o (owned o locks)) {b : Int}
    {t : LockType} : view locks o b = some t ↔ Holds (owned o locks) b t := by
  unfold view
  rw [Option.map_eq_some_iff]
  constructor
  · rintro ⟨fl, found, rfl⟩
    exact ⟨fl, mem_of_find?_eq_some found, rfl, by simpa [Covers] using List.find?_some found⟩
  · rintro ⟨fl, hfl, rfl, cover⟩
    generalize owned o locks = M at tidy hfl
    induction M with
    | nil => cases hfl
    | cons g M ih =>
      obtain ⟨-, apart, rest⟩ := tidy_cons.mp tidy
      rcases mem_cons.mp hfl with rfl | h
      · exact ⟨fl, List.find?_cons_of_pos (by simpa [Covers] using cover), rfl⟩
      have before := (apart fl h).1
      have miss : (decide (g.start ≤ b) && decide (b ≤ g.stop)) = false := by
        have := cover.1
        simp only [Bool.and_eq_false_iff, decide_eq_false_iff_not]
        omega
      simp only [List.find?_cons, miss]
      exact ih rest h

theorem over_eq_some {q : FileLock ω} (tidy : Tidy q.owner (owned q.owner locks))
    (b : Int) (t : LockType) : Over q (owned q.owner locks) b t ↔
      (if q.start ≤ b ∧ b ≤ q.stop then q.type.grants else view locks q.owner b) = some t := by
  unfold Over Covers
  split_ifs with inside
  · have granted : q.type.grants = some t ↔ t = q.type ∧ t ≠ .unlck := by
      cases q.type <;> cases t <;> simp [LockType.grants]
    simp [inside, granted]
  · simp [inside, view_eq_some tidy]

theorem Carried.view {q : FileLock ω} {locks' : List (FileLock ω)} (carried : Carried q locks locks')
    (ok : ListOk locks) (ok' : ListOk locks') (o : ω) (b : Int) : view locks' o b =
      if o = q.owner ∧ q.start ≤ b ∧ b ≤ q.stop then q.type.grants else view locks o b := by
  by_cases own : o = q.owner
  · subst own
    ext t
    simp only [true_and]
    exact ((view_eq_some (ok'.tidy _)).trans (carried.own b t)).trans (over_eq_some (ok.tidy _) b t)
  · simp [own, PosixLock.view, carried.others o own]

/-- A request that succeeds gives its type to its bytes for its owner, and one that fails changes
nothing; the locks of each owner stand together, in order and apart from each other, and what one owner
writes no other owner has locked. -/
theorem posixLockFile_sets_range {s : State ι ω} (reach : Transition.Reachable Initial Step s) (i : ι) :
    (∀ o, ∃ A M C, s.flock i = A ++ M ++ C ∧ Tidy o M ∧ ∀ fl ∈ A ++ C, fl.owner ≠ o) ∧
    (∀ o p b, o ≠ p → view (s.flock i) o b = some .wrlck → view (s.flock i) p b = none) ∧
    ∀ r newFl newFl2, Admits s r newFl newFl2 →
      ((posixLockFile s i r newFl newFl2).2 = .ok → r.access = false → ∀ o b,
        view ((posixLockFile s i r newFl newFl2).1.flock i) o b =
          if o = r.lock.owner ∧ r.lock.start ≤ b ∧ b ≤ r.lock.stop then r.lock.type.grants
          else view (s.flock i) o b) ∧
      ((posixLockFile s i r newFl newFl2).2 ≠ .ok ∨ r.access = true →
        (posixLockFile s i r newFl newFl2).1.flock i = s.flock i) ∧
      ∀ j, j ≠ i → (posixLockFile s i r newFl newFl2).1.flock j = s.flock j := by
  have ok := reachable_ok reach
  refine ⟨fun o => ?_, fun o p b ne write => ?_, fun r newFl newFl2 admits => ?_⟩
  · obtain ⟨A, M, C, around⟩ := around_exists (ok.lists i).grouped o
    refine ⟨A, M, C, around.eq, around.own ▸ (ok.lists i).tidy o, fun fl hfl => ?_⟩
    rcases mem_append.mp hfl with h | h
    · exact around.before fl h
    · exact around.after fl h
  · cases other : view (s.flock i) p b with
    | none => rfl
    | some t =>
      have holds := (view_eq_some ((ok.lists i).tidy p)).mp other
      have write := (view_eq_some ((ok.lists i).tidy o)).mp write
      exact absurd holds ((ok.lists i).exclusive o p ne b t write)
  · rcases posixLockFile_cases s i r newFl newFl2 with
      ⟨ret, eq, access⟩ | ⟨fl, hfl, -, -, eq⟩ | ⟨n, n2, hn, hn2, free, access, eq⟩
    · rw [eq]
      refine ⟨fun h plain => ?_, fun _ => rfl, fun _ _ => rfl⟩
      rw [access h] at plain
      cases plain
    · rw [eq]
      exact ⟨nofun, fun _ => rfl, fun _ _ => rfl⟩
    rw [eq]
    simp only [update_self]
    rcases setLock_spec (ok.lists i) admits.valid ((admits.fresh i).restrict hn hn2)
        (admits.request i) free with refused | ⟨ret, listOk, carried⟩
    · refine ⟨fun h => absurd h refused.1, fun _ => refused.2.1, fun j ne => ?_⟩
      simp only [update_of_ne ne]
    refine ⟨fun _ _ => carried.view (ok.lists i) listOk, fun h => ?_, fun j ne => ?_⟩
    · rcases h with h | h
      · exact absurd ret h
      · rw [access] at h
        cases h
    · simp only [update_of_ne ne]

/-- One owner has the bytes 0 to 9 for writing. -/
def written : State Unit Nat :=
  (posixLockFile ⟨fun _ => [], []⟩ () ⟨⟨100, 0, .wrlck, 0, 9⟩, false, false, false⟩ (some 1) (some 2)).1

theorem written_flock (i : Unit) : written.flock i = [⟨1, 0, .wrlck, 0, 9⟩] := rfl

theorem written_reachable : Transition.Reachable Initial Step written := by
  refine (Transition.Reachable.start ⟨fun _ => rfl, rfl⟩).next (.request _ _ _ _ _ ⟨?_, ?_, ?_⟩)
  · exact ⟨by decide, by decide, by decide⟩
  · exact fun _ => not_mem_nil
  · exact fun _ => ⟨by simp, by simp, by simp⟩

theorem written_admits {r : Request Nat} (valid : Valid r.lock) (id : 1 < r.lock.id) :
    Admits written r (some 3) (some 4) := by
  refine ⟨valid, fun i => ?_, fun i => ?_⟩
  · rw [written_flock]
    simp only [ids_cons, ids_nil, mem_singleton]
    omega
  · rw [written_flock]
    exact ⟨by simp, by simp, by simp⟩

theorem posixLockFile_sets_range_split :
    view ((posixLockFile written () ⟨⟨100, 0, .unlck, 3, 5⟩, false, false, false⟩ (some 3)
      (some 4)).1.flock ()) 0 6 = some .wrlck := by
  have admits : Admits written ⟨⟨100, 0, .unlck, 3, 5⟩, false, false, false⟩ (some 3) (some 4) :=
    written_admits ⟨by decide, by decide, by decide⟩ (by decide)
  have set := ((posixLockFile_sets_range written_reachable ()).2.2 _ _ _ admits).1 (by decide +kernel) rfl
  rw [set 0 6]
  decide +kernel

/-- Every waiter points to a lock that is on the list of the inode and conflicts with its request, and a
lock that is removed, made smaller or given another type has no waiters left. -/
theorem waiters_are_blocked {s : State ι ω} (reach : Transition.Reachable Initial Step s) :
    (∀ w ∈ s.blocked, ∃ fl ∈ s.flock w.inode, fl.id = w.next ∧ posixLocksConflict w.request fl = true) ∧
    ∀ s', Step s s' → Wakes s s' :=
  ⟨(reachable_ok reach).blocked, fun _ step => (step.keeps (reachable_ok reach)).2⟩

/-- Another owner waits for some of the bytes. -/
def waiting : State Unit Nat :=
  (posixLockFile written () ⟨⟨101, 7, .rdlck, 4, 20⟩, true, false, false⟩ (some 3) (some 4)).1

theorem waiters_are_blocked_waiting : ∃ fl ∈ waiting.flock (), fl.id = 1 := by
  have reach : Transition.Reachable Initial Step waiting :=
    written_reachable.next (.request _ _ _ _ _
      (written_admits ⟨by decide, by decide, by decide⟩ (by decide)))
  obtain ⟨fl, hfl, next, -⟩ := (waiters_are_blocked reach).1 ⟨⟨101, 7, .rdlck, 4, 20⟩, (), 1⟩
    (mem_singleton.mpr rfl)
  exact ⟨fl, hfl, next⟩

end PosixLock
