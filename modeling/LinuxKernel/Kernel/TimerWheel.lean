/- Where a timer waits: every list of the wheels is visited before its timers are due, and the lists of
the first wheel exactly then. -/
import Mathlib.Data.Nat.ModEq
import LinuxKernel.Foundation.Buckets
import LinuxKernel.Kernel.Timer

namespace Timer

open Wheel Function

variable (cfg : Config)

def Wheel.shift : Wheel → Nat
  | .tv1 => 0
  | .tv2 => cfg.tvrBits
  | .tv3 => cfg.tvrBits + cfg.tvnBits
  | .tv4 => cfg.tvrBits + 2 * cfg.tvnBits
  | .tv5 => cfg.tvrBits + 3 * cfg.tvnBits

/-- A timer in a list of the wheels at the time `now`, due at `due`. A list of the first wheel is visited
when its timers are due; the lists of the others are visited from the time `from_` on at multiples of
the width of a slot, and the next visit is not too late. -/
def Waits (now : Nat) (from_ : Wheel → Nat) (due expires : Nat) : Wheel × Nat → Prop
  | (.tv1, i) => now ≤ due ∧ due < now + 2 ^ cfg.tvrBits ∧ due % 2 ^ cfg.tvrBits = i
  | (tv, i) => (∃ q, q % 2 ^ cfg.tvnBits = i ∧ from_ tv ≤ q * 2 ^ tv.shift cfg ∧
      q * 2 ^ tv.shift cfg ≤ due) ∧ due % 2 ^ cfg.bits = expires ∧ due < now + 2 ^ (cfg.bits - 1)

structure Ahead (now due expires : Nat) : Prop where
  le : now ≤ due
  lt : due < now + 2 ^ (cfg.bits - 1)
  expires : due % 2 ^ cfg.bits = expires

variable {cfg} {now due expires i : Nat} {from_ : Wheel → Nat}

theorem waits_upper {tv : Wheel} (upper : tv ≠ .tv1) :
    Waits cfg now from_ due expires (tv, i) ↔
      (∃ q, q % 2 ^ cfg.tvnBits = i ∧ from_ tv ≤ q * 2 ^ tv.shift cfg ∧ q * 2 ^ tv.shift cfg ≤ due) ∧
      due % 2 ^ cfg.bits = expires ∧ due < now + 2 ^ (cfg.bits - 1) := by
  cases tv with
  | tv1 => exact absurd rfl upper
  | tv2 | tv3 | tv4 | tv5 => exact Iff.rfl

theorem Waits.mono {from' : Wheel → Nat} {v : Wheel × Nat}
    (h : Waits cfg now from_ due expires v) (le : from' v.1 ≤ from_ v.1) : Waits cfg now from' due expires v := by
  obtain ⟨tv, i⟩ := v
  by_cases first : tv = .tv1
  · subst first
    exact h
  · rw [waits_upper first] at h ⊢
    obtain ⟨⟨q, slot, start, stop⟩, rest⟩ := h
    exact ⟨⟨q, slot, Nat.le_trans le start, stop⟩, rest⟩

theorem Waits.le {v : Wheel × Nat} (h : Waits cfg now from_ due expires v)
    (start : now ≤ from_ v.1) : now ≤ due := by
  obtain ⟨tv, i⟩ := v
  by_cases first : tv = .tv1
  · subst first
    exact h.1
  · rw [waits_upper first] at h
    obtain ⟨⟨q, -, visited, before⟩, -⟩ := h
    exact Nat.le_trans start (Nat.le_trans visited before)

theorem minus_eq {d : Nat} (less : d < 2 ^ cfg.bits) :
    minus cfg ((now + d) % 2 ^ cfg.bits) (now % 2 ^ cfg.bits) = d := by
  unfold minus
  generalize 2 ^ cfg.bits = m at *
  have pos : 0 < m := by omega
  have r_lt := Nat.mod_lt now pos
  rw [Nat.add_mod now d, Nat.mod_eq_of_lt less]
  set r := now % m
  by_cases wraps : r + d < m
  · have sum : r + d + (m - r) = d + m := by omega
    rw [Nat.mod_eq_of_lt wraps, sum, Nat.add_mod_right, Nat.mod_eq_of_lt less]
  · have rest : (r + d) % m = r + d - m := by
      rw [Nat.mod_eq_sub_mod (by omega), Nat.mod_eq_of_lt (by omega)]
    have sum : r + d - m + (m - r) = d := by omega
    rw [rest, sum, Nat.mod_eq_of_lt less]

theorem wrap_div_mod (x : Nat) {s n : Nat} (h : s + n ≤ cfg.bits) :
    x % 2 ^ cfg.bits / 2 ^ s % 2 ^ n = x / 2 ^ s % 2 ^ n := by
  obtain ⟨k, hk⟩ := Nat.exists_eq_add_of_le h
  have split : 2 ^ cfg.bits = 2 ^ s * 2 ^ (n + k) := by rw [← Nat.pow_add, hk, Nat.add_assoc]
  rw [split, Nat.mod_mul_right_div_self]
  exact Nat.mod_mod_of_dvd _ (Nat.pow_dvd_pow 2 (Nat.le_add_right n k))

theorem slot_eq : now % 2 ^ cfg.bits % 2 ^ cfg.tvrBits = now % 2 ^ cfg.tvrBits := by
  have slots := cfg.slots
  have := @wrap_div_mod cfg now 0 cfg.tvrBits (by omega)
  simpa using this

theorem two_pow_bits (cfg : Config) : 2 ^ cfg.bits = 2 * 2 ^ (cfg.bits - 1) := by
  have := cfg.word
  rw [← Nat.pow_succ']
  congr 1
  omega

theorem Ahead.idx (ahead : Ahead cfg now due expires) : minus cfg expires (now % 2 ^ cfg.bits) = due - now := by
  have le := ahead.le
  have lt := ahead.lt
  have whole := two_pow_bits cfg
  have sum : now + (due - now) = due := by omega
  have eq := @minus_eq cfg now (due - now) (by omega)
  rwa [sum, ahead.expires] at eq

theorem visit {p s : Nat} (away : now + 2 ^ s ≤ p) : now + 1 ≤ p / 2 ^ s * 2 ^ s ∧ p / 2 ^ s * 2 ^ s ≤ p := by
  have low := Nat.div_add_mod p (2 ^ s)
  rw [Nat.mul_comm] at low
  omega

theorem Ahead.waits (ahead : Ahead cfg now due expires) :
    Waits cfg now (fun _ => now + 1) due expires (vecFor cfg (now % 2 ^ cfg.bits) expires) := by
  have le := ahead.le
  have lt := ahead.lt
  have slots := cfg.slots
  have far := cfg.far
  have slot : ∀ s n, s + n ≤ cfg.bits → expires / 2 ^ s % 2 ^ n = due / 2 ^ s % 2 ^ n := by
    intro s n h
    rw [← ahead.expires]
    exact wrap_div_mod due h
  unfold vecFor
  simp only [ahead.idx]
  split_ifs with near second third fourth late parked
  · refine ⟨le, by omega, ?_⟩
    rw [← ahead.expires]
    exact slot_eq.symm
  · refine ⟨⟨due / 2 ^ cfg.tvrBits, (slot _ _ (by omega)).symm, visit (by omega)⟩, ahead.expires, lt⟩
  · refine ⟨⟨due / 2 ^ (cfg.tvrBits + cfg.tvnBits), (slot _ _ (by omega)).symm, visit (by omega)⟩,
      ahead.expires, lt⟩
  · refine ⟨⟨due / 2 ^ (cfg.tvrBits + 2 * cfg.tvnBits), (slot _ _ (by omega)).symm, visit (by omega)⟩,
      ahead.expires, lt⟩
  · omega
  · have parking : (0xffffffff + now % 2 ^ cfg.bits) % 2 ^ cfg.bits =
        (0xffffffff + now) % 2 ^ cfg.bits := Nat.add_mod_mod ..
    have small : 2 ^ (cfg.tvrBits + 3 * cfg.tvnBits) ≤ 2 ^ 31 := Nat.pow_le_pow_right (by omega) (by omega)
    obtain ⟨after, before⟩ := @visit now (0xffffffff + now) (cfg.tvrBits + 3 * cfg.tvnBits) (by omega)
    refine ⟨⟨_, ?_, after, Nat.le_trans before (by omega)⟩, ahead.expires, lt⟩
    rw [parking, wrap_div_mod _ (by omega)]
  · refine ⟨⟨due / 2 ^ (cfg.tvrBits + 3 * cfg.tvnBits), (slot _ _ (by omega)).symm, visit (by omega)⟩,
      ahead.expires, lt⟩

/-- A timer that is late goes where the next iteration looks. -/
theorem waits_past (past : 2 ^ (cfg.bits - 1) ≤ minus cfg expires (now % 2 ^ cfg.bits)) :
    Waits cfg now (fun _ => now + 1) now expires (vecFor cfg (now % 2 ^ cfg.bits) expires) := by
  have far := cfg.far
  have word := cfg.word
  have widths : 2 ^ cfg.tvrBits ≤ 2 ^ (cfg.bits - 1) ∧ 2 ^ (cfg.tvrBits + cfg.tvnBits) ≤ 2 ^ (cfg.bits - 1) ∧
      2 ^ (cfg.tvrBits + 2 * cfg.tvnBits) ≤ 2 ^ (cfg.bits - 1) ∧
      2 ^ (cfg.tvrBits + 3 * cfg.tvnBits) ≤ 2 ^ (cfg.bits - 1) := by
    refine ⟨?_, ?_, ?_, ?_⟩ <;> exact Nat.pow_le_pow_right (by omega) (by omega)
  unfold vecFor
  rw [if_neg (by omega), if_neg (by omega), if_neg (by omega), if_neg (by omega), if_pos past]
  have pos : 0 < 2 ^ cfg.tvrBits := Nat.two_pow_pos _
  exact ⟨Nat.le_refl _, by omega, slot_eq.symm⟩

section Lists

variable {τ : Type} [DecidableEq τ] {b : Base τ} {from_ : Wheel → Nat} {dueOf : τ → Nat} {rest : List τ}

structure Good (cfg : Config) (b : Base τ) (now : Nat) (from_ : Wheel → Nat) (dueOf : τ → Nat) : Prop where
  jiffies : b.timerJiffies = now % 2 ^ cfg.bits
  waits : ∀ v, ∀ t ∈ b.vec v, Waits cfg now from_ (dueOf t) (b.expires t) v

/-- The timers are in the lists of the base or in one more list. -/
def Kept (b : Base τ) (extra : List τ) : Prop := Buckets.Once b.vec extra fun t => b.pending t = true

theorem internalAddTimer_good (good : Good cfg b now from_ dueOf) {t : τ}
    (waits : Waits cfg now from_ (dueOf t) (b.expires t) (vecFor cfg (now % 2 ^ cfg.bits) (b.expires t))) :
    Good cfg (internalAddTimer cfg b t) now from_ dueOf := by
  constructor
  · exact good.jiffies
  · intro v x hx
    rcases Buckets.mem_push.mp hx with old | ⟨rfl, rfl⟩
    · exact good.waits v x old
    · rw [good.jiffies]
      exact waits

structure Alike (b b' : Base τ) : Prop where
  timerJiffies : b'.timerJiffies = b.timerJiffies
  work : b'.work = b.work
  expires : b'.expires = b.expires
  pending : b'.pending = b.pending

structure Settled (cfg : Config) (b b' : Base τ) (now : Nat) (from_ : Wheel → Nat) (dueOf : τ → Nat) :
    Prop where
  good : Good cfg b' now from_ dueOf
  kept : Kept b' []
  alike : Alike b b'

theorem foldl_add_settled {b' : Base τ} (good : Good cfg b' now from_ dueOf) (kept : Kept b' rest)
    (alike : Alike b b') (later : ∀ tv, from_ tv ≤ now + 1)
    (ahead : ∀ t ∈ rest, Ahead cfg now (dueOf t) (b'.expires t)) :
    Settled cfg b (rest.foldl (internalAddTimer cfg) b') now from_ dueOf := by
  induction rest generalizing b' with
  | nil => exact ⟨good, kept, alike⟩
  | cons t rest ih =>
    have alive : b'.pending t = true := (kept.mem t).mpr (.inl (by simp))
    have same : update b'.pending t true = b'.pending := by
      rw [← alive, update_eq_self]
    apply ih
    · exact internalAddTimer_good good ((ahead t (by simp)).waits.mono (later _))
    · apply (kept.requeue _).congr
      intro x
      simp [internalAddTimer, same]
    · exact ⟨alike.timerJiffies, alike.work, alike.expires, same.trans alike.pending⟩
    · exact fun x hx => ahead x (List.mem_cons_of_mem t hx)

variable {tv : Wheel}

theorem Waits.ahead (waits : Waits cfg now from_ due expires (tv, i))
    (upper : tv ≠ .tv1) (start : now ≤ from_ tv) : Ahead cfg now due expires := by
  rw [waits_upper upper] at waits
  obtain ⟨⟨q, -, visited, before⟩, wrapped, lt⟩ := waits
  exact ⟨by omega, lt, wrapped⟩

theorem Waits.later {from' : Wheel → Nat}
    (waits : Waits cfg now from_ due expires (tv, i)) (start : now ≤ from_ tv) (next : from' tv ≤ now + 1)
    (other : tv ≠ .tv1 → ∀ q, now = q * 2 ^ tv.shift cfg → q % 2 ^ cfg.tvnBits ≠ i) :
    Waits cfg now from' due expires (tv, i) := by
  by_cases first : tv = .tv1
  · subst first
    exact waits
  · rw [waits_upper first] at waits ⊢
    obtain ⟨⟨q, slot, visited, before⟩, rest⟩ := waits
    have ne : now ≠ q * 2 ^ tv.shift cfg := fun eq => other first q eq slot
    exact ⟨⟨q, slot, by omega, before⟩, rest⟩

theorem update_later (later : ∀ tv, from_ tv ≤ now + 1) (tv tv' : Wheel) :
    update from_ tv (now + 1) tv' ≤ now + 1 := by
  rw [update_apply]
  split_ifs
  · exact Nat.le_refl _
  · exact later tv'

theorem Settled.cascade {b' : Base τ} (settled : Settled cfg b b' now from_ dueOf)
    (upper : tv ≠ .tv1) (start : from_ tv = now) (later : ∀ tv, from_ tv ≤ now + 1)
    (index : i = now / 2 ^ tv.shift cfg % 2 ^ cfg.tvnBits) :
    Settled cfg b (cascade cfg b' tv i).1 now (update from_ tv (now + 1)) dueOf := by
  obtain ⟨good, kept, alike⟩ := settled
  apply foldl_add_settled
  · constructor
    · exact good.jiffies
    · rintro ⟨tv', j⟩ t ht
      by_cases here : (tv', j) = (tv, i)
      · simp [here] at ht
      simp only [update_of_ne here] at ht
      have waits := good.waits _ t ht
      by_cases same : tv' = tv
      · subst same
        apply waits.later (Nat.le_of_eq start.symm)
        · simp
        · rintro - q eq slot
          apply here
          rw [index, ← slot, eq, Nat.mul_div_cancel _ (Nat.two_pow_pos _)]
      · -- the next visits of the other wheels are as before
        apply waits.mono
        rw [update_of_ne same]
  · exact kept.take (tv, i)
  · exact ⟨alike.timerJiffies, alike.work, alike.expires, alike.pending⟩
  · exact update_later later tv
  · exact fun t ht => (good.waits _ t ht).ahead upper (Nat.le_of_eq start.symm)

omit [DecidableEq τ] in
/-- Once the wheels that have a slot for now are cascaded, all further visits come later. -/
theorem Settled.strict {b' : Base τ} (settled : Settled cfg b b' now from_ dueOf)
    (done : ∀ tv, tv = .tv1 ∨ from_ tv = now + 1 ∨ from_ tv = now ∧ ¬2 ^ tv.shift cfg ∣ now) :
    Settled cfg b b' now (fun _ => now + 1) dueOf := by
  refine ⟨⟨settled.good.jiffies, ?_⟩, settled.kept, settled.alike⟩
  rintro ⟨tv, i⟩ t ht
  have waits := settled.good.waits _ t ht
  rcases done tv with rfl | past | ⟨start, off⟩
  · exact waits
  · exact waits.mono (Nat.le_of_eq past.symm)
  · apply waits.later (Nat.le_of_eq start.symm) (Nat.le_refl _)
    rintro - q eq
    exact absurd ⟨q, by rw [eq, Nat.mul_comm]⟩ off

theorem not_dvd_of_index {s n s' : Nat} (ne : now / 2 ^ s % 2 ^ n ≠ 0) (le : s + n ≤ s') : ¬2 ^ s' ∣ now := by
  rintro dvd
  obtain ⟨k, rfl⟩ := (Nat.pow_dvd_pow 2 le).trans dvd
  apply ne
  rw [Nat.pow_add, Nat.mul_assoc, Nat.mul_div_cancel_left _ (Nat.two_pow_pos s), Nat.mul_mod_right]

section

variable (good : Good cfg b now (fun _ => now) dueOf) (kept : Kept b [])
include good kept

/-- The cascades stop at the first index that is not zero: the wheels behind it have no slot for now. -/
theorem cascades_settled :
    Settled cfg b (cascades cfg b) now (fun _ => now + 1) dueOf := by
  have indexes : ∀ n ≤ 3, indexOf cfg b.timerJiffies n =
      now / 2 ^ (cfg.tvrBits + n * cfg.tvnBits) % 2 ^ cfg.tvnBits := by
    intro n h
    rw [good.jiffies]
    have slots := cfg.slots
    have := Nat.mul_le_mul_right cfg.tvnBits h
    exact wrap_div_mod now (by omega)
  have off : ∀ n ≤ 3, indexOf cfg b.timerJiffies n ≠ 0 → ∀ s, cfg.tvrBits + n * cfg.tvnBits + cfg.tvnBits ≤ s →
      ¬2 ^ s ∣ now := by
    intro n h ne s le
    rw [indexes n h] at ne
    exact not_dvd_of_index ne le
  have at2 : ∀ tv, update (fun _ => now) tv2 (now + 1) tv ≤ now + 1 :=
    update_later (fun _ => Nat.le_succ now) .tv2
  have at3 := update_later at2 .tv3
  have at4 := update_later at3 .tv4
  have settled : Settled cfg b b now (fun _ => now) dueOf := ⟨good, kept, rfl, rfl, rfl, rfl⟩
  have settled2 := settled.cascade (by decide : tv2 ≠ .tv1) rfl (fun _ => Nat.le_succ now)
    (by simpa [shift] using indexes 0 (by omega))
  have settled3 := settled2.cascade (by decide : tv3 ≠ .tv1) rfl at2
    (by simpa [shift] using indexes 1 (by omega))
  have settled4 := settled3.cascade (by decide : tv4 ≠ .tv1) rfl at3
    (by simpa [shift] using indexes 2 (by omega))
  have settled5 := settled4.cascade (by decide : tv5 ≠ .tv1) rfl at4
    (by simpa [shift] using indexes 3 (by omega))
  unfold cascades
  dsimp only
  split_ifs with index2 index3 index4
  · apply settled2.strict
    rintro (_ | _ | _ | _ | _)
    · exact .inl rfl
    · exact .inr (.inl rfl)
    all_goals exact .inr (.inr ⟨rfl, off 0 (by omega) index2 _ (by simp only [shift]; omega)⟩)
  · apply settled3.strict
    rintro (_ | _ | _ | _ | _)
    · exact .inl rfl
    · exact .inr (.inl rfl)
    · exact .inr (.inl rfl)
    all_goals exact .inr (.inr ⟨rfl, off 1 (by omega) index3 _ (by simp only [shift]; omega)⟩)
  · apply settled4.strict
    rintro (_ | _ | _ | _ | _)
    · exact .inl rfl
    · exact .inr (.inl rfl)
    · exact .inr (.inl rfl)
    · exact .inr (.inl rfl)
    · exact .inr (.inr ⟨rfl, off 2 (by omega) index4 _ (by simp only [shift]; omega)⟩)
  · apply settled5.strict
    rintro (_ | _ | _ | _ | _)
    · exact .inl rfl
    all_goals exact .inr (.inl rfl)

/-- The cascades are only skipped when no wheel has a slot for now. -/
theorem beforeSlot_settled :
    Settled cfg b (if b.timerJiffies % 2 ^ cfg.tvrBits = 0 then cascades cfg b else b) now
      (fun _ => now + 1) dueOf := by
  split_ifs with index
  · exact cascades_settled good kept
  have settled : Settled cfg b b now (fun _ => now) dueOf := ⟨good, kept, rfl, rfl, rfl, rfl⟩
  apply settled.strict
  intro tv
  have low : ¬2 ^ cfg.tvrBits ∣ now := by
    rw [good.jiffies, slot_eq] at index
    exact fun dvd => index (Nat.mod_eq_zero_of_dvd dvd)
  cases tv with
  | tv1 => exact .inl rfl
  | tv2 => exact .inr (.inr ⟨rfl, low⟩)
  | tv3 | tv4 | tv5 =>
    exact .inr (.inr ⟨rfl, fun dvd => low ((Nat.pow_dvd_pow 2 (Nat.le_add_right _ _)).trans dvd)⟩)

/-- An iteration takes the timers that are due now, and no other. -/
theorem startIteration_good :
    Good cfg (startIteration cfg b) (now + 1) (fun _ => now + 1) dueOf ∧
      Kept (startIteration cfg b) (startIteration cfg b).work ∧ (∀ t ∈ (startIteration cfg b).work, dueOf t = now) ∧
      (startIteration cfg b).expires = b.expires ∧ (startIteration cfg b).pending = b.pending := by
  obtain ⟨good', kept', alike⟩ := beforeSlot_settled good kept
  have slot : b.timerJiffies % 2 ^ cfg.tvrBits = now % 2 ^ cfg.tvrBits := by
    rw [good.jiffies]
    exact slot_eq
  unfold startIteration
  simp only
  generalize hb : (if b.timerJiffies % 2 ^ cfg.tvrBits = 0 then cascades cfg b else b) = b' at *
  rw [slot]
  refine ⟨⟨?_, ?_⟩, kept'.take _, ?_, alike.expires, alike.pending⟩
  · simp [good'.jiffies]
  · rintro ⟨tv, i⟩ t ht
    by_cases here : (tv, i) = (.tv1, now % 2 ^ cfg.tvrBits)
    · simp [here] at ht
    simp only [update_of_ne here] at ht
    have waits := good'.waits _ t ht
    by_cases first : tv = .tv1
    · subst first
      obtain ⟨le, lt, index⟩ := waits
      have ne : dueOf t ≠ now := by
        rintro eq
        apply here
        rw [← index, eq]
      exact ⟨by omega, by omega, index⟩
    · rw [waits_upper first] at waits ⊢
      obtain ⟨visit, wrapped, lt⟩ := waits
      exact ⟨visit, wrapped, by omega⟩
  · intro t ht
    obtain ⟨le, lt, index⟩ := good'.waits _ t ht
    -- less than a turn of the first wheel ahead, and in the same slot
    obtain ⟨d, eq⟩ := Nat.exists_eq_add_of_le le
    have same : (now + d) % 2 ^ cfg.tvrBits = (now + 0) % 2 ^ cfg.tvrBits := eq ▸ index
    have none := Nat.ModEq.add_left_cancel' now same
    rw [Nat.ModEq, Nat.mod_eq_of_lt (by omega), Nat.zero_mod] at none
    omega

end

end Lists

end Timer
