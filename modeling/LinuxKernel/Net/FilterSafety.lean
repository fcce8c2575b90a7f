/- What the checker guarantees of a run of the interpreter, and what it does not. -/
import LinuxKernel.Foundation.Transition
import LinuxKernel.Net.Filter
import Mathlib.Data.Set.Basic

namespace Filter

open Function

variable {m : Machine} {skb : SkBuff} {filter : List SockFilter}

def Legal (flen pc : Nat) (fentry : SockFilter) : Insn → Prop
  | .alu .div .k => fentry.k ≠ 0
  | .ldMem | .ldxMem | .st | .stx => fentry.k.toNat < bpfMemwords
  | .ja => pc + fentry.k.toNat + 1 < flen
  | .jmp _ _ => pc + fentry.jt.toNat + 1 < flen ∧ pc + fentry.jf.toNat + 1 < flen
  | _ => True

/-- Instructions on which `Legal` puts no condition. -/
def Insn.isPlain : Insn → Bool
  | .alu .div .k | .ldMem | .ldxMem | .st | .stx | .ja | .jmp _ _ => false
  | _ => true

def Insn.usesScratch : Insn → Bool
  | .ldMem | .ldxMem | .st | .stx => true
  | _ => false

def Insn.isConditional : Insn → Bool
  | .jmp _ _ => true
  | _ => false

-- the two switch statements agree label by label
theorem decode_plain : ∀ code ∈ plainCodes, (decode code).any Insn.isPlain = true :=
  List.all_eq_true.mp (by decide)

theorem decode_mem : ∀ code ∈ memCodes, (decode code).any Insn.usesScratch = true :=
  List.all_eq_true.mp (by decide)

theorem decode_conditional : ∀ code ∈ conditionalCodes, (decode code).any Insn.isConditional = true :=
  List.all_eq_true.mp (by decide)

variable {flen pc : Nat}

theorem checkInsn_legal {ftest : SockFilter} (ok : checkInsn flen pc ftest = true) :
    ∃ i, decode ftest.code = some i ∧ Legal flen pc ftest i := by
  unfold checkInsn at ok
  split_ifs at ok with plain div mem ja cond
  · obtain ⟨i, hi, isPlain⟩ := (Option.any_eq_true ..).mp (decode_plain _ plain)
    refine ⟨i, hi, ?_⟩
    unfold Legal
    split <;> trivial
  · exact ⟨.alu .div .k, by rw [div]; rfl, by simpa [Legal] using ok⟩
  · obtain ⟨i, hi, uses⟩ := (Option.any_eq_true ..).mp (decode_mem _ mem)
    cases i <;> simp_all [Insn.usesScratch, Legal]
  · refine ⟨.ja, by rw [ja]; rfl, ?_⟩
    simp only [decide_eq_true_eq] at ok
    simp only [Legal]
    omega
  · obtain ⟨i, hi, isCond⟩ := (Option.any_eq_true ..).mp (decode_conditional _ cond)
    cases i <;> simp_all [Insn.isConditional, Legal]

theorem checkFrom_get {ftest : SockFilter} {rest : List SockFilter}
    (ok : checkFrom flen pc rest = true) {n : Nat} (at_n : rest[n]? = some ftest) :
    checkInsn flen (pc + n) ftest = true := by
  induction rest generalizing pc n with
  | nil => cases at_n
  | cons f rest ih =>
    rw [checkFrom, Bool.and_eq_true] at ok
    cases n with
    | zero =>
      cases at_n
      exact ok.1
    | succ n =>
      have := ih ok.2 at_n
      rwa [Nat.add_assoc, Nat.add_comm 1] at this

theorem ret_of_class {code : UInt16} {i : Insn} (hi : decode code = some i)
    (ret : bpfClass code = bpfRet) : i = .retK ∨ i = .retA := by
  have code_eq : i.code = code := by
    have := List.find?_some hi
    simpa using this
  have labels : ∀ j ∈ Insn.all, bpfClass j.code = bpfRet → j = .retK ∨ j = .retA := by decide
  exact labels i (List.mem_of_find?_eq_some hi) (by rw [code_eq, ret])

/-- What acceptance by `sk_chk_filter` says of a program. -/
structure Accepted (filter : List SockFilter) : Prop where
  nonempty : 0 < filter.length
  short : filter.length ≤ bpfMaxinsns
  legal : ∀ pc fentry, filter[pc]? = some fentry →
    ∃ i, decode fentry.code = some i ∧ Legal filter.length pc fentry i
  last : ∀ fentry i, filter[filter.length - 1]? = some fentry → decode fentry.code = some i →
    i = .retK ∨ i = .retA

theorem skChkFilter_spec (ok : skChkFilter filter = true) : Accepted filter := by
  unfold skChkFilter at ok
  split_ifs at ok with size
  rw [Bool.and_eq_true] at ok
  refine ⟨by omega, by omega, fun pc fentry hf => ?_, fun fentry i hf hi => ?_⟩
  · have := checkInsn_legal (checkFrom_get ok.1 hf)
    rwa [Nat.zero_add] at this
  · have ret := ok.2
    rw [List.getLast?_eq_getElem?, hf] at ret
    exact ret_of_class hi (by simpa using ret)

/-- How a run may go on after an instruction of an accepted program. -/
inductive Onward (flen : Nat) (s : State) : Effect → Prop
  | inl {s' : State} {reads : List Int} (lt : s.pc < s'.pc)
      (within : s'.pc = s.pc + 1 ∨ s'.pc < flen) : Onward flen s (.inl s', reads)
  | ret {v : UInt32} {reads : List Int} : Onward flen s (.inr (.ret v), reads)

theorem Onward.next {flen : Nat} {s s' : State} {reads : List Int} (pc : s'.pc = s.pc) :
    Onward flen s (s'.next, reads) := by
  have : s'.pc + 1 = s.pc + 1 := by rw [pc]
  exact .inl (by change s.pc < s'.pc + 1; omega) (.inl this)

theorem Onward.jump {flen : Nat} {s : State} {pc offset : Nat} (hpc : s.pc = pc)
    (lt : pc + offset + 1 < flen) (short : flen ≤ bpfMaxinsns) : Onward flen s (s.jump offset, []) := by
  have exact_sum : Int.bmod (s.pc + offset) (2 ^ 32) = s.pc + offset := by
    unfold bpfMaxinsns at short
    apply Int.bmod_eq_of_le <;> omega
  exact .inl (by simp only; omega) (.inr (by simp only; omega))

theorem Onward.loaded {flen : Nat} {s : State} {set : UInt32 → State}
    (pc : ∀ v, (set v).pc = s.pc) (r : Loaded) : Onward flen s (State.loaded set r) := by
  obtain ⟨v, reads⟩ := r
  cases v with
  | none => exact .ret
  | some v => exact .next (pc v)

theorem execInsn_onward {fentry : SockFilter} {s : State} {i : Insn}
    (legal : Legal flen pc fentry i) (hpc : s.pc = pc) (short : flen ≤ bpfMaxinsns) :
    Onward flen s (execInsn m skb fentry s i) := by
  cases i with
  | alu op src =>
    simp only [execInsn, execAlu]
    split_ifs with zero
    · obtain ⟨rfl, zero⟩ := zero
      cases src with
      | x => exact .ret
      | k => exact absurd zero legal
    · exact .next rfl
  | ja => exact .jump hpc legal short
  | jmp op src =>
    obtain ⟨jt, jf⟩ := legal
    simp only [execInsn]
    split_ifs
    · exact .jump hpc jt short
    · exact .jump hpc jf short
  | ldAbs size | ldInd size | ldxMsh =>
    apply Onward.loaded
    intro v
    rfl
  | ldMem | ldxMem | st | stx =>
    rw [execInsn, scratch, dif_pos (show fentry.k.toNat < bpfMemwords from legal)]
    exact .next rfl
  | retK | retA => exact .ret
  | _ => exact .next rfl

def AtInsn (filter : List SockFilter) (s : State) : Prop := 0 ≤ s.pc ∧ s.pc < filter.length

theorem execute_onward (acc : Accepted filter) {s : State} (here : AtInsn filter s) :
    Onward filter.length s (execute m skb filter s) ∧
      ∀ s', (execute m skb filter s).1 = .inl s' → AtInsn filter s' := by
  obtain ⟨pc, hpc⟩ := Int.eq_ofNat_of_zero_le here.1
  have lt : pc < filter.length := by
    have := here.2
    omega
  have fetched : fetch filter s.pc = some filter[pc] := by
    rw [fetch, if_pos here.1, hpc, Int.toNat_natCast, List.getElem?_eq_getElem lt]
  obtain ⟨i, hi, legal⟩ := acc.legal pc _ (List.getElem?_eq_getElem lt)
  have run : execute m skb filter s = execInsn m skb filter[pc] s i := by
    rw [execute, if_pos here.2, fetched]
    simp [hi]
  have onward := @execInsn_onward m skb _ pc _ s i legal hpc acc.short
  rw [run]
  refine ⟨onward, fun s' hs' => ?_⟩
  generalize he : execInsn m skb filter[pc] s i = e at onward hs'
  cases onward with
  | ret => cases hs'
  | inl less within =>
    cases hs'
    refine ⟨Int.le_trans here.1 (Int.le_of_lt less), ?_⟩
    rcases within with succ | lt'
    · by_contra past
      have at_last : pc = filter.length - 1 := by omega
      have last := acc.last filter[pc] i (by rw [← at_last, List.getElem?_eq_getElem lt]) hi
      -- the last instruction returns
      rcases last with rfl | rfl
      all_goals cases he
    · exact lt'

def Steps (m : Machine) (skb : SkBuff) (filter : List SockFilter) (s s' : State) : Prop :=
  (execute m skb filter s).1 = .inl s'

theorem Accepted.atStart (acc : Accepted filter) (mem : Fin bpfMemwords → UInt32) : AtInsn filter (start mem) := by
  have := acc.nonempty
  refine ⟨Int.le_refl 0, ?_⟩
  simp only [start]
  omega

/-- The distance to the last instruction shrinks, so that the run ends. -/
theorem skRunFilter_returns (acc : Accepted filter) (m : Machine) (skb : SkBuff)
    (mem : Fin bpfMemwords → UInt32) {n : Nat} (hn : filter.length ≤ n) :
    ∃ v, skRunFilter m skb filter mem n = some (.ret v) := by
  let Inv (k : Nat) (s : State) : Prop := AtInsn filter s ∧ s.pc + k + 1 = filter.length
  have keep : ∀ k s, Inv k s →
      (∃ j s', (execute m skb filter s).1 = .inl s' ∧ j < k ∧ Inv j s') ∨
        ∃ e, (execute m skb filter s).1 = .inr e ∧ ∃ v, e = .ret v := by
    rintro k s ⟨here, hk⟩
    obtain ⟨onward, within⟩ := @execute_onward m skb filter acc s here
    generalize execute m skb filter s = e at onward within
    cases onward with
    | ret => exact .inr ⟨_, rfl, _, rfl⟩
    | @inl s' _ less _ =>
      have here' := within s' rfl
      have := here'.2
      refine .inl ⟨(filter.length - 1 - s'.pc).toNat, s', rfl, ?_, here', ?_⟩
      all_goals omega
  have := acc.nonempty
  have inv : Inv (filter.length - 1) (start mem) := by
    refine ⟨acc.atStart mem, ?_⟩
    simp only [start]
    omega
  obtain ⟨_, run, v, rfl⟩ := Loop.run_total _ Inv _ keep inv (show _ < n by omega)
  exact ⟨v, run⟩

/-- Every instruction of an accepted program is executed inside the program, the program counter only
grows, and the run ends, after no more instructions than the program has, with a return from within
the switch statements: no opcode is unknown, nothing is divided by zero, and no scratch word is missing. -/
theorem accepted_filter_safe (ok : skChkFilter filter = true) (m : Machine) (skb : SkBuff)
    (mem : Fin bpfMemwords → UInt32) :
      (∀ n, filter.length ≤ n → ∃ v, skRunFilter m skb filter mem n = some (.ret v)) ∧
    ∀ s, Transition.Reachable (· = start mem) (Steps m skb filter) s → 0 ≤ s.pc ∧ s.pc < filter.length ∧
      (∀ s', (execute m skb filter s).1 = .inl s' → s.pc < s'.pc) ∧
      ∀ e, (execute m skb filter s).1 = .inr e → ∃ v, e = .ret v := by
  have acc := skChkFilter_spec ok
  refine ⟨fun n hn => skRunFilter_returns acc m skb mem hn, fun s reach => ?_⟩
  have here : AtInsn filter s := by
    refine reach.invariant (AtInsn filter) ?_ ?_
    · rintro _ rfl
      exact acc.atStart mem
    · intro s s' here st
      exact (execute_onward acc here).2 s' st
  obtain ⟨onward, -⟩ := @execute_onward m skb filter acc s here
  generalize execute m skb filter s = e at onward
  refine ⟨here.1, here.2, fun s' hs' => ?_, fun x hx => ?_⟩
  · cases onward with
    | ret => cases hs'
    | inl less _ =>
      cases hs'
      exact less
  · cases onward with
    | ret =>
      cases hx
      exact ⟨_, rfl⟩
    | inl _ _ => cases hx

/-- Keeps the first 96 bytes of an IP packet, with the type of the packet kept in a scratch word in between. -/
def ipOnly : List SockFilter :=
  [⟨bpfLd ||| bpfH ||| bpfAbs, 0, 0, 12⟩, ⟨bpfSt, 0, 0, 3⟩, ⟨bpfLdx ||| bpfMem, 0, 0, 3⟩,
    ⟨bpfMisc ||| bpfTxa, 0, 0, 0⟩, ⟨bpfJmp ||| bpfJeq ||| bpfK, 0, 1, 0x800⟩, ⟨bpfRet ||| bpfK, 0, 0, 96⟩,
    ⟨bpfRet ||| bpfK, 0, 0, 0⟩]

theorem accepted_filter_safe_ipOnly : skChkFilter ipOnly = true ∧
    ∀ m skb mem, ∃ v, skRunFilter m skb ipOnly mem 7 = some (.ret v) :=
  ⟨by decide, fun m skb mem => (accepted_filter_safe (by decide) m skb mem).1 7 (Nat.le_refl 7)⟩

def Insn.loadsScratch : Insn → Bool
  | .ldMem | .ldxMem => true
  | _ => false

def Insn.storesScratch : Insn → Bool
  | .st | .stx => true
  | _ => false

/-- The scratch word that the next instruction uses, if the instruction is of a kind. -/
def wordUsed (kind : Insn → Bool) (filter : List SockFilter) (s : State) : Set UInt32 :=
  { k | ∃ fentry i, fetch filter s.pc = some fentry ∧ decode fentry.code = some i ∧ kind i = true ∧
    k = fentry.k }

/-- A run that keeps track of the scratch words it has stored. -/
def StoreSteps (m : Machine) (skb : SkBuff) (filter : List SockFilter) (p q : State × Set UInt32) : Prop :=
  Steps m skb filter p.1 q.1 ∧ q.2 = p.2 ∪ wordUsed Insn.storesScratch filter p.1

/-- Every scratch word that the run loads, it has stored before. -/
def StoredFirst (m : Machine) (skb : SkBuff) (filter : List SockFilter) (mem : Fin bpfMemwords → UInt32) : Prop :=
  ∀ p, Transition.Reachable (· = (start mem, ∅)) (StoreSteps m skb filter) p →
    wordUsed Insn.loadsScratch filter p.1 ⊆ p.2

/-- Two states that differ at most in scratch words outside a set. -/
structure Agree (W : Set UInt32) (s t : State) : Prop where
  pc : t.pc = s.pc
  a : t.a = s.a
  x : t.x = s.x
  mem : ∀ k ∈ W, ∀ h : k.toNat < bpfMemwords, t.mem ⟨k.toNat, h⟩ = s.mem ⟨k.toNat, h⟩

/-- The same effect, up to scratch words outside a set. -/
inductive Alike (W : Set UInt32) : Effect → Effect → Prop
  | inl {s t : State} {reads : List Int} (agree : Agree W s t) : Alike W (.inl s, reads) (.inl t, reads)
  | inr {e : Exit} {reads : List Int} : Alike W (.inr e, reads) (.inr e, reads)

section Alike

variable {W : Set UInt32} {s t : State}

theorem Alike.next (agree : Agree W s t) (reads : List Int) : Alike W (s.next, reads) (t.next, reads) :=
  .inl ⟨by simp only [agree.pc], agree.a, agree.x, agree.mem⟩

theorem Alike.jump (agree : Agree W s t) (offset : Nat) : Alike W (s.jump offset, []) (t.jump offset, []) :=
  .inl ⟨by simp only [agree.pc], agree.a, agree.x, agree.mem⟩

theorem Alike.loaded {set set' : UInt32 → State} (agree : ∀ v, Agree W (set v) (set' v))
    (r : Loaded) : Alike W (State.loaded set r) (State.loaded set' r) := by
  obtain ⟨v, reads⟩ := r
  cases v with
  | none => exact .inr
  | some v => exact .next (agree v) reads

theorem Alike.scratch {k : UInt32} {access access' : Fin bpfMemwords → State}
    (agree : ∀ h : k.toNat < bpfMemwords, Agree W (access ⟨k.toNat, h⟩) (access' ⟨k.toNat, h⟩)) :
    Alike W (Filter.scratch k access, []) (Filter.scratch k access', []) := by
  unfold Filter.scratch
  split_ifs with h
  · exact .next (agree h) []
  · exact .inr

theorem Agree.operand (agree : Agree W s t) (fentry : SockFilter) (src : Src) :
    operand fentry t src = operand fentry s src := by
  cases src with
  | k => rfl
  | x => exact agree.x

theorem Agree.store (agree : Agree W s t) {k v v' : UInt32} (value : v' = v)
    (h : k.toNat < bpfMemwords) :
    Agree (W ∪ {k}) { s with mem := update s.mem ⟨k.toNat, h⟩ v }
      { t with mem := update t.mem ⟨k.toNat, h⟩ v' } := by
  refine ⟨agree.pc, agree.a, agree.x, fun j hj hj' => ?_⟩
  simp only [update_apply]
  split_ifs with same
  · exact value
  · rcases hj with hj | rfl
    · exact agree.mem j hj hj'
    · exact absurd rfl same

/-- An instruction that loads no word outside the set does the same in both states, and they agree on
the words it stores. -/
theorem execInsn_alike {fentry : SockFilter} {i : Insn} (agree : Agree W s t)
    (loads : i.loadsScratch = true → fentry.k ∈ W) :
    Alike (W ∪ { k | i.storesScratch = true ∧ k = fentry.k }) (execInsn m skb fentry s i)
      (execInsn m skb fentry t i) := by
  cases stores : i.storesScratch with
  | true =>
    have stored : W ∪ { k | true = true ∧ k = fentry.k } = W ∪ {fentry.k} := by
      simp only [true_and]
      rfl
    rw [stored]
    cases i with
    | st => exact .scratch (agree.store agree.a)
    | stx => exact .scratch (agree.store agree.x)
    | _ => cases stores
  | false =>
    have none_stored : W ∪ { k | false = true ∧ k = fentry.k } = W := by simp
    rw [none_stored]
    cases i with
    | st | stx => cases stores
    | ldMem => exact .scratch fun h => ⟨agree.pc, agree.mem _ (loads rfl) h, agree.x, agree.mem⟩
    | ldxMem => exact .scratch fun h => ⟨agree.pc, agree.a, agree.mem _ (loads rfl) h, agree.mem⟩
    | alu op src =>
      rw [execInsn, execInsn]
      simp only [execAlu, agree.operand, agree.a]
      split_ifs
      · cases src <;> exact .inr
      · apply Alike.next
        exact ⟨agree.pc, rfl, agree.x, agree.mem⟩
    | jmp op src =>
      rw [execInsn, execInsn, agree.operand, agree.a]
      exact .jump agree _
    | ja => exact .jump agree _
    | ldAbs size | ldInd size =>
      rw [execInsn, execInsn, agree.a, agree.x]
      apply Alike.loaded
      exact fun v => ⟨agree.pc, rfl, rfl, agree.mem⟩
    | ldxMsh =>
      apply Alike.loaded
      exact fun v => ⟨agree.pc, agree.a, rfl, agree.mem⟩
    | retK => exact .inr
    | retA =>
      rw [execInsn, execInsn, agree.a]
      exact .inr
    | neg =>
      apply Alike.next
      exact ⟨agree.pc, congrArg (- ·) agree.a, agree.x, agree.mem⟩
    | ldLen | ldImm =>
      apply Alike.next
      exact ⟨agree.pc, rfl, agree.x, agree.mem⟩
    | ldxLen | ldxImm =>
      apply Alike.next
      exact ⟨agree.pc, agree.a, rfl, agree.mem⟩
    | tax =>
      apply Alike.next
      exact ⟨agree.pc, agree.a, agree.a, agree.mem⟩
    | txa =>
      apply Alike.next
      exact ⟨agree.pc, agree.x, agree.x, agree.mem⟩

theorem execute_alike (agree : Agree W s t) (loads : wordUsed Insn.loadsScratch filter s ⊆ W) :
    Alike (W ∪ wordUsed Insn.storesScratch filter s) (execute m skb filter s) (execute m skb filter t) := by
  unfold execute
  rw [agree.pc]
  split_ifs with inside
  · cases fetched : fetch filter s.pc with
    | none => exact .inr
    | some fentry =>
      cases decoded : decode fentry.code with
      | none =>
        simp only [decoded]
        exact .inr
      | some i =>
        have used : ∀ kind : Insn → Bool,
            wordUsed kind filter s = { k | kind i = true ∧ k = fentry.k } := by
          intro kind
          simp [wordUsed, fetched, decoded]
        simp only [decoded]
        rw [used] at loads ⊢
        exact execInsn_alike agree fun h => loads ⟨h, rfl⟩
  · exact .inr

end Alike

/-- If the run of an accepted program on a packet loads only scratch words that it has stored before, it
returns the same value from every scratch memory. -/
theorem scratch_independent (ok : skChkFilter filter = true) (m : Machine) (skb : SkBuff)
    {mem : Fin bpfMemwords → UInt32} (first : StoredFirst m skb filter mem) :
    ∃ v, ∀ mem' n, filter.length ≤ n → skRunFilter m skb filter mem' n = some (.ret v) := by
  have acc := skChkFilter_spec ok
  obtain ⟨v, run⟩ := skRunFilter_returns acc m skb mem (Nat.le_refl _)
  refine ⟨v, fun mem' n hn => ?_⟩
  let R (s t : State) : Prop := ∃ W,
    Transition.Reachable (· = (start mem, ∅)) (StoreSteps m skb filter) (s, W) ∧ Agree W s t
  have keep : ∀ s t, R s t →
      (∃ s' t', (execute m skb filter s).1 = .inl s' ∧ (execute m skb filter t).1 = .inl t' ∧
        R s' t') ∨
      ∃ e e', (execute m skb filter s).1 = .inr e ∧ (execute m skb filter t).1 = .inr e' ∧ e = e' := by
    rintro s t ⟨W, reach, agree⟩
    have alike := @execute_alike m skb filter W s t agree (first _ reach)
    generalize hs : execute m skb filter s = e, execute m skb filter t = e' at alike
    cases alike with
    | inr => exact .inr ⟨_, _, rfl, rfl, rfl⟩
    | inl agree' =>
      refine .inl ⟨_, _, rfl, rfl, _, reach.next ⟨?_, rfl⟩, agree'⟩
      exact congrArg Prod.fst hs
  have related : R (start mem) (start mem') :=
    ⟨∅, .start rfl, rfl, rfl, rfl, fun _ hk => hk.elim⟩
  have same := Loop.run_related R Eq keep related n
  rw [Loop.run_mono hn run] at same
  generalize found : Loop.run _ n (start mem') = r at same
  cases same with
  | some same => exact found.trans (congrArg some same.symm)

/-- A filter that stores the length of the packet and returns what it loads back. -/
def storeLength : List SockFilter :=
  [⟨bpfLd ||| bpfW ||| bpfLen, 0, 0, 0⟩, ⟨bpfSt, 0, 0, 3⟩, ⟨bpfLd ||| bpfMem, 0, 0, 3⟩,
    ⟨bpfRet ||| bpfA, 0, 0, 0⟩]

theorem storeLength_storedFirst (m : Machine) (skb : SkBuff) (mem : Fin bpfMemwords → UInt32) :
    StoredFirst m skb storeLength mem := by
  intro p reach
  have inv : p.1.pc = 0 ∨ p.1.pc = 1 ∨ (p.1.pc = 2 ∧ 3 ∈ p.2) ∨ p.1.pc = 3 := by
    refine reach.invariant
      (fun p => p.1.pc = 0 ∨ p.1.pc = 1 ∨ (p.1.pc = 2 ∧ 3 ∈ p.2) ∨ p.1.pc = 3) ?_ ?_
    · rintro _ rfl
      exact .inl rfl
    · rintro ⟨⟨pc, a, x, mem⟩, W⟩ ⟨s', W'⟩ inv ⟨st, stored⟩
      rcases inv with rfl | rfl | ⟨rfl, -⟩ | rfl
      · cases st
        exact .inr (.inl rfl)
      · cases st
        refine .inr (.inr (.inl ⟨rfl, ?_⟩))
        rw [stored]
        exact .inr ⟨_, _, rfl, rfl, rfl, rfl⟩
      · cases st
        exact .inr (.inr (.inr rfl))
      · cases st
  obtain ⟨⟨pc, a, x, mem⟩, W⟩ := p
  rintro k ⟨fentry, i, fetched, decoded, loads, rfl⟩
  rcases inv with rfl | rfl | ⟨rfl, mem3⟩ | rfl <;> cases fetched
  case inr.inr.inl.refl => exact mem3
  all_goals
    cases decoded
    cases loads

theorem scratch_independent_store : ∃ v, ∀ mem n, 4 ≤ n → skRunFilter ⟨.little, .bits64⟩
      ⟨fun _ => 0, 0, 60, [], 0, 0, (8, 0), 0, 1, 0, 0, by decide, by decide⟩ storeLength mem n = some (.ret v) :=
  scratch_independent (by decide) _ _ (storeLength_storedFirst _ _ fun _ => 0)

/-- The checker accepts a filter that returns a scratch word it never stored. -/
theorem scratch_leaks : ∃ filter skb mem mem', skChkFilter filter = true ∧
      skRunFilter ⟨.little, .bits64⟩ skb filter mem 2 = some (.ret 0) ∧
      skRunFilter ⟨.little, .bits64⟩ skb filter mem' 2 = some (.ret 7) :=
  ⟨[⟨bpfLd ||| bpfMem, 0, 0, 0⟩, ⟨bpfRet ||| bpfA, 0, 0, 0⟩],
    ⟨fun _ => 0, 0, 60, [], 0, 0, (8, 0), 0, 1, 0, 0, by decide, by decide⟩, fun _ => 0, fun _ => 7,
    by decide, by decide, by decide⟩

end Filter
