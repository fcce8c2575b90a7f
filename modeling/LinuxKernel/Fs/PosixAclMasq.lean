/- An access control list and the permission bits of a mode: posix_acl_equiv_mode,
posix_acl_create_masq and posix_acl_chmod_masq of fs/posix_acl.c. -/
import LinuxKernel.Fs.PosixAcl

namespace PosixAcl

open List

/-- `mode_t`. -/
abbrev Mode := BitVec 32

def sIrwxo : Mode := 0o7

def sIrwxugo : Mode := 0o777

@[simp] theorem sIrwxo_bit (i : Nat) : sIrwxo.getLsbD i = decide (i < 3) := by
  have : sIrwxo = BitVec.ofNat 32 (2 ^ 3 - 1) := rfl
  rw [this, BitVec.getLsbD_ofNat, Nat.testBit_two_pow_sub_one]
  grind

@[simp] theorem sIrwxugo_bit (i : Nat) : sIrwxugo.getLsbD i = decide (i < 9) := by
  have : sIrwxugo = BitVec.ofNat 32 (2 ^ 9 - 1) := rfl
  rw [this, BitVec.getLsbD_ofNat, Nat.testBit_two_pow_sub_one]
  grind

/-- The body of the loop of `posix_acl_equiv_mode` on `mode` and `not_equiv`; `none` is `-EINVAL`. -/
def equivEntry (s : Mode × Bool) (pa : Entry) : Option (Mode × Bool) :=
  let perm := pa.perm.setWidth 32 &&& sIrwxo
  match pa.tag with
  | .userObj => some (s.1 ||| perm <<< 6, s.2)
  | .groupObj => some (s.1 ||| perm <<< 3, s.2)
  | .other => some (s.1 ||| perm, s.2)
  | .mask => some (s.1 &&& ~~~(sIrwxo <<< 3) ||| perm <<< 3, true)
  | .user | .group => some (s.1, true)
  | .invalid _ => none

/-- The return value and what is left in `*mode_p`. -/
def posixAclEquivMode (acl : List Entry) (modeP : Mode) : Option (Bool × Mode) :=
  (acl.foldlM equivEntry (0, false)).map fun s => (s.2, modeP &&& ~~~sIrwxugo ||| s.1)

/-- What is done to `mode` and to the permissions of an entry. -/
abbrev Change := Mode → Perm → Mode × Perm

/-- The variables of the loops, with the entries that are done. The pointers are positions in the list. -/
structure Masq where
  acl : List Entry
  mode : Mode
  notEquiv : Bool
  groupObj : Option Nat
  maskObj : Option Nat

/-- The body of both loops; `none` is `-EIO`. -/
def masqEntry (owner other : Change) (s : Masq) (pa : Entry) : Option Masq :=
  let pass := { s with acl := s.acl ++ [pa] }
  let change := fun c : Change =>
    { s with acl := s.acl ++ [{ pa with perm := (c s.mode pa.perm).2 }], mode := (c s.mode pa.perm).1 }
  match pa.tag with
  | .userObj => some (change owner)
  | .user | .group => some { pass with notEquiv := true }
  | .groupObj => some { pass with groupObj := some s.acl.length }
  | .other => some (change other)
  | .mask => some { pass with maskObj := some s.acl.length, notEquiv := true }
  | .invalid _ => none

/-- The loop, and the change of the mask or else of the owning group: `not_equiv`, `mode` and the list. -/
def masq (owner group other : Change) (acl : List Entry) (mode : Mode) : Option (Bool × Mode × List Entry) := do
  let s ← acl.foldlM (masqEntry owner other) ⟨[], mode, false, none, none⟩
  let i ← s.maskObj.or s.groupObj
  let pa ← s.acl[i]?
  return (s.notEquiv, (group s.mode pa.perm).1, s.acl.set i { pa with perm := (group s.mode pa.perm).2 })

/-- `pa->e_perm &= (mode >> k) | ~S_IRWXO; mode &= (pa->e_perm << k) | ~(S_IRWXO << k)`. -/
def clip (k : Nat) : Change := fun mode perm =>
  let perm := perm &&& (mode >>> k ||| ~~~sIrwxo).setWidth 16
  (mode &&& (perm.setWidth 32 <<< k ||| ~~~(sIrwxo <<< k)), perm)

/-- The return value, what is left in `*mode_p` and the list. -/
def posixAclCreateMasq (acl : List Entry) (modeP : Mode) : Option (Bool × Mode × List Entry) :=
  (masq (clip 6) (clip 3) (clip 0) acl modeP).map fun r => (r.1, modeP &&& ~~~sIrwxugo ||| r.2.1, r.2.2)

/-- `pa->e_perm = (mode & (S_IRWXO << k)) >> k`. -/
def assign (k : Nat) : Change := fun mode _ => (mode, ((mode &&& sIrwxo <<< k) >>> k).setWidth 16)

def posixAclChmodMasq (acl : List Entry) (mode : Mode) : Option (List Entry) :=
  (masq (assign 6) (assign 3) (assign 0) acl mode).map (·.2.2)

def reperm (f : Entry → Perm) (acl : List Entry) : List Entry := acl.map fun pa => { pa with perm := f pa }

section Reperm

variable {f : Entry → Perm} {acl : List Entry}

theorem checkEntries_reperm {c d : Check} (fits : ∀ pa ∈ acl, pa.perm &&& ~~~aclAll = 0 → f pa &&& ~~~aclAll = 0)
    (run : checkEntries c acl = some d) : checkEntries c (reperm f acl) = some d := by
  induction acl generalizing c with
  | nil => exact run
  | cons pa acl ih =>
    obtain ⟨fit, fits⟩ := forall_mem_cons.mp fits
    rw [checkEntries] at run
    split at run
    · cases run
    next c' step =>
      have same : checkEntry c { pa with perm := f pa } = some c' := by
        unfold checkEntry at step ⊢
        split at step
        · cases step
        · rwa [if_neg (by simpa using fit (not_not.mp ‹_›))]
      rw [reperm, map_cons, checkEntries, same]
      exact ih fits run

theorem Granted.of_reperm {inode : Inode} {current : Caller} {want : BitVec 32}
    (less : ∀ pa ∈ acl, Allows (f pa) want → Allows pa.perm want)
    (granted : Granted inode current (reperm f acl) want) : Granted inode current acl want := by
  have all {P : Entry → Prop} (h : ∀ e ∈ reperm f acl, P e) : ∀ pa ∈ acl, P { pa with perm := f pa } :=
    forall_mem_map.mp h
  have masked {pa : Entry} (here : pa ∈ acl) (allows : AllowsMasked (reperm f acl) want { pa with perm := f pa }) :
      AllowsMasked acl want pa :=
    ⟨less pa here allows.1, fun m mem tag => less m mem (all allows.2 m mem tag)⟩
  cases granted with
  | owner owns mem tag allows =>
    obtain ⟨pa, here, rfl⟩ := mem_map.mp mem
    exact .owner owns here tag (less pa here allows)
  | user owns mem names allows =>
    obtain ⟨pa, here, rfl⟩ := mem_map.mp mem
    exact .user owns here names (masked here allows)
  | group owns named mem names allows =>
    obtain ⟨pa, here, rfl⟩ := mem_map.mp mem
    exact .group owns (all named) here names (masked here allows)
  | other owns named grouped mem tag allows =>
    obtain ⟨pa, here, rfl⟩ := mem_map.mp mem
    exact .other owns (all named) (all grouped) here tag (less pa here allows)

end Reperm

/-- The permissions of the group class. -/
def Form.class (form : Form) : Perm := (form.mask.getD form.group).perm

/-- The permissions of an entry if those of its class are changed. -/
def Form.newPerm (form : Form) (u g o : Perm) (pa : Entry) : Perm :=
  match pa.tag with
  | .userObj => u
  | .groupObj => if form.mask.isSome then pa.perm else g
  | .mask => g
  | .other => o
  | _ => pa.perm

/-- The entries that are neither changed nor read if there is a mask. -/
def Form.middle (form : Form) : List Entry := form.users ++ form.group :: form.groups

variable {form : Form} {u g o : Perm}

theorem Form.forall_newPerm {p : Perm → Perm → Prop} (same : ∀ x, p x x) (owner : p form.owner.perm u)
    (group : p form.class g) (other : p form.other.perm o) :
    ∀ pa ∈ form.entries, p pa.perm (form.newPerm u g o pa) := by
  intro pa mem
  have here := Form.mem_of_tag mem
  unfold newPerm
  cases tag : pa.tag <;> rw [tag] at here <;> cases mask : form.mask <;> simp_all [Form.class]

theorem Form.entries_none (none : form.mask = none) : form.entries = [form.owner, form.group, form.other] := by
  have named := form.needs_mask
  simp only [none, ne_eq, not_true_eq_false, imp_false, not_or, not_not] at named
  simp [entries, groupPart, none, named]

theorem Form.entries_some {m : Entry} (some : form.mask = some m) :
    form.entries = form.owner :: (form.middle ++ [m, form.other]) := by
  simp [entries, groupPart, middle, some]

theorem Form.middle_tags : ∀ pa ∈ form.middle, pa.tag = .user ∨ pa.tag = .groupObj ∨ pa.tag = .group :=
  forall_mem_append.mpr ⟨fun pa mem => .inl (form.users_tag pa mem), fun pa mem => .inr (form.groupTags pa mem)⟩

theorem Form.reperm_some {m : Entry} (mask : form.mask = some m) : reperm (form.newPerm u g o) form.entries =
    { form.owner with perm := u } :: (form.middle ++ [{ m with perm := g }, { form.other with perm := o }]) := by
  have same : ∀ pa ∈ form.middle, { pa with perm := form.newPerm u g o pa } = id pa := by
    intro pa mem
    have : form.newPerm u g o pa = pa.perm := by
      rcases form.middle_tags pa mem with tag | tag | tag <;> simp [newPerm, tag, mask]
    rw [this, id]
  rw [reperm, Form.entries_some mask, map_cons, map_append, map_congr_left same, map_id]
  simp [newPerm, form.owner_tag, form.other_tag, form.mask_tag m mask]

section Middle

variable {l : List Entry} (tags : ∀ pa ∈ l, pa.tag = .user ∨ pa.tag = .groupObj ∨ pa.tag = .group)
include tags

theorem foldlM_masqEntry (owner other : Change) (s : Masq) : ∃ b i,
    l.foldlM (masqEntry owner other) s = some { s with acl := s.acl ++ l, notEquiv := b, groupObj := i } := by
  induction l generalizing s with
  | nil => exact ⟨s.notEquiv, s.groupObj, by simp⟩
  | cons pa l ih =>
    obtain ⟨tag, tags⟩ := forall_mem_cons.mp tags
    have step : ∃ b i, masqEntry owner other s pa =
        some { s with acl := s.acl ++ [pa], notEquiv := b, groupObj := i } := by
      rcases tag with tag | tag | tag <;> exact ⟨_, _, by rw [masqEntry, tag]⟩
    obtain ⟨b, i, step⟩ := step
    rw [foldlM_cons, step]
    simpa using ih tags { s with acl := s.acl ++ [pa], notEquiv := b, groupObj := i }

theorem foldlM_equivEntry (s : Mode × Bool) : ∃ s', l.foldlM equivEntry s = some s' ∧
    s'.1 &&& ~~~(sIrwxo <<< 3) = s.1 &&& ~~~(sIrwxo <<< 3) := by
  induction l generalizing s with
  | nil => exact ⟨s, rfl, rfl⟩
  | cons pa l ih =>
    obtain ⟨tag, tags⟩ := forall_mem_cons.mp tags
    have step : ∃ s', equivEntry s pa = some s' ∧ s'.1 &&& ~~~(sIrwxo <<< 3) = s.1 &&& ~~~(sIrwxo <<< 3) := by
      rcases tag with tag | tag | tag
      · exact ⟨(s.1, true), by rw [equivEntry, tag], rfl⟩
      · refine ⟨_, by rw [equivEntry, tag], BitVec.eq_of_getLsbD_eq fun i lt => ?_⟩
        simp
        grind
      · exact ⟨(s.1, true), by rw [equivEntry, tag], rfl⟩
    obtain ⟨s', step, same⟩ := step
    rw [foldlM_cons, step, ← same]
    exact ih tags s'

end Middle

theorem masq_form (owner group other : Change) (mode : Mode) :
    let first := owner mode form.owner.perm
    let last := other first.1 form.other.perm
    let middle := group last.1 form.class
    masq owner group other form.entries mode =
      some (form.mask.isSome, middle.1, reperm (form.newPerm first.2 middle.2 last.2) form.entries) := by
  intro first last middle
  have tags := And.intro form.owner_tag (And.intro form.group_tag form.other_tag)
  cases mask : form.mask with
  | none =>
    rw [Form.entries_none mask]
    simp [masq, masqEntry, reperm, Form.newPerm, Form.class, mask, tags, first, last, middle]
  | some m =>
    have tag := form.mask_tag m mask
    obtain ⟨b, i, run⟩ := foldlM_masqEntry form.middle_tags owner other
      ⟨[⟨.userObj, first.2, form.owner.id⟩], first.1, false, none, none⟩
    rw [Form.reperm_some mask, Form.entries_some mask]
    simp [masq, masqEntry, tags, tag, first] at run ⊢
    simp [run, Form.class, mask, tag, first, last, middle]

/-- The permission bits of a mode. -/
def bits (u g o : Perm) : Mode :=
  (u.setWidth 32 &&& sIrwxo) <<< 6 ||| (g.setWidth 32 &&& sIrwxo) <<< 3 ||| o.setWidth 32 &&& sIrwxo

theorem equivMode_form (modeP : Mode) : posixAclEquivMode (reperm (form.newPerm u g o) form.entries) modeP =
    some (form.mask.isSome, modeP &&& ~~~sIrwxugo ||| bits u g o) := by
  have tags := And.intro form.owner_tag (And.intro form.group_tag form.other_tag)
  cases mask : form.mask with
  | none =>
    rw [Form.entries_none mask]
    simp [posixAclEquivMode, equivEntry, reperm, Form.newPerm, mask, tags, bits]
  | some m =>
    have tag := form.mask_tag m mask
    obtain ⟨s, run, same⟩ := foldlM_equivEntry form.middle_tags ((u.setWidth 32 &&& sIrwxo) <<< 6, false)
    rw [Form.reperm_some mask]
    simp [posixAclEquivMode, equivEntry, tags, tag, run, same]
    congr 1
    refine BitVec.eq_of_getLsbD_eq fun i lt => ?_
    simp [bits]
    grind

theorem clip_bits (mode : Mode) (u g o : Perm) :
    let first := clip 6 mode u
    let last := clip 0 first.1 o
    let middle := clip 3 last.1 g
    let mode' := mode &&& ~~~sIrwxugo ||| middle.1
    mode' &&& sIrwxugo = bits first.2 middle.2 last.2 ∧ mode' &&& mode = mode' := by
  intro first last middle mode'
  constructor
  all_goals
    refine BitVec.eq_of_getLsbD_eq fun i lt => ?_
    simp [first, last, middle, mode', clip, bits]
    grind

theorem assign_bits (mode : Mode) (u g o : Perm) :
    mode &&& sIrwxugo = bits (assign 6 mode u).2 (assign 3 mode g).2 (assign 0 mode o).2 := by
  refine BitVec.eq_of_getLsbD_eq fun i lt => ?_
  simp [assign, bits]
  grind

theorem Form.valid_newPerm (valid : posixAclValid form.entries = .ok)
    (fits : ∀ pa ∈ form.entries, pa.perm &&& ~~~aclAll = 0 → form.newPerm u g o pa &&& ~~~aclAll = 0) :
    posixAclValid (reperm (form.newPerm u g o) form.entries) = .ok := by
  obtain ⟨c, run, done⟩ := posixAclValid_iff.mp valid
  exact posixAclValid_iff.mpr ⟨c, checkEntries_reperm fits run, done⟩

theorem posixAclPermission_of_reperm {f : Entry → Perm} {inode : Inode} {current : Caller} {want : BitVec 32}
    (valid : posixAclValid (reperm f form.entries) = .ok)
    (less : ∀ pa ∈ form.entries, Allows (f pa) want → Allows pa.perm want)
    (ok : posixAclPermission inode current (reperm f form.entries) want = .ok) :
    posixAclPermission inode current form.entries want = .ok := by
  obtain ⟨form', eq⟩ := form_of_valid valid
  rw [eq] at ok
  have granted := posixAclPermission_decides.2.mp ok
  rw [← eq] at granted
  exact posixAclPermission_decides.2.mpr (granted.of_reperm less)

theorem assign_fits (k : Nat) (mode : Mode) (perm : Perm) : (assign k mode perm).2 &&& ~~~aclAll = 0 := by
  have all : aclAll = sIrwxo.setWidth 16 := rfl
  refine BitVec.eq_of_getLsbD_eq fun i lt => ?_
  simp [assign, all]
  grind

/-- The permission bits that `posix_acl_create_masq` leaves are in `mode` and are those of the new list, which is
valid and grants no caller more than the old one; `posix_acl_chmod_masq` gives a valid list the bits of `mode`. -/
theorem posix_acl_masq {acl : List Entry} (valid : posixAclValid acl = .ok) (mode : Mode) :
    (∃ notEquiv mode' acl', posixAclCreateMasq acl mode = some (notEquiv, mode', acl') ∧ posixAclValid acl' = .ok ∧
      mode' &&& mode = mode' ∧
      (∀ modeP, posixAclEquivMode acl' modeP = some (notEquiv, modeP &&& ~~~sIrwxugo ||| mode' &&& sIrwxugo)) ∧
      ∀ inode current want, posixAclPermission inode current acl' want = .ok →
        posixAclPermission inode current acl want = .ok) ∧
    ∃ acl', posixAclChmodMasq acl mode = some acl' ∧ posixAclValid acl' = .ok ∧
      ∃ notEquiv, ∀ modeP, posixAclEquivMode acl' modeP =
        some (notEquiv, modeP &&& ~~~sIrwxugo ||| mode &&& sIrwxugo) := by
  obtain ⟨form, rfl⟩ := form_of_valid valid
  constructor
  · obtain ⟨equiv, less⟩ := clip_bits mode form.owner.perm form.class form.other.perm
    have parts m m' : ∀ pa ∈ form.entries, ∃ z, form.newPerm (clip 6 mode form.owner.perm).2 (clip 3 m form.class).2
        (clip 0 m' form.other.perm).2 pa = pa.perm &&& z :=
      Form.forall_newPerm (p := fun x y => ∃ z, y = x &&& z)
        (fun x => ⟨x, BitVec.and_self.symm⟩) ⟨_, rfl⟩ ⟨_, rfl⟩ ⟨_, rfl⟩
    have valid' := form.valid_newPerm valid fun pa mem fits => by
      obtain ⟨z, eq⟩ := parts (clip 0 (clip 6 mode form.owner.perm).1 form.other.perm).1
        (clip 6 mode form.owner.perm).1 pa mem
      rw [eq, BitVec.and_assoc, BitVec.and_comm z, ← BitVec.and_assoc, fits]
      exact BitVec.zero_and
    refine ⟨_, _, _, by rw [posixAclCreateMasq, masq_form]; rfl, valid', less, fun modeP => ?_,
      fun inode current want ok => ?_⟩
    · rw [equivMode_form, equiv]
    · refine posixAclPermission_of_reperm valid' (fun pa mem allows i wanted => ?_) ok
      obtain ⟨z, eq⟩ := parts _ _ pa mem
      have := allows i wanted
      rw [eq, BitVec.getLsbD_and, Bool.and_eq_true] at this
      exact this.1
  · refine ⟨_, by rw [posixAclChmodMasq, masq_form]; rfl, form.valid_newPerm valid ?_, form.mask.isSome,
      fun modeP => ?_⟩
    · exact Form.forall_newPerm (p := fun x y => x &&& ~~~aclAll = 0 → y &&& ~~~aclAll = 0) (fun _ => id)
        (fun _ => assign_fits ..) (fun _ => assign_fits ..) fun _ => assign_fits ..
    · rw [equivMode_form, assign_bits mode form.owner.perm form.class form.other.perm]
      rfl

/-- A file that a list with a mask is inherited by is created with mode 0740: the mask loses a bit. -/
theorem posix_acl_masq_of_five : ∃ notEquiv mode' acl', posixAclCreateMasq
    [⟨.userObj, 7, 0⟩, ⟨.user, 7, 1000⟩, ⟨.groupObj, 5, 0⟩, ⟨.mask, 6, 0⟩, ⟨.other, 0, 0⟩] 0o740 =
      some (notEquiv, mode', acl') ∧ acl'[3]? = some ⟨.mask, 4, 0⟩ ∧ posixAclValid acl' = .ok := by
  obtain ⟨⟨notEquiv, mode', acl', run, valid, -⟩, -⟩ := @posix_acl_masq
    [⟨.userObj, 7, 0⟩, ⟨.user, 7, 1000⟩, ⟨.groupObj, 5, 0⟩, ⟨.mask, 6, 0⟩, ⟨.other, 0, 0⟩] (by decide) 0o740
  exact ⟨notEquiv, mode', acl', run, by cases run; decide, valid⟩

end PosixAcl
