/- The access control lists of fs/posix_acl.c: the check of their form and the permission check. -/
import Mathlib.Data.List.Pairwise

namespace PosixAcl

open List

/-- `e_tag`; every other value is invalid. -/
inductive Tag where
  | userObj
  | user
  | groupObj
  | group
  | mask
  | other
  | invalid (value : BitVec 16)
  deriving DecidableEq, Repr

abbrev Perm := BitVec 16

/-- `uid_t` and `gid_t`. -/
abbrev Id := BitVec 32

structure Entry where
  tag : Tag
  perm : Perm
  id : Id
  deriving DecidableEq, Repr

def aclUndefinedId : Id := -1

/-- `ACL_READ|ACL_WRITE|ACL_EXECUTE`. -/
def aclAll : Perm := 0x04 ||| 0x02 ||| 0x01

inductive Ret where
  | ok
  | eacces
  | einval
  | eio
  deriving DecidableEq, Repr

/-- The values of `state` in `posix_acl_valid`, which are those of the tags and zero. -/
inductive Expect where
  | userObj
  | user
  | group
  | other
  | done
  deriving DecidableEq, Repr

structure Check where
  state : Expect
  id : Id
  needsMask : Bool

/-- The body of the loop; `none` is `-EINVAL`. -/
def checkEntry (c : Check) (pa : Entry) : Option Check :=
  if pa.perm &&& ~~~aclAll ≠ 0 then none
  else
    match pa.tag with
    | .userObj => if c.state = .userObj then some { c with id := 0, state := .user } else none
    | .user =>
      if c.state ≠ .user then none
      else if pa.id = aclUndefinedId ∨ pa.id < c.id then none
      else some { c with id := pa.id + 1, needsMask := true }
    | .groupObj => if c.state = .user then some { c with id := 0, state := .group } else none
    | .group =>
      if c.state ≠ .group then none
      else if pa.id = aclUndefinedId ∨ pa.id < c.id then none
      else some { c with id := pa.id + 1, needsMask := true }
    | .mask => if c.state ≠ .group then none else some { c with state := .other }
    | .other =>
      if c.state = .other ∨ (c.state = .group ∧ ¬ c.needsMask) then some { c with state := .done }
      else none
    | .invalid _ => none

def checkEntries : Check → List Entry → Option Check
  | c, [] => some c
  | c, pa :: rest =>
    match checkEntry c pa with
    | none => none
    | some c => checkEntries c rest

def posixAclValid (acl : List Entry) : Ret :=
  match checkEntries ⟨.userObj, 0, false⟩ acl with
  | some c => if c.state = .done then .ok else .einval
  | none => .einval

structure Inode where
  uid : Id
  gid : Id

/-- The caller: `current_fsuid()` and what `in_group_p` answers. -/
structure Caller where
  fsuid : Id
  inGroupP : Id → Bool

/-- `(perm & want) == want`. -/
def covers (perm : Perm) (want : BitVec 32) : Bool := decide (perm.setWidth 32 &&& want = want)

/-- The code at `check_perm`. -/
def checkPerm (pa : Entry) (want : BitVec 32) : Ret := if covers pa.perm want then .ok else .eacces

/-- The code at `mask`, with the entries after `pa`. -/
def checkMask (pa : Entry) (want : BitVec 32) : List Entry → Ret
  | [] => checkPerm pa want
  | maskObj :: rest =>
    if maskObj.tag = .mask then
      if pa.perm.setWidth 32 &&& maskObj.perm.setWidth 32 &&& want = want then .ok else .eacces
    else checkMask pa want rest

/-- The loop of `posix_acl_permission`. -/
def permissionFrom (inode : Inode) (current : Caller) (want : BitVec 32) : Bool → List Entry → Ret
  | _, [] => .eio
  | found, pa :: rest =>
    match pa.tag with
    | .userObj =>
      if inode.uid = current.fsuid then checkPerm pa want
      else permissionFrom inode current want found rest
    | .user =>
      if pa.id = current.fsuid then checkMask pa want rest
      else permissionFrom inode current want found rest
    | .groupObj =>
      if current.inGroupP inode.gid then
        if covers pa.perm want then checkMask pa want rest
        else permissionFrom inode current want true rest
      else permissionFrom inode current want found rest
    | .group =>
      if current.inGroupP pa.id then
        if covers pa.perm want then checkMask pa want rest
        else permissionFrom inode current want true rest
      else permissionFrom inode current want found rest
    | .mask => permissionFrom inode current want found rest
    | .other => if found then .eacces else checkPerm pa want
    | .invalid _ => .eio

def posixAclPermission (inode : Inode) (current : Caller) (acl : List Entry) (want : BitVec 32) : Ret :=
  permissionFrom inode current want false acl

def Allows (perm : Perm) (want : BitVec 32) : Prop :=
  ∀ i, want.getLsbD i = true → perm.getLsbD i = true

section Access

variable (inode : Inode) (current : Caller) (acl : List Entry) (want : BitVec 32)

/-- The permissions of an entry after the mask, if there is one, have all that is wanted. -/
def AllowsMasked (pa : Entry) : Prop :=
  Allows pa.perm want ∧ ∀ m ∈ acl, m.tag = .mask → Allows m.perm want

def NamesUser (pa : Entry) : Prop := pa.tag = .user ∧ pa.id = current.fsuid

/-- The entry of the owning group or of a named group that the caller is in. -/
def NamesGroup (pa : Entry) : Prop :=
  pa.tag = .groupObj ∧ current.inGroupP inode.gid = true ∨
    pa.tag = .group ∧ current.inGroupP pa.id = true

/-- The access check algorithm, in its four cases. -/
inductive Granted : Prop
  | owner (owns : inode.uid = current.fsuid) {pa : Entry} (mem : pa ∈ acl) (tag : pa.tag = .userObj)
      (allows : Allows pa.perm want)
  | user (owns : inode.uid ≠ current.fsuid) {pa : Entry} (mem : pa ∈ acl)
      (names : NamesUser current pa) (allows : AllowsMasked acl want pa)
  | group (owns : inode.uid ≠ current.fsuid) (named : ∀ pa ∈ acl, ¬ NamesUser current pa)
      {pa : Entry} (mem : pa ∈ acl) (names : NamesGroup inode current pa)
      (allows : AllowsMasked acl want pa)
  | other (owns : inode.uid ≠ current.fsuid) (named : ∀ pa ∈ acl, ¬ NamesUser current pa)
      (grouped : ∀ pa ∈ acl, ¬ NamesGroup inode current pa) {pa : Entry} (mem : pa ∈ acl)
      (tag : pa.tag = .other) (allows : Allows pa.perm want)

end Access

/-- The entries of a valid list in their order. -/
structure Form where
  owner : Entry
  users : List Entry
  group : Entry
  groups : List Entry
  mask : Option Entry
  other : Entry
  owner_tag : owner.tag = .userObj
  users_tag : ∀ pa ∈ users, pa.tag = .user
  users_ids : users.Pairwise fun pa pb => pa.id ≠ pb.id
  group_tag : group.tag = .groupObj
  groups_tag : ∀ pa ∈ groups, pa.tag = .group
  mask_tag : ∀ m ∈ mask, m.tag = .mask
  needs_mask : users ≠ [] ∨ groups ≠ [] → mask ≠ none
  other_tag : other.tag = .other

def Form.groupPart (form : Form) : List Entry :=
  form.group :: form.groups ++ form.mask.toList ++ [form.other]

def Form.entries (form : Form) : List Entry := form.owner :: form.users ++ form.groupPart

theorem checkEntry_cases {c c' : Check} {pa : Entry} (run : checkEntry c pa = some c') :
    (pa.tag = .userObj ∧ c.state = .userObj ∧ c' = ⟨.user, 0, c.needsMask⟩) ∨
    (pa.tag = .user ∧ c.state = .user ∧ pa.id ≠ aclUndefinedId ∧ c.id ≤ pa.id ∧ c' = ⟨.user, pa.id + 1, true⟩) ∨
    (pa.tag = .groupObj ∧ c.state = .user ∧ c' = ⟨.group, 0, c.needsMask⟩) ∨
    (pa.tag = .group ∧ c.state = .group ∧ c' = ⟨.group, pa.id + 1, true⟩) ∨
    (pa.tag = .mask ∧ c.state = .group ∧ c' = ⟨.other, c.id, c.needsMask⟩) ∨
    (pa.tag = .other ∧ (c.state = .other ∨ c.state = .group ∧ c.needsMask = false) ∧
      c' = ⟨.done, c.id, c.needsMask⟩) := by
  obtain ⟨state, id, needsMask⟩ := c
  unfold checkEntry at run
  split at run
  · cases run
  cases tag : pa.tag <;> simp only [tag] at run <;> grind

/-- The rest of an accepted list from a state of the check on. -/
def Accepted (c : Check) (rest : List Entry) : Prop :=
  ∃ c', checkEntries c rest = some c' ∧ c'.state = .done

section Accepted

variable {c : Check} {rest : List Entry} (acc : Accepted c rest)
include acc

theorem Accepted.cons (more : c.state ≠ .done) :
    ∃ pa rest' d, rest = pa :: rest' ∧ checkEntry c pa = some d ∧ Accepted d rest' := by
  obtain ⟨c', run, done⟩ := acc
  cases rest with
  | nil =>
    cases run
    exact absurd done more
  | cons pa rest =>
    rw [checkEntries] at run
    split at run
    · cases run
    · exact ⟨pa, rest, _, rfl, ‹_›, c', run, done⟩

theorem Accepted.done (state : c.state = .done) : rest = [] := by
  obtain ⟨c', run, -⟩ := acc
  cases rest with
  | nil => rfl
  | cons pa rest =>
    rw [checkEntries] at run
    split at run
    · cases run
    · have := checkEntry_cases ‹_›
      simp [state] at this

theorem Accepted.other (state : c.state = .other) : ∃ pa, rest = [pa] ∧ pa.tag = .other := by
  obtain ⟨pa, rest, d, rfl, step, acc⟩ := acc.cons (by simp [state])
  have := checkEntry_cases step
  simp only [state, reduceCtorEq, false_and, and_false, false_or, or_false, true_and] at this
  obtain ⟨tag, rfl⟩ := this
  obtain rfl := acc.done rfl
  exact ⟨pa, rfl, tag⟩

end Accepted

variable {rest : List Entry}

theorem Accepted.group {c : Check} (acc : Accepted c rest) (state : c.state = .group) :
    ∃ (groups : List Entry) (mask : Option Entry) (other : Entry),
      rest = groups ++ mask.toList ++ [other] ∧ (∀ pa ∈ groups, pa.tag = .group) ∧
      (∀ m ∈ mask, m.tag = .mask) ∧ (c.needsMask = true ∨ groups ≠ [] → mask ≠ none) ∧ other.tag = .other := by
  induction rest generalizing c with
  | nil =>
    obtain ⟨_, _, _, ⟨⟩, -⟩ := acc.cons (by simp [state])
  | cons pa rest ih =>
    obtain ⟨_, _, d, ⟨⟩, step, acc⟩ := acc.cons (by simp [state])
    have := checkEntry_cases step
    simp only [state, reduceCtorEq, false_and, and_false, false_or, true_and] at this
    rcases this with ⟨tag, rfl⟩ | ⟨tag, rfl⟩ | ⟨tag, free, rfl⟩
    · obtain ⟨groups, mask, other, rfl, groups_tag, mask_tag, needs, other_tag⟩ :=
        ih acc rfl
      exact ⟨pa :: groups, mask, other, rfl, forall_mem_cons.mpr ⟨tag, groups_tag⟩, mask_tag,
        fun _ => needs (.inl rfl), other_tag⟩
    · obtain ⟨other, rfl, other_tag⟩ := acc.other rfl
      refine ⟨[], some pa, other, rfl, nofun, ?_, nofun, other_tag⟩
      rintro m ⟨⟩
      exact tag
    · obtain rfl := acc.done rfl
      refine ⟨[], none, pa, rfl, nofun, nofun, ?_, tag⟩
      rintro (needs | nonempty)
      · rw [free] at needs
        cases needs
      · exact absurd rfl nonempty

theorem Accepted.user {c : Check} (acc : Accepted c rest) (state : c.state = .user) :
    ∃ (users : List Entry) (group : Entry) (d : Check) (rest' : List Entry),
      rest = users ++ group :: rest' ∧ (∀ pa ∈ users, pa.tag = .user) ∧
      (∀ pa ∈ users, c.id ≤ pa.id) ∧ (users.Pairwise fun pa pb => pa.id ≠ pb.id) ∧
      group.tag = .groupObj ∧ Accepted d rest' ∧ d.state = .group ∧
      (c.needsMask = true ∨ users ≠ [] → d.needsMask = true) := by
  induction rest generalizing c with
  | nil =>
    obtain ⟨_, _, _, ⟨⟩, -⟩ := acc.cons (by simp [state])
  | cons pa rest ih =>
    obtain ⟨_, _, d, ⟨⟩, step, acc⟩ := acc.cons (by simp [state])
    have := checkEntry_cases step
    simp only [state, reduceCtorEq, false_and, and_false, false_or, or_false, true_and] at this
    rcases this with ⟨tag, defined, ge, rfl⟩ | ⟨tag, rfl⟩
    · obtain ⟨users, group, d, rest', rfl, users_tag, ids, distinct, rest_facts⟩ :=
        ih acc rfl
      obtain ⟨group_tag, acc', state', needs⟩ := rest_facts
      -- the next id does not wrap around, as `ACL_UNDEFINED_ID` is refused
      have later : ∀ e ∈ users, pa.id < e.id := by
        intro e mem
        have le : pa.id + 1 ≤ e.id := ids e mem
        unfold aclUndefinedId at defined
        bv_omega
      refine ⟨pa :: users, group, d, rest', rfl, forall_mem_cons.mpr ⟨tag, users_tag⟩,
        forall_mem_cons.mpr ⟨ge, fun e mem => ?_⟩, ?_, group_tag, acc', state', fun _ => needs (.inl rfl)⟩
      · exact BitVec.le_trans ge (BitVec.le_of_lt (later e mem))
      · exact pairwise_cons.mpr ⟨fun e mem => BitVec.ne_of_lt (later e mem), distinct⟩
    · refine ⟨[], pa, _, rest, rfl, nofun, nofun, .nil, tag, acc, rfl, ?_⟩
      rintro (needs | nonempty)
      · exact needs
      · exact absurd rfl nonempty

theorem posixAclValid_iff {acl : List Entry} : posixAclValid acl = .ok ↔ Accepted ⟨.userObj, 0, false⟩ acl := by
  unfold posixAclValid Accepted
  cases checkEntries ⟨.userObj, 0, false⟩ acl <;> simp

theorem form_of_valid {acl : List Entry} (valid : posixAclValid acl = .ok) : ∃ form : Form, acl = form.entries := by
  obtain ⟨owner, rest, d, rfl, step, acc⟩ := (posixAclValid_iff.mp valid).cons nofun
  have := checkEntry_cases step
  simp only [reduceCtorEq, false_and, and_false, or_false, true_and] at this
  obtain ⟨owner_tag, rfl⟩ := this
  obtain ⟨users, group, d, rest', rfl, users_tag, -, distinct, group_tag, acc', state', needs⟩ := acc.user rfl
  obtain ⟨groups, mask, other, rfl, groups_tag, mask_tag, needs', other_tag⟩ := acc'.group state'
  refine ⟨⟨owner, users, group, groups, mask, other, owner_tag, users_tag, distinct, group_tag,
    groups_tag, mask_tag, ?_, other_tag⟩, by simp [Form.entries, Form.groupPart]⟩
  rintro (named | named)
  · exact needs' (.inl (needs (.inr named)))
  · exact needs' (.inr named)

theorem covers_iff {perm : Perm} {want : BitVec 32} : covers perm want = true ↔ Allows perm want := by
  rw [covers, decide_eq_true_iff]
  constructor
  · intro eq i hi
    rw [← eq, BitVec.getLsbD_and, Bool.and_eq_true, BitVec.getLsbD_setWidth, Bool.and_eq_true] at hi
    exact hi.1.2
  · intro sub
    apply BitVec.eq_of_getLsbD_eq
    intro i lt
    rw [BitVec.getLsbD_and]
    cases wanted : want.getLsbD i with
    | false => rw [Bool.and_false]
    | true => simp [lt, sub i wanted]

theorem checkPerm_ok {pa : Entry} {want : BitVec 32} : checkPerm pa want = .ok ↔ Allows pa.perm want := by
  rw [← covers_iff, checkPerm]
  cases covers pa.perm want <;> simp

theorem checkPerm_ne_eio {pa : Entry} {want : BitVec 32} : checkPerm pa want ≠ .eio := by
  rw [checkPerm]
  split <;> nofun

theorem and_and_eq_iff {a b w : BitVec 32} : a &&& b &&& w = w ↔ a &&& w = w ∧ b &&& w = w := by
  constructor
  · intro eq
    have ha : a &&& (a &&& b &&& w) = a &&& (b &&& w) := by ac_rfl
    have hb : b &&& (a &&& b &&& w) = a &&& (b &&& w) := by ac_rfl
    rw [eq, ← BitVec.and_assoc, eq] at ha hb
    exact ⟨ha, hb⟩
  · rintro ⟨ha, hb⟩
    rw [BitVec.and_assoc, hb, ha]

variable {form : Form}

theorem checkMask_skip {pa : Entry} {want : BitVec 32} {before : List Entry} (skip : ∀ e ∈ before, e.tag ≠ .mask) :
    checkMask pa want (before ++ rest) = checkMask pa want rest := by
  induction before with
  | nil => rfl
  | cons e before ih =>
    rw [cons_append, checkMask, if_neg (skip e mem_cons_self)]
    exact ih fun e mem => skip e (mem_cons_of_mem _ mem)

theorem checkMask_form {pa : Entry} {want : BitVec 32} : checkMask pa want (form.mask.toList ++ [form.other]) ≠ .eio ∧
      (checkMask pa want (form.mask.toList ++ [form.other]) = .ok ↔
        Allows pa.perm want ∧ ∀ m ∈ form.mask, Allows m.perm want) := by
  cases found : form.mask with
  | none =>
    have tag : form.other.tag ≠ .mask := by
      rw [form.other_tag]
      nofun
    have run : checkMask pa want [form.other] = checkPerm pa want := by
      rw [checkMask, if_neg tag, checkMask]
    have allowed := @checkPerm_ok pa want
    rw [← run] at allowed
    exact ⟨run ▸ checkPerm_ne_eio, by simpa using allowed⟩
  | some m =>
    have run : checkMask pa want ((some m).toList ++ [form.other]) =
        if pa.perm.setWidth 32 &&& m.perm.setWidth 32 &&& want = want then .ok else .eacces := by
      rw [Option.toList_some, singleton_append, checkMask, if_pos (form.mask_tag m found)]
    have both : pa.perm.setWidth 32 &&& m.perm.setWidth 32 &&& want = want ↔
        Allows pa.perm want ∧ Allows m.perm want := by
      rw [and_and_eq_iff, ← covers_iff, ← covers_iff, covers, covers, decide_eq_true_iff,
        decide_eq_true_iff]
    rw [run]
    constructor
    · split <;> nofun
    · simp [both]

section Permission

variable {inode : Inode} {current : Caller} {want : BitVec 32}

theorem permissionFrom_users {found : Bool} {users : List Entry} (tags : ∀ pa ∈ users, pa.tag = .user) :
    (∃ pa ∈ users, pa.id = current.fsuid ∧
      permissionFrom inode current want found (users ++ rest) = checkMask pa want rest) ∨
    (∀ pa ∈ users, pa.id ≠ current.fsuid) ∧ permissionFrom inode current want found (users ++ rest) =
        permissionFrom inode current want found rest := by
  induction users with
  | nil => exact .inr ⟨nofun, rfl⟩
  | cons pa users ih =>
    obtain ⟨tag, tags⟩ := forall_mem_cons.mp tags
    rw [cons_append, permissionFrom, tag]
    by_cases me : pa.id = current.fsuid
    · have skip : ∀ e ∈ users, e.tag ≠ .mask := fun e mem => by simp [tags e mem]
      exact .inl ⟨pa, mem_cons_self, me, (if_pos me).trans (checkMask_skip skip)⟩
    dsimp only
    rw [if_neg me]
    rcases ih tags with ⟨e, mem, is, run⟩ | ⟨none_is, run⟩
    · exact .inl ⟨e, mem_cons_of_mem _ mem, is, run⟩
    · exact .inr ⟨forall_mem_cons.mpr ⟨me, none_is⟩, run⟩

theorem permissionFrom_group (found : Bool) {pa : Entry} (rest : List Entry)
    (tag : pa.tag = .groupObj ∨ pa.tag = .group) : (NamesGroup inode current pa ∧ Allows pa.perm want ∧
      permissionFrom inode current want found (pa :: rest) = checkMask pa want rest) ∨
    (NamesGroup inode current pa → ¬ Allows pa.perm want) ∧
      ∃ found', (found' = true ↔ found = true ∨ NamesGroup inode current pa) ∧
        permissionFrom inode current want found (pa :: rest) = permissionFrom inode current want found' rest := by
  rw [← covers_iff, permissionFrom]
  rcases tag with tag | tag
  · cases member : current.inGroupP inode.gid <;> cases all : covers pa.perm want <;>
      simp [NamesGroup, tag, member]
  · cases member : current.inGroupP pa.id <;> cases all : covers pa.perm want <;>
      simp [NamesGroup, tag, member]

/-- The entries of the groups: the first one of the caller that allows what is wanted decides, with
the mask, and otherwise one of the caller is remembered. -/
theorem permissionFrom_groups {found : Bool} {groups : List Entry}
    (tags : ∀ pa ∈ groups, pa.tag = .groupObj ∨ pa.tag = .group) :
    (∃ pa ∈ groups, NamesGroup inode current pa ∧ Allows pa.perm want ∧
      permissionFrom inode current want found (groups ++ rest) = checkMask pa want rest) ∨
    (∀ pa ∈ groups, NamesGroup inode current pa → ¬ Allows pa.perm want) ∧
      ∃ found', (found' = true ↔ found = true ∨ ∃ pa ∈ groups, NamesGroup inode current pa) ∧
        permissionFrom inode current want found (groups ++ rest) = permissionFrom inode current want found' rest := by
  induction groups generalizing found with
  | nil => exact .inr ⟨nofun, found, by simp, rfl⟩
  | cons pa groups ih =>
    obtain ⟨tag, tags⟩ := forall_mem_cons.mp tags
    rw [cons_append]
    rcases permissionFrom_group found (groups ++ rest) tag with ⟨names, allows, run⟩ | ⟨refuses, found', iff, run⟩
    · have skip : ∀ e ∈ groups, e.tag ≠ .mask := fun e mem => by rcases tags e mem with h | h <;> simp [h]
      exact .inl ⟨pa, mem_cons_self, names, allows, run.trans (checkMask_skip skip)⟩
    rw [run]
    rcases @ih found' tags with ⟨e, mem, is, allows, run'⟩ | ⟨none_allows, found'', iff', run'⟩
    · exact .inl ⟨e, mem_cons_of_mem _ mem, is, allows, run'⟩
    · exact .inr ⟨forall_mem_cons.mpr ⟨refuses, none_allows⟩, found'', by simp [iff', iff, or_assoc], run'⟩

theorem Form.mem_of_tag {e : Entry} (mem : e ∈ form.entries) :
    match e.tag with
    | .userObj => e = form.owner
    | .user => e ∈ form.users
    | .groupObj => e = form.group
    | .group => e ∈ form.groups
    | .mask => e ∈ form.mask
    | .other => e = form.other
    | .invalid _ => False := by
  simp only [entries, groupPart, mem_append, mem_cons, cons_append, Option.mem_toList,
    not_mem_nil, or_false] at mem
  rcases mem with rfl | mem | rfl | (mem | mem) | rfl
  · rw [form.owner_tag]
  · rw [form.users_tag e mem]
    exact mem
  · rw [form.group_tag]
  · rw [form.groups_tag e mem]
    exact mem
  · rw [form.mask_tag e mem]
    exact mem
  · rw [form.other_tag]

theorem Form.mem_users {e : Entry} :
    e ∈ form.entries ∧ NamesUser current e ↔ e ∈ form.users ∧ e.id = current.fsuid := by
  constructor
  · rintro ⟨mem, tag, id⟩
    have := Form.mem_of_tag mem
    rw [tag] at this
    exact ⟨this, id⟩
  · rintro ⟨mem, id⟩
    exact ⟨by simp [entries, mem], form.users_tag e mem, id⟩

theorem Form.mem_groups {e : Entry} : e ∈ form.entries ∧ NamesGroup inode current e ↔
      e ∈ form.group :: form.groups ∧ NamesGroup inode current e := by
  constructor
  · rintro ⟨mem, names⟩
    refine ⟨?_, names⟩
    have := Form.mem_of_tag mem
    rcases names with ⟨tag, -⟩ | ⟨tag, -⟩
    · rw [tag] at this
      exact mem_cons.mpr (.inl this)
    · rw [tag] at this
      exact mem_cons_of_mem _ this
  · rintro ⟨mem, names⟩
    rcases mem_cons.mp mem with rfl | mem
    · exact ⟨by simp [entries, groupPart], names⟩
    · exact ⟨by simp [entries, groupPart, mem], names⟩

theorem Form.allowsMasked {pa : Entry} : AllowsMasked form.entries want pa ↔
    Allows pa.perm want ∧ ∀ m ∈ form.mask, Allows m.perm want := by
  refine and_congr_right fun _ => ⟨fun all m mem => ?_, fun all m mem tag => ?_⟩
  · refine all m ?_ (form.mask_tag m mem)
    have : m ∈ form.mask.toList := Option.mem_toList.mpr mem
    simp [entries, groupPart, this]
  · have := Form.mem_of_tag mem
    rw [tag] at this
    exact all m this

/-- After the groups comes the mask, which is passed over, and the entry of all others. -/
theorem permissionFrom_other (found : Bool) :
    permissionFrom inode current want found (form.mask.toList ++ [form.other]) =
      if found then .eacces else checkPerm form.other want := by
  have last : permissionFrom inode current want found [form.other] =
      if found then .eacces else checkPerm form.other want := by
    rw [permissionFrom, form.other_tag]
  cases mask : form.mask with
  | none => exact last
  | some m =>
    rw [← last, Option.toList_some, singleton_append, permissionFrom, form.mask_tag m mask]

theorem Form.granted_owner (owns : inode.uid = current.fsuid) :
    Granted inode current form.entries want ↔ Allows form.owner.perm want := by
  constructor
  · rintro (⟨-, mem, tag, allows⟩ | ⟨no⟩ | ⟨no⟩ | ⟨no⟩)
    · have := Form.mem_of_tag mem
      rw [tag] at this
      exact this ▸ allows
    all_goals exact absurd owns no
  · exact .owner owns (by simp [Form.entries]) form.owner_tag

theorem Form.granted_user {pa : Entry} (owns : inode.uid ≠ current.fsuid) (here : pa ∈ form.users)
    (me : pa.id = current.fsuid) : Granted inode current form.entries want ↔ AllowsMasked form.entries want pa := by
  obtain ⟨mem, names⟩ := Form.mem_users.mpr ⟨here, me⟩
  constructor
  · intro granted
    cases granted with
    | owner is => exact absurd is owns
    | @user _ e mem' names' allows =>
      obtain ⟨mem', me'⟩ := Form.mem_users.mp ⟨mem', names'⟩
      -- there is only one entry of the caller
      have same : e = pa := by
        by_contra ne
        have : Std.Symm fun pa pb : Entry => pa.id ≠ pb.id := ⟨fun _ _ => Ne.symm⟩
        exact form.users_ids.forall mem' here ne (me'.trans me.symm)
      exact same ▸ allows
    | group _ none_named | other _ none_named => exact absurd names (none_named pa mem)
  · exact .user owns mem names

section Unnamed

variable {form : Form} (owns : inode.uid ≠ current.fsuid) (unnamed : ∀ e ∈ form.entries, ¬ NamesUser current e)

include owns unnamed

theorem granted_unnamed : Granted inode current form.entries want ↔
    (∃ pa ∈ form.entries, NamesGroup inode current pa ∧ AllowsMasked form.entries want pa) ∨
      (∀ pa ∈ form.entries, ¬ NamesGroup inode current pa) ∧ Allows form.other.perm want := by
  constructor
  · intro granted
    cases granted with
    | owner is => exact absurd is owns
    | user _ mem names => exact absurd names (unnamed _ mem)
    | group _ _ mem names masked => exact .inl ⟨_, mem, names, masked⟩
    | other _ _ ungrouped mem tag allows =>
      have := Form.mem_of_tag mem
      rw [tag] at this
      exact .inr ⟨ungrouped, this ▸ allows⟩
  · rintro (⟨pa, mem, names, masked⟩ | ⟨ungrouped, allows⟩)
    · exact .group owns unnamed mem names masked
    · exact .other owns unnamed ungrouped (by simp [Form.entries, Form.groupPart]) form.other_tag allows

theorem Form.granted_group {pa : Entry} (here : pa ∈ form.group :: form.groups)
    (names : NamesGroup inode current pa) :
    Granted inode current form.entries want ↔ ∃ pa ∈ form.group :: form.groups,
      NamesGroup inode current pa ∧ AllowsMasked form.entries want pa := by
  obtain ⟨mem, -⟩ := Form.mem_groups.mpr ⟨here, names⟩
  have grouped : ¬ ∀ pa ∈ form.entries, ¬ NamesGroup inode current pa := fun none => none pa mem names
  rw [granted_unnamed owns unnamed, or_iff_left fun h => grouped h.1]
  simp only [← and_assoc, Form.mem_groups]

end Unnamed

def Decides (inode : Inode) (current : Caller) (want : BitVec 32) (form : Form) (ret : Ret) : Prop :=
  ret ≠ .eio ∧ (ret = .ok ↔ Granted inode current form.entries want)

theorem Form.groupTags (form : Form) : ∀ e ∈ form.group :: form.groups, e.tag = .groupObj ∨ e.tag = .group :=
  forall_mem_cons.mpr ⟨.inl form.group_tag, fun e mem => .inr (form.groups_tag e mem)⟩

theorem Form.groupPart_eq (form : Form) :
    form.groupPart = (form.group :: form.groups) ++ (form.mask.toList ++ [form.other]) := by
  simp [groupPart]

theorem permissionFrom_decides (owns : inode.uid ≠ current.fsuid)
    (unnamed : ∀ e ∈ form.entries, ¬ NamesUser current e) :
    Decides inode current want form (permissionFrom inode current want false form.groupPart) := by
  rw [form.groupPart_eq]
  rcases permissionFrom_groups form.groupTags with ⟨pa, here, names, allows, run⟩ | ⟨refused, found, iff, run⟩
  · -- a group of the caller that allows what is wanted, up to the mask
    obtain ⟨total, decides⟩ := @checkMask_form form pa want
    rw [run, Decides, decides, Form.granted_group owns unnamed here names]
    simp only [Form.allowsMasked]
    refine ⟨total, fun masked => ⟨pa, here, names, masked⟩, ?_⟩
    rintro ⟨_, -, -, -, masked⟩
    exact ⟨allows, masked⟩
  rw [run, permissionFrom_other]
  cases found with
  | true =>
    -- groups of the caller, none of which allows what is wanted
    obtain ⟨pa, here, names⟩ : ∃ pa ∈ form.group :: form.groups, NamesGroup inode current pa := by
      simpa using iff
    rw [Decides, Form.granted_group owns unnamed here names]
    refine ⟨nofun, nofun, ?_⟩
    rintro ⟨e, mem, names, masked⟩
    exact absurd masked.1 (refused e mem names)
  | false =>
    have ungrouped : ∀ e ∈ form.entries, ¬ NamesGroup inode current e := by
      intro e mem names
      obtain ⟨here, -⟩ := Form.mem_groups.mp ⟨mem, names⟩
      exact absurd (iff.mpr (.inr ⟨e, here, names⟩)) (by decide)
    have allowed : Granted inode current form.entries want ↔ Allows form.other.perm want := by
      rw [granted_unnamed owns unnamed, or_iff_right, and_iff_right ungrouped]
      rintro ⟨e, mem, names, -⟩
      exact ungrouped e mem names
    exact ⟨checkPerm_ne_eio, checkPerm_ok.trans allowed.symm⟩

theorem checkMask_decides {pa : Entry} (owns : inode.uid ≠ current.fsuid) (here : pa ∈ form.users)
    (me : pa.id = current.fsuid) : Decides inode current want form (checkMask pa want form.groupPart) := by
  have skip : ∀ e ∈ form.group :: form.groups, e.tag ≠ .mask := by
    intro e mem
    rcases form.groupTags e mem with tag | tag <;> simp [tag]
  obtain ⟨total, decides⟩ := @checkMask_form form pa want
  rw [form.groupPart_eq, checkMask_skip skip, Decides, decides, Form.granted_user owns here me, Form.allowsMasked]
  exact ⟨total, .rfl⟩

theorem posixAclPermission_decides :
    Decides inode current want form (posixAclPermission inode current form.entries want) := by
  have first : posixAclPermission inode current form.entries want =
      if inode.uid = current.fsuid then checkPerm form.owner want
      else permissionFrom inode current want false (form.users ++ form.groupPart) := by
    rw [posixAclPermission, Form.entries, cons_append, permissionFrom, form.owner_tag]
  rw [first]
  by_cases owns : inode.uid = current.fsuid
  · rw [if_pos owns, Decides, Form.granted_owner owns]
    exact ⟨checkPerm_ne_eio, checkPerm_ok⟩
  rw [if_neg owns]
  rcases permissionFrom_users form.users_tag with ⟨pa, here, me, run⟩ | ⟨noUser, run⟩
  · rw [run]
    exact checkMask_decides owns here me
  rw [run]
  apply permissionFrom_decides owns
  intro e mem names
  obtain ⟨mem, me⟩ := Form.mem_users.mp ⟨mem, names⟩
  exact noUser e mem me

/-- On a list that `posix_acl_valid` accepts, `posix_acl_permission` decides the access check of
POSIX 1003.1e, and never takes the list for a broken one. -/
theorem posix_acl_permission_correct {acl : List Entry} (valid : posixAclValid acl = .ok) :
    posixAclPermission inode current acl want ≠ .eio ∧
      (posixAclPermission inode current acl want = .ok ↔ Granted inode current acl want) := by
  obtain ⟨form, rfl⟩ := form_of_valid valid
  exact posixAclPermission_decides

end Permission

/-- A list with a named user, a mask and the caller in the owning group. -/
theorem posix_acl_permission_correct_named :
    posixAclValid [⟨.userObj, 7, 0⟩, ⟨.user, 7, 1000⟩, ⟨.groupObj, 5, 0⟩, ⟨.mask, 4, 0⟩, ⟨.other, 0, 0⟩] = .ok ∧
      Granted ⟨0, 0⟩ ⟨1000, fun _ => true⟩ [⟨.userObj, 7, 0⟩, ⟨.user, 7, 1000⟩, ⟨.groupObj, 5, 0⟩,
        ⟨.mask, 4, 0⟩, ⟨.other, 0, 0⟩] 4 := by
  have valid : posixAclValid [⟨.userObj, 7, 0⟩, ⟨.user, 7, 1000⟩, ⟨.groupObj, 5, 0⟩, ⟨.mask, 4, 0⟩,
    ⟨.other, 0, 0⟩] = .ok := by decide
  exact ⟨valid, (posix_acl_permission_correct valid).2.mp (by decide)⟩

end PosixAcl
