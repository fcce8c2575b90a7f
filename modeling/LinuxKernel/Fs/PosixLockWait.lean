/- Waiters and addresses: a lock that a request changes is kept with a range at least as large, or its
waiters are woken. -/
import LinuxKernel.Fs.PosixLockPass

namespace PosixLock

open List

variable {ω : Type}

/-- A lock under its old address, owner and type, with a range at least as large. -/
structure Wider (fl fl' : FileLock ω) : Prop where
  id : fl'.id = fl.id
  owner : fl'.owner = fl.owner
  type : fl'.type = fl.type
  start : fl'.start ≤ fl.start
  stop : fl.stop ≤ fl'.stop

theorem Wider.refl (fl : FileLock ω) : Wider fl fl := ⟨rfl, rfl, rfl, Int.le_refl _, Int.le_refl _⟩

theorem Wider.trans {a b c : FileLock ω} (h₁ : Wider a b) (h₂ : Wider b c) : Wider a c :=
  ⟨h₂.id.trans h₁.id, h₂.owner.trans h₁.owner, h₂.type.trans h₁.type, Int.le_trans h₂.start h₁.start,
    Int.le_trans h₁.stop h₂.stop⟩

/-- Every lock is still there, or its waiters were woken. -/
def Keeps (woken : List Nat) (old new : List (FileLock ω)) : Prop :=
  ∀ fl ∈ old, fl.id ∈ woken ∨ ∃ fl' ∈ new, Wider fl fl'

section Keeps

variable {woken woken' : List Nat} {a b c : List (FileLock ω)}

theorem Keeps.trans (h₁ : Keeps woken a b) (h₂ : Keeps woken' b c) : Keeps (woken ++ woken') a c := by
  intro fl hfl
  rcases h₁ fl hfl with h | ⟨fl', hfl', wider⟩
  · exact .inl (mem_append_left _ h)
  · rcases h₂ fl' hfl' with h | ⟨fl'', hfl'', wider'⟩
    · exact .inl (mem_append_right _ (wider.id ▸ h))
    · exact .inr ⟨fl'', hfl'', wider.trans wider'⟩

theorem keeps_append (h₁ : Keeps woken a b) (c : List (FileLock ω)) : Keeps woken (a ++ c) (b ++ c) := by
  intro fl hfl
  rcases mem_append.mp hfl with h | h
  · rcases h₁ fl h with h | ⟨fl', hfl', wider⟩
    · exact .inl h
    · exact .inr ⟨fl', mem_append_left _ hfl', wider⟩
  · exact .inr ⟨fl, mem_append_right _ h, .refl fl⟩

variable {f : FileLock ω → FileLock ω}

theorem keeps_modify {id : Nat} : Keeps [id] a (modify id f a) := by
  intro fl hfl
  by_cases here : fl.id = id
  · exact .inl (by simp [here])
  · exact .inr ⟨fl, mem_map.mpr ⟨fl, hfl, if_neg here⟩, .refl fl⟩

theorem keeps_widen {id : Nat} (wider : ∀ fl ∈ a, fl.id = id → Wider fl (f fl)) : Keeps [] a (modify id f a) := by
  intro fl hfl
  by_cases here : fl.id = id
  · exact .inr ⟨f fl, mem_map.mpr ⟨fl, hfl, if_pos here⟩, wider fl hfl here⟩
  · exact .inr ⟨fl, mem_map.mpr ⟨fl, hfl, if_neg here⟩, .refl fl⟩

end Keeps

/-- What holds between two locks of the pass, for the locks `old` it started with. -/
structure Tracks (old : List (FileLock ω)) (s : Pass ω) (rest : List (FileLock ω)) : Prop where
  nodup : (ids (s.before ++ rest)).Nodup
  sub : ids (s.before ++ rest) ⊆ ids old
  keeps : Keeps s.woken old (s.before ++ rest)
  request : ∀ fl ∈ s.before, fl.id = s.request.id → fl = s.request
  ahead : s.request.id ∉ ids rest

section Tracks

variable {old rest : List (FileLock ω)} {s : Pass ω} {fl : FileLock ω}

theorem Tracks.flags (tracks : Tracks old s rest) (added : Bool) (left right : Option Nat) :
    Tracks old { s with added, left, right } rest :=
  ⟨tracks.nodup, tracks.sub, tracks.keeps, tracks.request, tracks.ahead⟩

section

variable (tracks : Tracks old s (fl :: rest))
include tracks

theorem Tracks.fl_notMem : fl.id ∉ ids s.before ∧ fl.id ∉ ids rest := by
  have nodup := tracks.nodup
  simp only [ids_append, ids_cons, nodup_append, nodup_cons] at nodup
  exact ⟨fun h => nodup.2.2 fl.id h fl.id (by simp) rfl, nodup.2.1.1⟩

theorem Tracks.put {fl' : FileLock ω} (id : fl'.id = fl.id)
    (woken : List Nat) (kept : fl.id ∈ woken ∨ Wider fl fl') {request : FileLock ω}
    (from_s : request = s.request ∨ request = fl') :
    Tracks old { s with before := s.before ++ [fl'], request, woken := s.woken ++ woken } rest := by
  have same : ids (s.before ++ [fl'] ++ rest) = ids (s.before ++ fl :: rest) := by simp [id]
  obtain ⟨notBefore, notRest⟩ := tracks.fl_notMem
  have ahead := tracks.ahead
  simp only [ids_cons, mem_cons, not_or] at ahead
  refine ⟨same ▸ tracks.nodup, same ▸ tracks.sub, ?_, fun k hk eq => ?_, ?_⟩
  · refine tracks.keeps.trans fun k hk => ?_
    rcases mem_append.mp hk with h | h
    · exact .inr ⟨k, by simp [h], .refl k⟩
    · rcases mem_cons.mp h with rfl | h
      · exact kept.imp_right fun wider => ⟨fl', by simp, wider⟩
      · exact .inr ⟨k, by simp [h], .refl k⟩
  · simp only at eq ⊢
    rcases mem_append.mp hk with h | h
    · rcases from_s with rfl | rfl
      · exact tracks.request k h eq
      · exact absurd (id ▸ eq ▸ mem_map_of_mem h) notBefore
    · obtain rfl := mem_singleton.mp h
      rcases from_s with rfl | rfl
      · exact absurd (eq.symm.trans id) ahead.1
      · rfl
  · rcases from_s with rfl | rfl
    · exact ahead.2
    · exact id ▸ notRest

theorem Tracks.pass {fl' : FileLock ω} (wider : Wider fl fl')
    {request : FileLock ω} (from_s : request = s.request ∨ request = fl') :
    Tracks old { s with before := s.before ++ [fl'], request } rest := by
  simpa using tracks.put wider.id [] (.inr wider) from_s

theorem Tracks.delete :
    Tracks old { s with woken := s.woken ++ [fl.id] } rest := by
  have sub : (s.before ++ rest).Sublist (s.before ++ fl :: rest) :=
    List.Sublist.append_left (sublist_cons_self fl rest) _
  have ahead := tracks.ahead
  simp only [ids_cons, mem_cons, not_or] at ahead
  refine ⟨tracks.nodup.sublist (sub.map _), fun i hi => tracks.sub ((sub.map _).subset hi), ?_,
    tracks.request, ahead.2⟩
  refine tracks.keeps.trans fun k hk => ?_
  rcases mem_append.mp hk with h | h
  · exact .inr ⟨k, by simp [h], .refl k⟩
  · rcases mem_cons.mp h with rfl | h
    · exact .inl (by simp)
    · exact .inr ⟨k, by simp [h], .refl k⟩

end

theorem Tracks.widen (tracks : Tracks old s rest) {q : FileLock ω} (wider : Wider s.request q) :
    Tracks old { s with before := modify s.request.id (fun _ => q) s.before, request := q } rest := by
  have same : ids (modify s.request.id (fun _ => q) s.before ++ rest) = ids (s.before ++ rest) := by
    rw [ids_append, ids_append]
    congr 1
    unfold ids modify
    rw [map_map]
    refine map_congr_left fun fl _ => ?_
    simp only [Function.comp_apply]
    split_ifs with here
    · exact wider.id.trans here.symm
    · rfl
  refine ⟨same ▸ tracks.nodup, same ▸ tracks.sub, ?_, fun k hk eq => ?_, wider.id ▸ tracks.ahead⟩
  · have step : Keeps [] s.before (modify s.request.id (fun _ => q) s.before) :=
      keeps_widen fun fl hfl here => tracks.request fl hfl here ▸ wider
    simpa using tracks.keeps.trans (keeps_append step rest)
  · obtain ⟨fl, hfl, rfl⟩ := mem_map.mp hk
    by_cases here : fl.id = s.request.id
    · rw [if_pos here]
    · rw [if_neg here] at eq
      exact absurd (eq.trans wider.id) here

variable [DecidableEq ω]

theorem processLocks_tracks (tracks : Tracks old s rest) :
    Tracks old (processLocks s rest).1 (processLocks s rest).2 := by
  fun_induction processLocks s rest with
  | case1 s | case2 s fl rest request other => exact tracks
  | case3 s fl rest request own type before ih => exact ih (tracks.pass (.refl fl) (.inl rfl))
  | case4 s fl rest request own type before far => exact tracks
  | case5 s fl rest request own type before far start stop request' added ih =>
    have wider : Wider s.request request' := ⟨rfl, rfl, rfl, by grind, by grind⟩
    exact ih (tracks.delete.widen wider)
  | case6 s fl rest request own type before far start stop fl' new ih =>
    have wider : Wider fl fl' := ⟨rfl, rfl, rfl, by grind, by grind⟩
    exact ih ((tracks.pass wider (.inr rfl)).flags true s.left s.right)
  | case7 s fl rest request own type before ih => exact ih (tracks.pass (.refl fl) (.inl rfl))
  | case8 s fl rest request own type before far => exact tracks
  | case9 s fl rest request own type before far added left longer => exact tracks.flags _ _ _
  | case10 s fl rest request own type before far added left longer low h ih =>
    exact ih (tracks.delete.flags _ _ _)
  | case11 s fl rest request own type before far added left longer low new fl' ih =>
    have id : fl'.id = fl.id := rfl
    exact ih ((tracks.put id [fl.id] (.inl (by simp)) (.inr rfl)).flags true left s.right)
  | case12 s fl rest request own type before far added left longer low ih =>
    exact ih ((tracks.pass (.refl fl) (.inl rfl)).flags _ _ _)

end Tracks

/-- The locks of an inode after the locks `old`, with new ones at given addresses. -/
structure Traced (old : List (FileLock ω)) (new woken : List Nat) (locks : List (FileLock ω)) : Prop where
  keeps : Keeps woken old locks
  nodup : (ids locks).Nodup
  sub : ∀ i ∈ ids locks, i ∈ ids old ∨ i ∈ new

section Finish

variable {old locks rest : List (FileLock ω)} {new woken : List Nat} {s : Pass ω} {q : FileLock ω}
  {left right newFl newFl2 : Option Nat} {exist : Bool}

theorem Traced.modify (traced : Traced old new woken locks) (f : FileLock ω → FileLock ω)
    (keep : ∀ fl, (f fl).id = fl.id) (id : Option Nat) :
    Traced old new (woken ++ id.toList) (id.elim locks fun i => modify i f locks) := by
  cases id with
  | none => simpa using traced
  | some i =>
    have same : ids (PosixLock.modify i f locks) = ids locks := ids_modify keep
    exact ⟨traced.keeps.trans keeps_modify, same ▸ traced.nodup, same ▸ traced.sub⟩

theorem trim_traced (traced : Traced old new woken locks) :
    Traced old new (trim q left right woken locks).woken (trim q left right woken locks).locks := by
  have cut := traced.modify (fun fl => { fl with start := loff (q.stop + 1) }) (fun _ => rfl) right
  exact cut.modify (fun fl => { fl with stop := loff (q.start - 1) }) (fun _ => rfl) left

theorem Traced.insert (traced : Traced old new woken (locks ++ rest)) {fl : FileLock ω} {id : Nat}
    (here : fl.id = id) (fresh : id ∉ ids (locks ++ rest)) : Traced old (id :: new) woken (locks ++ fl :: rest) := by
  have perm : (ids (locks ++ fl :: rest)).Perm (id :: ids (locks ++ rest)) := by
    simp [here]
  refine ⟨fun k hk => ?_, perm.nodup_iff.mpr (nodup_cons.mpr ⟨fresh, traced.nodup⟩), fun i hi => ?_⟩
  · rcases traced.keeps k hk with h | ⟨k', hk', wider⟩
    · exact .inl h
    · refine .inr ⟨k', ?_, wider⟩
      simp only [mem_append, mem_cons] at hk' ⊢
      tauto
  · rcases mem_cons.mp (perm.subset hi) with rfl | h
    · exact .inr (by simp)
    · exact (traced.sub i h).imp_right fun h => by simp [h]

theorem Traced.more (traced : Traced old new woken locks) (i : Nat) : Traced old (i :: new) woken locks :=
  ⟨traced.keeps, traced.nodup, fun j hj => (traced.sub j hj).imp_right fun h => by simp [h]⟩

theorem splitAndTrim_traced (traced : Traced old new s.woken (s.before ++ rest))
    (fresh : ∀ id, newFl2 = some id → id ∉ ids (s.before ++ rest)) :
    Traced old (newFl2.toList ++ new) (splitAndTrim newFl2 s rest).woken (splitAndTrim newFl2 s rest).locks := by
  unfold splitAndTrim
  cases newFl2 with
  | none =>
    cases s.right <;> exact trim_traced traced
  | some id =>
    cases s.right with
    | none => exact trim_traced (traced.more id)
    | some r =>
      simp only
      split_ifs with whole
      · cases found : rest.find? fun fl => fl.id = r with
        | none => simpa using trim_traced (traced.more id)
        | some fl =>
          have inserted : Traced old (id :: new) s.woken (s.before ++ { fl with id } :: rest) :=
            traced.insert rfl (fresh id rfl)
          simpa using trim_traced inserted
      · exact trim_traced (traced.more id)

theorem finish_traced (traced : Traced old [] s.woken (s.before ++ rest)) (fresh : Fresh newFl newFl2 old) :
    Traced old (newFl2.toList ++ newFl.toList) (finish exist newFl newFl2 (s, rest)).woken
      (finish exist newFl newFl2 (s, rest)).locks := by
  have weak : ∀ new, Traced old new s.woken (s.before ++ rest) := fun new =>
    ⟨traced.keeps, traced.nodup, fun i hi => (traced.sub i hi).imp_right (by simp)⟩
  have absent : ∀ id, id ∉ ids old → id ∉ ids (s.before ++ rest) := fun id h hid =>
    (traced.sub id hid).elim h (by simp)
  unfold finish
  simp only
  split_ifs with whole added unlck
  · exact weak _
  · exact splitAndTrim_traced (weak _) fun id h => absent id (fresh.second id h)
  · exact weak _
  · exact weak _
  cases hnew : newFl with
  | none => exact weak _
  | some id =>
    have inserted : Traced old [id] s.woken (s.before ++ { s.request with id } :: rest) :=
      traced.insert rfl (absent id (fresh.first id hnew))
    refine splitAndTrim_traced inserted fun id2 h2 hmem => ?_
    have : id2 = id ∨ id2 ∈ ids (s.before ++ rest) := by
      simp at hmem ⊢
      tauto
    rcases this with rfl | h
    · exact fresh.distinct _ hnew h2
    · exact absent id2 (fresh.second id2 h2) h

variable [DecidableEq ω]

theorem setLock_traced {r : Request ω} (nodup : (ids locks).Nodup) (request : r.lock.id ∉ ids locks)
    (fresh : Fresh newFl newFl2 locks) :
    Traced locks (newFl2.toList ++ newFl.toList) (setLock r newFl newFl2 locks).woken
      (setLock r newFl newFl2 locks).locks := by
  set others := fun fl : FileLock ω => decide (fl.owner ≠ r.lock.owner)
  have all : locks.takeWhile others ++ locks.dropWhile others = locks := takeWhile_append_dropWhile
  have start : Tracks locks ⟨locks.takeWhile others, r.lock, false, none, none, []⟩
      (locks.dropWhile others) := by
    refine ⟨by rwa [all], by rw [all]; exact List.Subset.refl _, ?_, fun fl hfl eq => ?_, ?_⟩
    · rw [all]
      exact fun fl hfl => .inr ⟨fl, hfl, .refl fl⟩
    · exact absurd (eq ▸ mem_map_of_mem ((takeWhile_sublist _).subset hfl)) request
    · exact fun h => request (((dropWhile_sublist _).map _).subset h)
  have tracks := processLocks_tracks start
  exact finish_traced ⟨tracks.keeps, tracks.nodup, fun i hi => .inl (tracks.sub hi)⟩ fresh

end Finish

end PosixLock
