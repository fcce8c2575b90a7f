/- A failed merge of vmas: what anon_vma_clone leaves behind in vma_adjust and vma_merge of mm/mmap.c. -/
import LinuxKernel.Mm.VmaList

namespace VmaList

variable {c : Config} {clone : Nat → Bool} {mm mm' : Mm} {prev : Option Word} {q : Request} {n start fin : Nat}
  {vma a x : Word} {pgoff : Word} {e : Errno} {p r : List Word}

variable {cloned : Bool}

theorem importAnon_eq_none (h : importAnon cloned mm a vma = none) :
    (mm.vma a).anonVma ≠ 0 ∧ (mm.vma vma).anonVma = 0 := by
  unfold importAnon at h
  split_ifs at h with need
  exact need

theorem importAnon_eq_some (h : importAnon cloned mm a vma = some mm') :
    mm'.mmap = mm.mmap ∧ (∀ y, y ≠ vma → mm'.vma y = mm.vma y) ∧
      ((mm'.vma vma).anonVma = 0 → (mm.vma vma).anonVma = 0 ∧ (mm.vma a).anonVma = 0) := by
  unfold importAnon at h
  split_ifs at h with need
  · obtain rfl := Option.some.inj h
    refine ⟨rfl, fun y hy => Function.update_of_ne hy _ _, fun zero => absurd ?_ need.1⟩
    simpa [Mm.set] using zero
  · obtain rfl := Option.some.inj h
    exact ⟨rfl, fun _ _ => rfl, fun zero => ⟨zero, by_contra fun ne => need ⟨ne, zero⟩⟩⟩

/-- The second vma behind has an `anon_vma` to hand on, and the ones before it have none. -/
structure Stranded (mm : Mm) (vma a x : Word) : Prop where
  first : vmNext mm vma = some a
  second : vmNext mm a = some x
  none_vma : (mm.vma vma).anonVma = 0
  none_first : (mm.vma a).anonVma = 0
  some_second : (mm.vma x).anonVma ≠ 0

theorem again_last {k : Nat} (low : fin ≤ (mm.vma x).vmEnd)
    (run : again clone vma start pgoff n k mm x fin = some (mm', some e)) :
    (mm.vma x).anonVma ≠ 0 ∧ (mm.vma vma).anonVma = 0 := by
  cases n with
  | zero => cases run
  | succ n =>
    rw [again] at run
    cases clone_ : importAnon (clone k) mm x vma with
    | none => exact importAnon_eq_none clone_
    | some mm₁ => simp [clone_, Nat.not_lt.mpr low] at run

variable (mm') in
/-- Once `a` is unlinked, the vma behind it stands behind the one before it. -/
theorem vmNext_unlinkVma (wf : WellFormed c mm) (next : vmNext mm vma = some a) (list : mm'.mmap = mm.mmap) :
    vmNext (unlinkVma mm' a) vma = vmNext mm a := by
  obtain ⟨p, r, split⟩ := exists_of_following next
  have nodup := wf.nodup
  have split' : p ++ vma :: a :: r = (p ++ [vma]) ++ a :: r := by simp
  rw [split] at nodup
  have erased : (p ++ vma :: a :: r).erase a = p ++ vma :: r := by
    rw [split', List.erase_append_right _ ?_, List.erase_cons_head, List.append_assoc, List.singleton_append]
    rw [split'] at nodup
    exact fun mem => (List.nodup_append.mp nodup).2.2 a mem a List.mem_cons_self rfl
  have left := following_append (erased ▸ nodup.erase a)
  rw [vmNext, vmNext, unlinkVma, list, split, erased, left, split', following_append (split' ▸ nodup)]

theorem Stranded.ne (wf : WellFormed c mm) (s : Stranded mm vma a x) : x ≠ vma := by
  rintro rfl
  have := wf.next_le s.first
  have := wf.next_le s.second
  omega

/-- Only the second turn can fail with vmas changed: the first one fails before it does anything. -/
theorem again_error (wf : WellFormed c mm) (next : vmNext mm vma = some a)
    (run : again clone vma start pgoff n 0 mm a fin = some (mm', some e)) :
    mm' = mm ∨ (mm.vma a).vmEnd < fin ∧ ∃ x, Stranded mm vma a x := by
  cases n with
  | zero => cases run
  | succ n =>
    rw [again] at run
    cases first : importAnon (clone 0) mm a vma with
    | none =>
      simp only [first, Option.some.injEq, Prod.mk.injEq] at run
      exact .inl run.1.symm
    | some mm₁ =>
      obtain ⟨list, others, anon⟩ := importAnon_eq_some first
      simp only [first] at run
      split_ifs at run with more
      · -- `a` is unlinked, and the second turn works on what stood behind it
        obtain ⟨x, next', run⟩ := Option.bind_eq_some_iff.mp run
        have second : vmNext mm a = some x := (vmNext_unlinkVma _ wf next (by exact list)).symm.trans next'
        have ne : x ≠ vma := by
          rintro rfl
          have := wf.next_le next
          have := wf.next_le second
          omega
        have last := again_last ?_ run
        · have zero := anon (by simpa [unlinkVma, setRange, Mm.set] using last.2)
          refine .inr ⟨more, x, next, second, zero.1, zero.2, ?_⟩
          simpa [unlinkVma, setRange, Mm.set, ne, others x ne] using last.1
        · have := wf.next_le second
          simp only [unlinkVma, setRange, Mm.set, Function.update_of_ne ne, others x ne]
          omega
      · simp at run

variable (start pgoff) in
/-- It does so if no memory is left for the second clone. -/
theorem again_stranded (wf : WellFormed c mm) (s : Stranded mm vma a x) (low : (mm.vma a).vmEnd < fin) :
    ∃ mm', again (fun _ => false) vma start pgoff 2 0 mm a fin = some (mm', some .ENOMEM) ∧ mm' ≠ mm := by
  have next := (vmNext_unlinkVma (setRange mm vma start (mm.vma a).vmEnd pgoff) wf s.first rfl).trans s.second
  refine ⟨unlinkVma (setRange mm vma start (mm.vma a).vmEnd pgoff) a, ?_, fun same => ?_⟩
  · have first : importAnon false mm a vma = some mm := if_neg fun need => need.1 s.none_first
    have second : importAnon false (unlinkVma (setRange mm vma start (mm.vma a).vmEnd pgoff) a) x vma = none := by
      refine if_pos ⟨?_, ?_⟩
      · simpa [unlinkVma, setRange, Mm.set, s.ne wf] using s.some_second
      · simpa [unlinkVma, setRange, Mm.set] using s.none_vma
    simp only [again, first, low, if_true, next, Option.bind_some, second]
  · obtain ⟨p, r, split⟩ := exists_of_following s.first
    have count := congrArg Mm.mapCount same
    have length := wf.count
    rw [split, List.length_append, List.length_cons, List.length_cons] at length
    change mm.mapCount - 1 = mm.mapCount at count
    omega

theorem shift_error {next exporter importer : Word} {adjustNext : Int}
    (run : shift c cloned mm vma next start fin pgoff adjustNext exporter importer = (mm', some e)) : mm' = mm := by
  unfold shift at run
  split at run
  · exact (Prod.mk.inj run).1.symm
  · cases (Prod.mk.inj run).2

theorem vmaAdjust_error (wf : WellFormed c mm)
    (run : vmaAdjust c clone n mm vma start fin pgoff none = some (mm', some e)) :
    mm' = mm ∨ ∃ a x, (mm.vma a).vmEnd < fin ∧ Stranded mm vma a x := by
  unfold vmaAdjust at run
  cases next : vmNext mm vma with
  | none => simp [next] at run
  | some a =>
    simp only [next] at run
    split_ifs at run
    · rcases again_error wf next run with same | ⟨below, x, stranded⟩
      · exact .inl same
      · exact .inr ⟨a, x, below, stranded⟩
    · exact .inl (shift_error (Option.some.inj run))
    · exact .inl (shift_error (Option.some.inj run))
    · simp at run

/-- The calls that `vma_merge` makes: on `prev` up to the end of the request or of the next vma, on `prev` down to
the request, or on the vma behind `prev` up to the end of the next one. -/
theorem mergeCall_cases {call : Call} (h : mergeCall c mm prev q = some call) :
    (q.vmFlags &&& vmSpecial = 0 ∧ mergesAfter c mm q prev = some call.vma ∧ (call.fin = q.fin ∨
        ∃ x, mergesBefore c mm q (nextBehind mm prev q.fin) = some x ∧ call.fin = (mm.vma x).vmEnd)) ∨
      call.fin < (mm.vma call.vma).vmEnd ∨
      areaBehind mm prev = some call.vma ∧ ∃ x, nextBehind mm prev q.fin = some x ∧ call.fin = (mm.vma x).vmEnd := by
  unfold mergeCall at h
  split_ifs at h with special
  simp only at h
  split at h
  next p x hp hx =>
    obtain rfl := Option.some.inj h
    refine .inl ⟨not_not.mp special, hp, ?_⟩
    split_ifs
    · exact .inr ⟨x, hx, rfl⟩
    · exact .inl rfl
  next p hp _ =>
    obtain rfl := Option.some.inj h
    exact .inl ⟨not_not.mp special, hp, .inl rfl⟩
  next x hp hx =>
    split at h
    next p area hp =>
      obtain rfl := Option.some.inj h
      exact .inr (.inl (of_decide_eq_true (Option.filter_eq_some_iff.mp hp).2))
    next area _ harea =>
      obtain rfl := Option.some.inj h
      exact .inr (.inr ⟨harea, x, (Option.filter_eq_some_iff.mp hx).1, rfl⟩)
    next => cases h
  next => cases h

/-- The request is merged behind `prev` and covers the next vma, and the one behind that is merged as well or lies in
the request; only the last of the three has an `anon_vma`. -/
structure SwallowsTwo (c : Config) (mm : Mm) (q : Request) (p a x : Word) : Prop extends Stranded mm p a x where
  plain : q.vmFlags &&& vmSpecial = 0
  after : mergesAfter c mm q (some p) = some p
  covers : (mm.vma a).vmEnd ≤ q.fin
  before : (mm.vma a).vmEnd = q.fin → mergesBefore c mm q (some x) = some x

theorem SwallowsTwo.mergeCall (s : SwallowsTwo c mm q vma a x) (wf : WellFormed c mm) :
    ∃ fin, mergeCall c mm (some vma) q = some ⟨vma, (mm.vma vma).vmStart, fin, (mm.vma vma).vmPgoff, some vma⟩ ∧
      (mm.vma a).vmEnd < fin := by
  have area : areaBehind mm (some vma) = some a := s.first
  have := wf.next_le s.second
  rw [VmaList.mergeCall, if_neg (not_not.mpr s.plain), nextBehind, area, Option.bind_some, s.after]
  by_cases covers : (mm.vma a).vmEnd = q.fin
  · simp only [if_pos covers, s.second, s.before covers, isMergeableAnonVma, s.none_vma]
    exact ⟨_, rfl, by simp; omega⟩
  · have apart : mergesBefore c mm q (some a) = none := by
      refine Option.filter_eq_none_iff.mpr fun y hy => ?_
      obtain rfl := Option.some.inj hy
      have := wf.next_le s.first
      have := s.covers
      simp only [Bool.and_eq_true, beq_iff_eq, not_and]
      omega
    simp only [if_neg covers, apart]
    exact ⟨_, rfl, Nat.lt_of_le_of_ne s.covers covers⟩

/-- A merge that fails for want of memory leaves everything as it was, at whichever clone, if and only if it does not
swallow two vmas of which the second has the only `anon_vma`. -/
theorem vma_merge_error_iff (wf : WellFormed c mm) :
    (∀ clone n call mm' e, mergeCall c mm prev q = some call →
      vmaAdjust c clone n mm call.vma call.start call.fin call.pgoff none = some (mm', some e) →
      vmaMerge c clone n mm prev q = some (mm', none) ∧ mm' = mm) ↔
    ∀ p a x, prev = some p → ¬SwallowsTwo c mm q p a x := by
  constructor
  · rintro kept p a x rfl s
    obtain ⟨fin, hc, low⟩ := s.mergeCall wf
    obtain ⟨mm', run, ne⟩ := again_stranded (mm.vma p).vmStart (mm.vma p).vmPgoff wf s.toStranded low
    refine ne (kept (fun _ => false) 2 _ mm' .ENOMEM hc ?_).2
    simp only [vmaAdjust, s.first, Nat.le_of_lt low, if_true, run]
  · intro apart clone n call mm' e hc err
    refine ⟨by rw [vmaMerge, hc]; simp only [err]; rfl, (vmaAdjust_error wf err).resolve_right ?_⟩
    rintro ⟨a, x, low, stranded⟩
    have first := wf.next_le stranded.first
    rcases mergeCall_cases hc with ⟨plain, after, fin⟩ | below | ⟨area, y, next, fin⟩
    · have eq := (Option.filter_eq_some_iff.mp after).1
      rw [eq] at after fin
      have area : areaBehind mm (some call.vma) = some a := stranded.first
      rw [nextBehind, area, Option.bind_some] at fin
      refine apart _ a x eq ⟨stranded, plain, after, ?_, fun covers => ?_⟩
      · rcases fin with fin | ⟨y, before, fin⟩
        · omega
        split_ifs at before with covers
        · exact Nat.le_of_eq covers
        · obtain rfl := Option.some.inj (Option.filter_eq_some_iff.mp before).1
          omega
      · rcases fin with fin | ⟨y, before, -⟩
        · omega
        · rw [if_pos covers, stranded.second] at before
          obtain rfl := Option.some.inj (Option.filter_eq_some_iff.mp before).1
          exact before
    · omega
    · rw [nextBehind, area, Option.bind_some] at next
      split_ifs at next
      · obtain rfl := Option.some.inj (stranded.first.symm.trans next)
        omega
      · obtain rfl := Option.some.inj next
        omega

/-- Three pages in three vmas; the middle one has other flags, and `anon_vma` is given for the second and third. -/
def threePages (second third : Word) : Mm where
  vma x :=
    if x = 1 then ⟨0, 4096, 0, 1, 0, 0, 0, false, none⟩
    else if x = 2 then ⟨4096, 8192, 1, 3, 0, second, 0, false, none⟩
    else ⟨8192, 12288, 2, 1, 0, third, 0, false, none⟩
  mmap := [1, 2, 3]
  mapCount := 3
  totalVm := 3
  lockedVm := 0

theorem threePages_wellFormed (second third : Word) : WellFormed ⟨12, 65536, 100⟩ (threePages second third) := by
  have list : areas (threePages second third) = [⟨0, 4096, 0, 1, 0, 0, 0, false, none⟩,
      ⟨4096, 8192, 1, 3, 0, second, 0, false, none⟩, ⟨8192, 12288, 2, 1, 0, third, 0, false, none⟩] := rfl
  refine ⟨by simp [threePages], ?_, rfl, ?_⟩
  · rw [list]
    exact ⟨by simp, by simp, by simp⟩
  · rw [list]
    simp only [pageSum, List.map_cons, threePages]
    decide

def sameFlags (anonVma : Word) : Request := ⟨4096, 8192, 1, anonVma, 0, 1, 0⟩

theorem vma_merge_error_iff_first :
    vmaMerge ⟨12, 65536, 100⟩ (fun _ => false) 3 (threePages 5 5) (some 1) (sameFlags 5) =
      some (threePages 5 5, none) := by
  have err : vmaAdjust ⟨12, 65536, 100⟩ (fun _ => false) 3 (threePages 5 5) 1 0 12288 0 none =
      some (threePages 5 5, some .ENOMEM) := rfl
  have hc : mergeCall ⟨12, 65536, 100⟩ (threePages 5 5) (some 1) (sameFlags 5) = some ⟨1, 0, 12288, 0, some 1⟩ := rfl
  refine ((vma_merge_error_iff (threePages_wellFormed 5 5)).mpr ?_ _ _ _ _ _ hc err).1
  rintro _ a x ⟨⟩ s
  obtain rfl : 2 = a := Option.some.inj s.first
  exact absurd s.none_first (by decide)

/-- If only the third vma has an `anon_vma`, the middle one is gone when `anon_vma_clone` fails. -/
theorem vma_merge_loses : WellFormed ⟨12, 65536, 100⟩ (threePages 0 5) ∧
    ∃ mm', vmaMerge ⟨12, 65536, 100⟩ (fun _ => false) 3 (threePages 0 5) (some 1) (sameFlags 0) = some (mm', none) ∧
      mm'.mmap = [1, 3] ∧ mm'.mapCount = 2 ∧ (mm'.vma 1).vmEnd = 8192 :=
  ⟨threePages_wellFormed 0 5, _, rfl, rfl, rfl, rfl⟩

end VmaList
