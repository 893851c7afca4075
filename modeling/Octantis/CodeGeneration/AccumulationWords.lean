import Octantis.CodeGeneration.ElementWords

/-!
# The words of the accumulations

An accumulation set is reduced to one row by pairs, level by level. With no reuse of earlier
sums every row of the set is added once, so that the component adds the words of the set.

## What is proved

* `performAccBinding_plain`: the levels of an accumulation with no reuse add every row of the set;
* `values_of_holdsValues`: the words of the component are values of the rows that the accumulation adds;
* `words_of_accumulations`: the component printed leaves in the row of an accumulation the sum of the
  words of its set.

## Honest scope

With the target `Accumulation` the pairs of earlier accumulations are reused, and an accumulation may
fail or add other rows; nothing is said of it here.
-/

namespace Octantis

open Std Lib PrintVhdlFile

variable {α : Type} {A : LiMArray} {F : FiniteStateMachine} {L : RowLogic α} {words Mem : ℕ → α}
  {par : ℤ} {optTarget : String} {actions : List BindingAction} {s s' : BinderState}
  {b b' bEnd : LiMBinder} {operation : Operation} {specifications : List String} {destReg : Reg}
  {row : Name}

namespace LiMBinder

/-! ### The levels -/

/-- **An accumulation with no reuse** is a run of pairs, and the row it records has the sum of the
set, whatever the values are and whatever is bound afterwards. -/
theorem performAccBinding_plain (hb : b.WellFormed) (hop : operation ≠ .load) (specifications : List String)
    (destReg : Reg) {l : List Name} (hopt : b.optTarget ≠ "Accumulation") (hlen : 2 ≤ l.length)
    (hl : ∀ m ∈ l, b.Timed m) :
    ∃ b' row pairs, run (pairStep operation specifications) b pairs = some b' ∧
      b.performAccBinding l operation specifications destReg = some (b'.addNewItem destReg row) ∧
      ∀ {M : Type} [AddCommMonoid M] (v : Name → M) (bEnd : LiMBinder), b'.Extends bEnd →
        Values b bEnd v → v row = (l.map v).sum := by
  have hperm := reorganize_perm l.length l
  obtain ⟨hzero, hlater⟩ := accumulationLists_of_ne (b := b) (l := l) hopt
  obtain ⟨k, hk⟩ : ∃ k, ceilLog2 l.length = k + 1 := by
    refine Nat.exists_eq_succ_of_ne_zero ?_
    rw [ceilLog2, if_neg (by omega)]
    omega
  have hlists : ∀ j l', (reorganize l.length l :: List.replicate k [])[j]? = some l' →
      (b.accumulationLists l)[0 + j]? = some l' := by
    intro j l' hj
    rw [Nat.zero_add]
    cases j with
    | zero => exact hzero.trans hj
    | succ j =>
      rw [List.getElem?_cons_succ, List.getElem?_replicate] at hj
      split at hj
      · obtain rfl := Option.some.inj hj
        exact hlater (j + 1) (by omega) (by omega)
      · cases hj
  have hjoin : ∀ l' ∈ reorganize l.length l :: List.replicate k [], ∀ m ∈ l', b.Timed m := by
    intro l' hl' m hm
    rcases List.mem_cons.mp hl' with rfl | hl'
    · exact hl m (hperm.mem_iff.mp hm)
    · rw [List.eq_of_mem_replicate hl'] at hm
      cases hm
  obtain ⟨b', last, pairs, hbound, heq⟩ := bindLevels_bound hop specifications destReg
    (b.accumulationLists l) (reorganize l.length l :: List.replicate k []) 0 b [] hb (by simp) hlists hjoin
  have hvalues : ∀ {M : Type} [AddCommMonoid M] (v : Name → M) (bEnd : LiMBinder), b'.Extends bEnd →
      Values b bEnd v → last.map v = [(l.map v).sum] := by
    intro M _ v bEnd hEnd hv
    have hlevels := hbound.values v b bEnd (.refl _) hEnd hv
    rw [List.map_cons, List.map_replicate, List.map_nil] at hlevels
    rw [hlevels.eq_singleton (by rw [List.length_map, hperm.length_eq]; exact hlen)
      (by rw [List.length_map, hperm.length_eq, ← ceilLog2_eq_clog, hk]), (hperm.map v).sum_eq]
  -- one row is left, whatever the values are
  obtain ⟨row, rfl⟩ : ∃ row, last = [row] := by
    have hone := hvalues (fun _ => (0 : ℕ)) b' (.refl _) ⟨by simp, by simp⟩
    exact List.length_eq_one_iff.mp (by simpa using congrArg List.length hone)
  refine ⟨b', row, pairs, hbound.pairs_run, ?_, fun v bEnd hEnd hv => ?_⟩
  · rw [performAccBinding, if_neg (by rintro rfl; simp at hlen), hk]
    rw [List.length_cons, List.length_replicate] at heq
    exact heq
  · have hone := hvalues v bEnd hEnd hv
    rw [List.map_singleton, List.singleton_inj] at hone
    exact hone

/-- The rows of a set that is bound are rows of the array. -/
theorem findRow_of_performAccBinding {l : List Name} (hopt : b.optTarget ≠ "Accumulation") (hlen : 2 ≤ l.length)
    (h : b.performAccBinding l operation specifications destReg = some b') :
    ∀ m ∈ l, (b.MemArray.findRow m).isSome := by
  obtain ⟨k, hk⟩ : ∃ k, ceilLog2 l.length = k + 1 := by
    refine Nat.exists_eq_succ_of_ne_zero ?_
    rw [ceilLog2, if_neg (by omega)]
    omega
  rw [performAccBinding, if_neg (by rintro rfl; simp at hlen), hk, bindLevels,
    (accumulationLists_of_ne hopt).1, Option.bind_eq_bind, Option.bind_some] at h
  obtain ⟨rows, hrows, -⟩ := Option.bind_eq_some_iff.mp h
  intro m hm
  apply (orderRows_eq_some hrows).2
  exact (mergeRows_perm [] _).mem_iff.mpr ((reorganize_perm l.length l).mem_iff.mpr hm)

/-! ### The rows that the pairs add -/

/-- The rows that the second state has and the first does not are fed by rows of the operation. -/
def FeedsOnly (operation : Operation) (b b' : LiMBinder) : Prop :=
  ∀ n r x, b.MemArray.findRow n = none → b'.FedBy n r x → b'.feedingType n = some operation

/-- The rows that the pairs of an accumulation add are fed by rows of its operation. -/
theorem feedsOnly_pairs {pairs : List (Name × Name)} (hb : b.WellFormed) (hshape : b.InShape)
    (hop : operation ≠ .load) (h : run (pairStep operation specifications) b pairs = some b') :
    FeedsOnly operation b b' := by
  refine (run_invariant (P := fun b' => b'.WellFormed ∧ b'.InShape ∧ FeedsOnly operation b b')
    (Q := fun _ => True) ⟨hb, hshape, ?_⟩ ?_ (fun _ _ => trivial) h).2.2
  · intro n r x hnone hfed
    have hsome := hfed.isSome
    rw [hnone] at hsome
    cases hsome
  · rintro b₁ pair b₂ - ⟨hb₁, hshape₁, hfeeds⟩ hstep
    have hshape₂ := inShape_pairs [pair] hb₁ hshape₁ hop (by rw [run_cons, hstep]; rfl)
    obtain ⟨⟨b₂, tmpName⟩, hpair, rfl⟩ := Option.map_eq_some_iff.mp hstep
    obtain ⟨hb₂, he, -⟩ := wellFormed_bindPair hb₁ hop hpair
    obtain ⟨w, row, other, base, t, -, -, hreal, -⟩ := bindPair_realizes hb₁.freshZero hb₁.freshNext hpair
    refine ⟨hb₂, hshape₂, fun n r x hnone hfed => ?_⟩
    obtain ⟨nRow, hnRow⟩ := Option.isSome_iff_exists.mp hfed.isSome
    rcases hreal.rows_of_findRow hnRow with hold | rfl | ⟨rfl, rfl⟩
    · exact he.feedingType hop (hfeeds n r x hnone (hfed.of_extends hshape₁ he hold))
    · exact hreal.feedingType rfl
    · -- the copy row is no result row
      cases hreal.site with
      | copy => exact absurd ⟨_, hreal.findRow_row, rfl, rfl⟩ hfed.not_copyOf

end LiMBinder

/-- The optimisation target is the one the binder was made with. -/
theorem optTarget_of_reaches (ha : ∀ a ∈ actions, a.noShift) (h : Reaches par optTarget actions s) :
    s.binder.optTarget = optTarget := by
  refine (run_invariant (P := fun s => s.WellFormed ∧ s.binder.optTarget = optTarget)
    (Q := BindingAction.noShift) ⟨BinderState.wellFormed_init par optTarget, rfl⟩ ?_ ha h).2
  rintro s a s' hshift ⟨hs, hopt⟩ hstep
  refine ⟨(wellFormed_bindStep hs hstep).1, ?_⟩
  cases a with
  | load destReg ti =>
    obtain ⟨-, rfl⟩ := bindStep_load hs hstep
    exact hopt
  | enter constants =>
    obtain ⟨-, hstep⟩ := Option.ite_none_right_eq_some.mp hstep
    cases hstep
    exact hopt
  | leave =>
    obtain ⟨-, hstep⟩ := Option.ite_none_right_eq_some.mp hstep
    cases hstep
    exact hopt
  | accumulate operation specifications destReg accumulationList =>
    obtain ⟨hop, hb, b', hb', rfl⟩ := bindStep_accumulate hs hstep
    obtain ⟨pairs, b₁, row, hrun, -, rfl⟩ := LiMBinder.performAccBinding_run hb hop hb'
    exact (LiMBinder.frame_pairs hb hop hrun).2.2.trans hopt
  | element operation specifications destReg src1 src2 junk =>
    obtain ⟨-, dest, b', hdest, hn, hle, -, hb', rfl⟩ := bindStep_element hs hstep
    rcases LiMBinder.performBinding_cases hb' with
      ⟨_, -, -, rfl⟩ | ⟨_, _, -, -, -, rfl⟩ | ⟨-, hisShift, -⟩ | ⟨-, -, hmap⟩
    · rw [LiMBinder.addNewItemInRefPos_eq]
      exact hopt
    · exact hopt
    · cases hisShift.symm.trans hshift
    · obtain ⟨w, row, other, base, t, -, -, hrest⟩ :=
        LiMBinder.mapOperation_realizes (b := s.binder.addNewItem destReg dest) (hn.fresh (Nat.le_refl _))
          (hn.fresh (show dest ≤ s.binder.zeroAddr by lia)) (show dest ≠ s.binder.zeroAddr by lia) hmap
      rw [hrest]
      exact hopt

/-- The words of the component are values of the rows that an accumulation adds. -/
theorem values_of_holdsValues [Add α] (h : HoldsValues bEnd.MemArray F L words Mem)
    (hadd : ∀ x y, L.op .add x y = x + y) (hsize : bEnd.MemArray.AtMostTwo) (he : b'.Extends bEnd)
    (hfeeds : LiMBinder.FeedsOnly .add b b') : Values b b' fun n => Mem (memIndex n) where
  result n r x hnone hfed := by
    have htype := he.feedingType (by decide) (hfeeds n r x hnone hfed)
    obtain ⟨row, rRow, hrow, hOLiM, hr, hrRow, hx⟩ := hfed.mono he
    have hlogic := (LiMRow.Extends.refl rRow).logicInputs_eq (hsize r rRow hrRow) (List.mem_of_head? hx)
    rw [LiMBinder.feedingType, hrow, Option.bind_eq_bind, Option.bind_some, hr, Option.bind_eq_bind,
      Option.bind_some, hrRow] at htype
    have htype : rRow.rowType = .add := Option.some.inj htype
    have hword := h.computed n row r rRow x hrow hOLiM hr hrRow hlogic
    rw [htype, hadd] at hword
    exact hword
  copy n m hnone hcopy := by
    obtain ⟨row, hrow, hOC, hm⟩ := hcopy.mono he
    exact h.copied n row m hrow hOC hm

/-! ### The words -/

/-- What the component leaves in its memory: the words of the rows loaded, and in the row that every
accumulation of the run records the sum of the words of its set. -/
structure AccumulationWords [AddCommMonoid α] (tr : List (Transition BinderState BindingAction)) (A : LiMArray)
    (F : FiniteStateMachine) (words Mem : ℕ → α) : Prop where
  loaded : ∀ n row, A.findRow n = some row → F.getTime n = some 0 → Mem (memIndex n) = words (memIndex n)
  accumulations : ∀ step ∈ tr, ∀ specifications destReg accumulationList,
    step.act = .accumulate .add specifications destReg accumulationList → 2 ≤ accumulationList.length →
      ∃ row, step.post.binder.rowsOf destReg = step.pre.binder.rowsOf destReg ++ [row] ∧
        Mem (memIndex row) = (accumulationList.map fun n => Mem (memIndex n)).sum

/-- **The words of the accumulations.** With another target than `Accumulation`, the component that
is printed leaves in the row of every accumulation of additions the sum of the words of its set,
duplicates included, in every memory that holds the rows and whatever the words loaded are. -/
theorem words_of_accumulations [AddCommMonoid α]
    (hallowed : ∀ a ∈ actions, a.allowed (· = 0) Operation.IsRowLogic) (h : Reaches par optTarget actions s)
    (hopt : optTarget ≠ "Accumulation")
    (hsound : ∀ step ∈ history par optTarget actions, step.BoundSoundly (history par optTarget actions))
    (hsize : s.binder.MemArray.AtMostTwo) (hwritten : 2 ≤ s.binder.FSMLim.transform.getFSMSize)
    (hadd : ∀ x y, L.op .add x y = x + y) :
    ∃ V, printArchitecture s.binder.MemArray PrintVhdlFile.par s.binder.FSMLim.transform = some V ∧
      ∀ m, (∀ n row, s.binder.MemArray.findRow n = some row → memIndex n < m) →
        ∀ words cycles, 2 * s.binder.FSMLim.transform.getFSMSize - 2 ≤ cycles →
          ∃ c, V.simulate L m words cycles = some c ∧
            AccumulationWords (history par optTarget actions) s.binder.MemArray s.binder.FSMLim words c.Mem := by
  have hplain := plainArray_of_reaches hallowed h hsize
  have hin := operandsInTime_of_reaches hallowed h hsound hsize
  have hkept := (destinations_of_reaches h).kept
  obtain ⟨V, hV⟩ := hplain.exists_printArchitecture PrintVhdlFile.par
  refine ⟨V, hV, fun m hm words cycles hcycles => ?_⟩
  obtain ⟨c, hsim, hvalues⟩ := hplain.exists_simulate hwritten hin hV hm L words hcycles
  refine ⟨c, hsim, hvalues.loaded, fun step hstep specifications destReg accumulationList hact hlen => ?_⟩
  obtain ⟨before, hbefore, hreach, hone⟩ := exists_run_of_mem_transitions hstep
  have hallowed' : ∀ a ∈ before, a.allowed (· = 0) Operation.IsRowLogic :=
    fun a ha => hallowed a (hbefore.subset ha)
  have hshape := inShape_of_reaches (fun a ha => noShift_of_allowed (hallowed' a ha)) hreach
  rw [hact] at hone
  obtain ⟨hop, hb, b', hb', hpost⟩ := bindStep_accumulate (wellFormed_of_reaches hreach) hone
  have hplainTarget : step.pre.binder.optTarget ≠ "Accumulation" := by
    rw [optTarget_of_reaches (fun a ha => noShift_of_allowed (hallowed' a ha)) hreach]
    exact hopt
  have htimed : ∀ m ∈ accumulationList, step.pre.binder.Timed m := by
    intro m hm
    have hrow := LiMBinder.findRow_of_performAccBinding hplainTarget hlen hb' m hm
    exact ⟨hrow, (hshape.regular.timed m).mp hrow⟩
  obtain ⟨b₁, row, pairs, hrun, hperform, hsum⟩ := LiMBinder.performAccBinding_plain hb hop specifications
    destReg hplainTarget hlen htimed
  rw [hb', Option.some.injEq] at hperform
  subst hperform
  rw [hpost]
  have hextends : b₁.Extends s.binder := by
    have := hkept step hstep
    rw [hpost] at this
    exact (LiMBinder.addNewItem_extends b₁ destReg row).trans this
  refine ⟨row, ?_, ?_⟩
  · show (b₁.addNewItem destReg row).rowsOf destReg = _
    rw [LiMBinder.rowsOf_addNewItem, if_pos rfl, LiMBinder.rowsOf, (LiMBinder.frame_pairs hb hop hrun).1]
    rfl
  · exact hsum (fun n => c.Mem (memIndex n)) b₁ (.refl _) (values_of_holdsValues hvalues hadd hsize hextends
      (LiMBinder.feedsOnly_pairs hb hshape hop hrun))

/-- Three rows are loaded and added, one of them twice. -/
def accumulatedLoads : List BindingAction := threeLoads ++ [.accumulate .add ["accumulation"] 2 [0, 4, 8, 4]]

theorem accumulatedLoads_isSome : (run bindStep (.init 8 "") accumulatedLoads).isSome := by decide +kernel

/-- The component printed for them, on words of 8 bits. -/
theorem words_of_accumulations_accumulatedLoads :
    ∃ s V, Reaches 8 "" accumulatedLoads s ∧
      printArchitecture s.binder.MemArray 8 s.binder.FSMLim.transform = some V ∧
      ∀ words : ℕ → BitVec 8, ∃ c, V.simulate (wordLogic 8) 7 words 6 = some c ∧
        AccumulationWords (history 8 "" accumulatedLoads) s.binder.MemArray s.binder.FSMLim words c.Mem := by
  have hrows : ∀ entry ∈ ((run bindStep (.init 8 "") accumulatedLoads).get
      accumulatedLoads_isSome).binder.MemArray.limArray.toList, entry.2.inputConnections.length ≤ 2 ∧
        memIndex entry.1 < 7 := by decide +kernel
  have hmaps : ∀ step ∈ history 8 "" accumulatedLoads,
      step.act.MapsPlainly step.pre.binder := by decide +kernel
  have hrow : ∀ n row, ((run bindStep (.init 8 "") accumulatedLoads).get
      accumulatedLoads_isSome).binder.MemArray.findRow n = some row → (n, row) ∈
        ((run bindStep (.init 8 "") accumulatedLoads).get
          accumulatedLoads_isSome).binder.MemArray.limArray.toList :=
    fun n row h => ExtTreeMap.mem_toList_iff_getElem?_eq_some.mpr h
  obtain ⟨V, hV, hsim⟩ := words_of_accumulations (L := wordLogic 8) (by decide)
    (Option.some_get accumulatedLoads_isSome).symm (by decide)
    (fun step hstep => Transition.boundSoundly_of_mapsPlainly (hmaps step hstep) _) (fun n row h => (hrows _ (hrow n row h)).1)
    (by decide +kernel) (fun _ _ => rfl)
  exact ⟨_, V, (Option.some_get accumulatedLoads_isSome).symm, hV,
    fun words => hsim 7 (fun n row h => (hrows _ (hrow n row h)).2) words 6 (by decide +kernel)⟩

end Octantis
