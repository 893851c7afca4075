import Octantis.Binding.AccumulationReuse
import Octantis.Binding.WithoutShifts

/-!
# The names of the rows

The binder inserts its rows with `map::insert`, which does nothing when the name is taken. The name
of an element is reserved before it is bound, copy rows and partial sums take the next ones in the
meantime, and `adjustName` hands a name back when a result is reused.

## The model

`InsertsFresh` goes through the insertions of a step in the order of the code: the row of a
load, the copy row of a mapping, its result row, and the entry of a result in `addMap`; each
is about the state the insertion starts from.

## What is proved

* `Connected.fresh_of_ne`: after the logic is connected, the name of the result row is still free;
* `insertsFresh_of_reaches`: every insertion of a run without shifts is of a new key, `limArray` and
  `FSM2` have the same keys, and every row has one time.
-/

namespace Octantis

open Std Lib

variable {b b₁ b' : LiMBinder} {operation : Operation} {specifications : List String}
  {src1 src2 dest row other : Name} {w : Way} {base : LiMRow} {feed : Feed}

namespace LiMBinder

/-- The name is a key neither of the array nor of the times. -/
def Fresh (b : LiMBinder) (n : Name) : Prop := n ∉ b.MemArray.limArray ∧ n ∉ b.FSMLim.FSM2

instance (b : LiMBinder) (n : Name) : Decidable (b.Fresh n) := by
  unfold Fresh
  infer_instance

/-- The insertions of `mapOperation`: of the copy row, when one is generated, and of `dest`, in the
array and the times that the connection of the logic leaves. -/
def MapsFresh (b : LiMBinder) (operation : Operation) (specifications : List String)
    (src1 src2 dest : Name) : Prop :=
  ∀ b₁ feed, b.connectSources operation specifications src1 src2 = some (b₁, feed) →
    (feed.tCopy.isSome → b.Fresh b.zeroAddr) ∧ b₁.Fresh dest

/-- The insertions of `bindPair`: of the copy row, when one is generated, of the result row, and of
its entry in `addMap`. -/
def PairsFresh (b : LiMBinder) (operation : Operation) (specifications : List String)
    (row1 row2 : Name) : Prop :=
  ∀ b₁ feed, b.connectPair operation specifications row1 row2 = some (b₁, feed) →
    (feed.tCopy.isSome → b.Fresh b.zeroAddr) ∧ b₁.Fresh b₁.zeroAddr ∧
      (feed.tCopy.isNone → b₁.zeroAddr ∉ b₁.addMap)

end LiMBinder

/-- The insertions of a step are of new keys. An element inserts rows when its operands have no
destination in common; an accumulation inserts those of its pairs. -/
def Lib.Transition.InsertsFresh (step : Transition BinderState BindingAction) : Prop :=
  match step.act with
  | .load _ _ => step.pre.binder.Fresh step.pre.binder.zeroAddr
  | .element operation specifications destReg src1 src2 _ =>
    ∃ dest, step.pre.tmpDestAddr = some dest ∧
      ((step.pre.binder.addNewItem destReg dest).commonDest src1 src2 = none →
        (step.pre.binder.addNewItem destReg dest).MapsFresh operation specifications src1 src2 dest)
  | .accumulate operation specifications destReg _ =>
    ∃ pairs b row, run (LiMBinder.pairStep operation specifications) step.pre.binder pairs = some b ∧
      step.post.binder = b.addNewItem destReg row ∧
      ∀ pair ∈ transitions (LiMBinder.pairStep operation specifications) step.pre.binder pairs,
        pair.pre.PairsFresh operation specifications pair.act.1 pair.act.2
  | .enter _ | .leave => True

namespace LiMBinder

/-! ### One mapping -/

/-- A name that is no row is a new key. -/
theorem fresh_of_findRow (hr : Regular b.MemArray b.FSMLim) {n : Name} (hn : b.MemArray.findRow n = none) :
    b.Fresh n :=
  ⟨(getElem?_eq_none_iff _ _).mp hn, (getElem?_eq_none_iff _ _).mp (hr.time_fresh hn)⟩

/-- Connecting the logic takes no name but the one of the copy row. -/
theorem Connected.fresh_of_ne (hc : Connected b src1 src2 w row other base b₁ feed)
    (hr : Regular b.MemArray b.FSMLim) {n : Name} (hn : b.MemArray.findRow n = none) (hne : n ≠ row) :
    b₁.Fresh n := by
  have htime := hr.time_fresh hn
  refine ⟨(getElem?_eq_none_iff _ _).mp ?_, (getElem?_eq_none_iff _ _).mp ?_⟩
  · show b₁.MemArray.findRow n = none
    rw [hc.rows, if_neg hne, hn]
  · show b₁.FSMLim.getTime n = none
    have htimes := hc.times
    split at htimes
    · obtain ⟨t, -, -, hF⟩ := htimes
      rw [hF, FiniteStateMachine.getTime_addNewInstruction, if_neg (fun h => hne h.1.symm), htime]
    · rw [htimes.2, htime]

theorem mapsFresh (hr : Regular b.MemArray b.FSMLim) (fresh : b.MemArray.findRow dest = none)
    (freshZero : b.MemArray.findRow b.zeroAddr = none) (hne : dest ≠ b.zeroAddr) :
    b.MapsFresh operation specifications src1 src2 dest := by
  intro b₁ feed h
  rw [connectSources_eq] at h
  obtain ⟨⟨w, row, other⟩, hsite, h⟩ := Option.bind_eq_some_iff.mp h
  obtain ⟨base, hs⟩ := Site.of_site specifications hsite
  have hc := connectAt_connected freshZero hs h
  exact ⟨fun _ => fresh_of_findRow hr freshZero, hc.fresh_of_ne hr fresh (hs.ne_row fresh hne)⟩

/-- Every key of `addMap` is a row. -/
def SumRows (b : LiMBinder) : Prop := ∀ n ∈ b.addMap, (b.MemArray.findRow n).isSome

theorem Sums.sumRows (h : b.Sums) : b.SumRows := by
  intro n hn
  obtain ⟨ns, hns⟩ := Option.isSome_iff_exists.mp (ExtTreeMap.mem_iff_isSome_getElem?.mp hn)
  obtain ⟨-, r, x, hfed, -⟩ := h n ns hns
  exact hfed.isSome

theorem pairsFresh (hb : b.WellFormed) (hr : Regular b.MemArray b.FSMLim) (hs : b.SumRows)
    (row1 row2 : Name) :
    b.PairsFresh operation specifications row1 row2 := by
  intro b₁ feed h
  rw [connectPair_eq] at h
  obtain ⟨⟨w, row, other⟩, hsite, h⟩ := Option.bind_eq_some_iff.mp h
  obtain ⟨base, hsite⟩ := Site.of_site specifications hsite
  have hc := connectAt_connected hb.freshZero hsite h
  have hzero : b₁.zeroAddr = b.zeroAddr + if w = .copy then 4 else 0 := by rw [hc.rest]
  have hadd : b₁.addMap = b.addMap := by rw [hc.rest]
  have hfresh : b.MemArray.findRow b₁.zeroAddr = none := by
    rw [hzero]
    split
    · exact hb.freshNext
    · exact hb.freshZero
  refine ⟨fun _ => fresh_of_findRow hr hb.freshZero, hc.fresh_of_ne hr hfresh ?_, fun _ hmem => ?_⟩
  · have hrow := hsite.row_eq
    split at hrow
    · next hw => simp [hzero, hrow, hw]
    · rintro heq
      rw [← heq, hfresh] at hrow
      exact absurd hrow.2 (by decide)
  · rw [hadd] at hmem
    have hsome := hs _ hmem
    rw [hfresh] at hsome
    cases hsome

/-! ### The pairs of an accumulation -/

theorem sumRows_bindPair {row1 row2 tmpName : Name} (hb : b.WellFormed) (hop : operation ≠ .load)
    (hs : b.SumRows)
    (h : b.bindPair operation specifications row1 row2 = some (b', tmpName)) : b'.SumRows := by
  obtain ⟨-, he, htmp⟩ := wellFormed_bindPair hb hop h
  obtain ⟨w, row, other, base, t, -, -, -, hrest⟩ := bindPair_realizes hb.freshZero hb.freshNext h
  intro n hn
  rw [hrest] at hn
  simp only at hn
  split at hn
  · exact he.findRow_isSome (hs n hn)
  · rcases ExtTreeMap.mem_insertIfNew.mp hn with heq | hn
    · rw [Nat.compare_eq_eq] at heq
      exact heq ▸ htmp
    · exact he.findRow_isSome (hs n hn)

theorem pairsFresh_of_mem_transitions {pairs : List (Name × Name)} (hb : b.WellFormed)
    (hr : Regular b.MemArray b.FSMLim) (hs : b.SumRows) (hop : operation ≠ .load)
    {pair : Transition LiMBinder (Name × Name)}
    (h : pair ∈ transitions (pairStep operation specifications) b pairs) :
    pair.pre.PairsFresh operation specifications pair.act.1 pair.act.2 := by
  obtain ⟨before, -, hrun, -⟩ := exists_run_of_mem_transitions h
  have hs' : pair.pre.WellFormed ∧ pair.pre.SumRows := by
    refine run_invariant (P := fun b => b.WellFormed ∧ b.SumRows) (Q := fun _ => True) ⟨hb, hs⟩ ?_
      (fun _ _ => trivial) hrun
    rintro b₁ pair b₂ - ⟨hb₁, hs₁⟩ hstep
    obtain ⟨⟨b₂, tmpName⟩, hpair, rfl⟩ := Option.map_eq_some_iff.mp hstep
    exact ⟨(wellFormed_bindPair hb₁ hop hpair).1, sumRows_bindPair hb₁ hop hs₁ hpair⟩
  exact pairsFresh hs'.1 (regular_pairs hb hr hop hrun) hs'.2 _ _

end LiMBinder

/-! ### Every step -/

/-- The step rule of the names. -/
theorem insertsFresh_bindStep {s s' : BinderState} {a : BindingAction} (hs : s.WellFormed)
    (hr : Regular s.binder.MemArray s.binder.FSMLim) (hsums : s.binder.Sums) (h : bindStep s a = some s') :
    Transition.InsertsFresh ⟨s, a, s'⟩ := by
  cases a with
  | enter | leave => trivial
  | load destReg ti =>
    exact LiMBinder.fresh_of_findRow hr (bindStep_load hs h).1.freshZero
  | element operation specifications destReg src1 src2 junk =>
    obtain ⟨-, dest, -, htmp, hn, hle, -⟩ := bindStep_element hs h
    exact ⟨dest, htmp, fun _ => LiMBinder.mapsFresh (b := s.binder.addNewItem destReg dest) hr
      (hn.fresh (Nat.le_refl _)) (hn.fresh (show dest ≤ s.binder.zeroAddr by lia))
      (show dest ≠ s.binder.zeroAddr by lia)⟩
  | accumulate operation specifications destReg accumulationList =>
    obtain ⟨hop, hb, b', hb', rfl⟩ := bindStep_accumulate hs h
    obtain ⟨pairs, b₁, row, hrun, -, rfl⟩ := LiMBinder.performAccBinding_run hb hop hb'
    exact ⟨pairs, b₁, row, hrun, rfl,
      fun pair hpair => LiMBinder.pairsFresh_of_mem_transitions hb hr hsums.sumRows hop hpair⟩

/-- **The names of a run without shifts**: every insertion is of a new key, and the array and the
times have the same keys, with one time for every row. -/
theorem insertsFresh_of_reaches {par : ℤ} {optTarget : String} {actions : List BindingAction} {s : BinderState}
    (hshift : ∀ a ∈ actions, a.noShift) (h : Reaches par optTarget actions s) :
    (∀ step ∈ history par optTarget actions, step.InsertsFresh) ∧
    (∀ n, n ∈ s.binder.MemArray.limArray ↔ n ∈ s.binder.FSMLim.FSM2) ∧
    ∀ n, n ∈ s.binder.MemArray.limArray → ∃! t, s.binder.FSMLim.getTime n = some t := by
  have hr := regular_of_reaches hshift h
  have hkeys : ∀ n, n ∈ s.binder.MemArray.limArray ↔ n ∈ s.binder.FSMLim.FSM2 := by
    intro n
    rw [ExtTreeMap.mem_iff_isSome_getElem?, ExtTreeMap.mem_iff_isSome_getElem?]
    exact hr.timed n
  refine ⟨fun step hstep => ?_, hkeys, fun n hn => ?_⟩
  · obtain ⟨before, hbefore, hrun, hpost⟩ := exists_run_of_mem_transitions hstep
    exact insertsFresh_bindStep (wellFormed_of_reaches hrun)
      (regular_of_reaches (fun a ha => hshift a (hbefore.subset ha)) hrun) (sums_of_reaches hrun) hpost
  · obtain ⟨t, ht⟩ := hr.time_of_row (ExtTreeMap.mem_iff_isSome_getElem?.mp hn)
    exact ⟨t, ht, fun t' ht' => Option.some.inj (ht'.symm.trans ht)⟩

/-- A sum, the same sum again, a copy row and two accumulations. -/
def reusedNames : List BindingAction :=
  [.load 1 0, .load 2 0, .load 3 0,
    .enter 0, .element .add [] 4 0 4 ⟨1, 0, 0⟩, .element .add [] 4 4 0 ⟨1, 0, 0⟩,
    .element .sub [] 4 0 8 ⟨1, 0, 0⟩, .element .xor [] 4 4 8 ⟨1, 0, 0⟩, .leave,
    .accumulate .add ["accumulation"] 5 [0, 4, 8], .accumulate .add ["accumulation"] 6 [0, 4]]

theorem reusedNames_isSome : (run bindStep (.init 8 "Accumulation") reusedNames).isSome := by decide +kernel

/-- Its rows are the names that have a time. -/
theorem insertsFresh_of_reaches_reusedNames :
    ∃ s, Reaches 8 "Accumulation" reusedNames s ∧
      (∀ step ∈ history 8 "Accumulation" reusedNames, step.InsertsFresh) ∧
      ∀ n, n ∈ s.binder.MemArray.limArray ↔ n ∈ s.binder.FSMLim.FSM2 := by
  have h := insertsFresh_of_reaches (by decide) (Option.some_get reusedNames_isSome).symm
  exact ⟨_, (Option.some_get reusedNames_isSome).symm, h.1, h.2.1⟩

end Octantis
