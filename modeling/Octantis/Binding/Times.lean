import Mathlib.Data.Finset.Max
import Mathlib.Data.Finset.Dedup
import Octantis.Binding.AccumulationSum
import Octantis.Binding.Muxes

/-!
# The times of the rows

The times of the algorithm run from 0 to some `M` with none left out: `transform` gives each of
them a list, and the code generators count on it.

## The model

`BindsInOrder` is what the binding of two rows does to the rows and the times, and
`Transition.InOrder` what each step does. An accumulation binds pairs of the rows of its levels
(`rowsToBind`, from the lists of `accumulationLists`) and of the results before
(`AccumulatesInOrder`).

## What is proved

* `timely_invariant`: every row with logic is written before some other row, the invariant
  that lets a mux skip a time;
* `bindLevels_eq_some`: the rows of the levels and the results are the rows of the pairs, once
  each, but for what is left at the end; `rowsToBind_of_ne`: with no reuse they are the set;
* `inOrder_of_mem_history`: every binding writes its result after its operands, and a copy row
  in between;
* `times_of_reaches`: no time is left out, every row has one, every binding is in order, and
  `transform` has each row once, at its time.

## Honest scope

The loads are at time 0, where `ASAP` puts them.
-/

namespace Octantis

open Std Lib

variable {b b' : LiMBinder} {operation : Operation} {specifications : List String}
  {src1 src2 dest row other : Name} {w : Way} {base : LiMRow} {t : ℤ} {A : LiMArray}
  {F : FiniteStateMachine}

/-- No time is left out, and every row with logic is written before some other row. -/
structure Timely (A : LiMArray) (F : FiniteStateMachine) : Prop where
  gapFree : F.GapFree
  used : ∀ n row, A.findRow n = some row → row.rowType ≠ .load →
    ∃ d t t', F.getTime n = some t ∧ F.getTime d = some t' ∧ t < t'

/-- The binding of two rows adds the result row, at a time after both. Any other row it adds, the
copy row, comes after both as well and before the result; the rows bound before keep their times. -/
structure LiMBinder.BindsInOrder (b b' : LiMBinder) (src1 src2 dest : Name) : Prop where
  fresh : b.MemArray.findRow dest = none
  result : ∃ row, b'.MemArray.findRow dest = some row ∧ row.inputConnectionsType = [.OLiM]
  times : ∃ t1 t2 td, b.FSMLim.getTime src1 = some t1 ∧ b.FSMLim.getTime src2 = some t2 ∧
    b'.FSMLim.getTime dest = some td ∧ t1 < td ∧ t2 < td ∧
    ∀ c, c ≠ dest → b.MemArray.findRow c = none → (b'.MemArray.findRow c).isSome →
      ∃ tc, b'.FSMLim.getTime c = some tc ∧ t1 < tc ∧ t2 < tc ∧ tc < td
  kept : ∀ n t, b.FSMLim.getTime n = some t → b'.FSMLim.getTime n = some t

/-- The array and the times are left as they are. -/
def LiMBinder.BindsNothing (b b' : LiMBinder) : Prop := b'.MemArray = b.MemArray ∧ b'.FSMLim = b.FSMLim

/-- The rows that the levels of an accumulation bind. -/
def LiMBinder.rowsToBind (b : LiMBinder) (accumulationList : List Name) : List Name :=
  (List.range (ceilLog2 accumulationList.length)).flatMap fun i =>
    (b.accumulationLists accumulationList)[i]?.getD []

/-- The rows of the pairs. -/
def pairRows (pairs : List (Name × Name)) : List Name := pairs.flatMap fun pair => [pair.1, pair.2]

/-- The pairs are bound one after the other, to `dests`. -/
structure LiMBinder.PairsBound (operation : Operation) (specifications : List String) (b : LiMBinder)
    (pairs : List (Name × Name)) (dests : List Name) (b' : LiMBinder) : Prop where
  pairs_run : run (pairStep operation specifications) b pairs = some b'
  results : List.Forall₂ (fun (pair : Transition LiMBinder (Name × Name)) dest =>
    pair.pre.bindPair operation specifications pair.act.1 pair.act.2 = some (pair.post, dest))
    (transitions (pairStep operation specifications) b pairs) dests

/-- An accumulation binds pairs, each to a new row and in order. The rows of its levels and the
results are the rows of the pairs, once each, but for the row recorded and what is left with it;
with no reuse the levels have the set, and nothing else is left. -/
structure LiMBinder.AccumulatesInOrder (operation : Operation) (specifications : List String)
    (destReg : Reg) (accumulationList : List Name) (b b' : LiMBinder) (pairs : List (Name × Name))
    (dests : List Name) (b₁ : LiMBinder) (row : Name) (left : List Name) : Prop where
  bound : PairsBound operation specifications b pairs dests b₁
  recorded : b' = b₁.addNewItem destReg row
  operands : (b.rowsToBind accumulationList ++ dests).Perm (pairRows pairs ++ row :: left)
  withoutReuse : b.optTarget ≠ "Accumulation" → (b.rowsToBind accumulationList).Perm accumulationList ∧ left = []
  inOrder : List.Forall₂ (fun (pair : Transition LiMBinder (Name × Name)) dest =>
    pair.pre.BindsInOrder pair.post pair.act.1 pair.act.2 dest)
    (transitions (pairStep operation specifications) b pairs) dests

/-- The binding of a step is in order. A load adds a row at its time; an element whose operands last
went to one row binds nothing, and is mapped otherwise. -/
def Lib.Transition.InOrder (step : Transition BinderState BindingAction) : Prop :=
  match step.act with
  | .load _ ti =>
    step.pre.binder.MemArray.findRow step.pre.binder.zeroAddr = none ∧
      (step.post.binder.MemArray.findRow step.pre.binder.zeroAddr).isSome ∧
      step.post.binder.FSMLim.getTime step.pre.binder.zeroAddr = some ti
  | .element _ _ _ src1 src2 _ =>
    ∃ dest, step.pre.tmpDestAddr = some dest ∧
      if (step.pre.binder.commonDest src1 src2).isSome then step.pre.binder.BindsNothing step.post.binder
      else step.pre.binder.BindsInOrder step.post.binder src1 src2 dest
  | .accumulate operation specifications destReg accumulationList =>
    ∃ pairs dests b row left, LiMBinder.AccumulatesInOrder operation specifications destReg accumulationList
      step.pre.binder step.post.binder pairs dests b row left
  | .enter _ | .leave => step.pre.binder.BindsNothing step.post.binder

/-! ### One mapping -/

/-- Both operands of a mux have logic. -/
theorem LiMBinder.rowType_of_site_mux {mux : Bool} (hl : b.LoadRows)
    (h : b.site mux operation src1 src2 = some (.mux, row, other)) :
    ∀ n, n = row ∨ n = other → ∃ r, b.MemArray.findRow n = some r ∧ r.rowType ≠ .load := by
  obtain ⟨row2, h2, h⟩ := Option.bind_eq_some_iff.mp h
  split at h
  · cases h
  next hc2 =>
  obtain ⟨row1, h1, h⟩ := Option.bind_eq_some_iff.mp h
  split at h
  · cases h
  next hc1 =>
  have hboth : ∀ n, n = src1 ∨ n = src2 → ∃ r, b.MemArray.findRow n = some r ∧ r.rowType ≠ .load := by
    rintro n (rfl | rfl)
    · exact ⟨row1, h1, fun hload => hc1 (hl.convertible h1 hload)⟩
    · exact ⟨row2, h2, fun hload => hc2 (hl.convertible h2 hload)⟩
  split at h
  · cases h
    exact fun n hn => hboth n hn.symm
  split at h
  · cases h
    exact hboth
  · cases h

namespace Mapping

variable (h : Mapping b operation specifications src1 src2 dest w row other base t A F)
include h

/-- Behind a mux the time before the one of the result row is not left out: the later one of the
operands, which has logic, is written before some other row. -/
theorem exists_time (hb : Timely b.MemArray b.FSMLim) (hw : w = .mux) : ∃ n, b.FSMLim.getTime n = some t := by
  obtain ⟨mux, hsite⟩ := h.chosen
  rw [hw] at hsite
  obtain ⟨tx, htx, -, hboth⟩ := h.realizes.getTime_other
  obtain ⟨tr, htr, hmax⟩ := hboth (by rw [hw]; decide)
  have hlater : ∀ n, n = row ∨ n = other → ∀ tn, b.FSMLim.getTime n = some tn → t = tn + 1 →
      ∃ n, b.FSMLim.getTime n = some t := by
    intro n hn tn htn ht
    obtain ⟨r, hr, hlogic⟩ := LiMBinder.rowType_of_site_mux h.loads hsite n hn
    obtain ⟨d, tn', td, htn', htd, hlt⟩ := hb.used n r hr hlogic
    rw [htn, Option.some.injEq] at htn'
    have h0 := (hb.gapFree n tn htn).1
    exact (hb.gapFree d td htd).2 t (by omega) (by omega)
  rcases hmax with ht | ht
  · exact hlater row (.inl rfl) tr htr ht
  · exact hlater other (.inr rfl) tx htx ht

/-- The row with the logic is written before the result row; every other one has logic already. -/
theorem used (hb : Timely b.MemArray b.FSMLim) {n : Name} {new : LiMRow} (hn : A.findRow n = some new)
    (hlogic : new.rowType ≠ .load) :
    ∃ d t t', F.getTime n = some t ∧ F.getTime d = some t' ∧ t < t' := by
  rw [h.realizes.rows] at hn
  split at hn
  · cases hn
    exact absurd rfl hlogic
  split at hn
  · next hrow =>
    obtain ⟨tr, htr, hlt⟩ := h.realizes.getTime_row h.regular
    refine ⟨dest, tr, _, hrow ▸ htr, h.realizes.getTime_dest h.regular, ?_⟩
    cases w <;> simp at hlt ⊢ <;> omega
  · obtain ⟨d, tn, td, htn, htd, hlt⟩ := hb.used n new hn hlogic
    exact ⟨d, tn, td, h.realizes.getTime_of_some htn, h.realizes.getTime_of_some htd, hlt⟩

theorem bindsInOrder (hA : b'.MemArray = A) (hF : b'.FSMLim = F) : b.BindsInOrder b' src1 src2 dest := by
  obtain ⟨t1, t2, h1, h2, hlt1, hlt2, -⟩ := LiMBinder.nextTime_eq_some h.realizes.time
  subst hA hF
  refine ⟨h.realizes.fresh, ⟨_, h.realizes.findRow_dest, rfl⟩, ?_, fun n t => h.realizes.getTime_of_some⟩
  refine ⟨t1, t2, _, h1, h2, h.realizes.getTime_dest h.regular, by split <;> omega, by split <;> omega, ?_⟩
  intro c hc hnone hsome
  have hcopy : w = .copy ∧ c = row := by
    rw [h.realizes.rows, if_neg hc] at hsome
    have hrow := h.realizes.site.row_eq
    by_cases hcr : c = row
    · refine ⟨?_, hcr⟩
      split at hrow
      · assumption
      · rw [← hcr, hnone] at hrow
        exact absurd hrow.2 (by decide)
    · rw [if_neg hcr, hnone] at hsome
      cases hsome
  refine ⟨t, ?_, hlt1, hlt2, ?_⟩
  · rw [h.realizes.getTime h.regular, if_neg hc, if_pos hcopy]
  · rw [hcopy.1]
    exact Int.lt_succ t

end Mapping

/-- **The invariant of the times.** -/
theorem timely_invariant : BinderInvariant (· = 0) (fun _ => True) Timely where
  empty := ⟨by simp [FiniteStateMachine.GapFree], by simp⟩
  load b destReg ti hti hb hr h := by
    subst hti
    refine ⟨h.gapFree.bindLoad hb hr destReg, fun n row hrow hlogic => ?_⟩
    rw [LiMBinder.findRow_bindLoad hb.named] at hrow
    split at hrow
    · cases hrow
      exact absurd rfl hlogic
    · have hkeep := (LiMBinder.wellFormed_bindLoad hb destReg 0).2.times
      obtain ⟨d, tn, td, htn, htd, hlt⟩ := h.used n row hrow hlogic
      exact ⟨d, tn, td, hkeep _ _ htn, hkeep _ _ htd, hlt⟩
  map _ hb h := ⟨h.realizes.gapFree h.regular hb.gapFree fun hw => h.exists_time hb hw,
    fun _ _ hn hlogic => h.used hb hn hlogic⟩

/-! ### Every binding -/

/-- A run of pairs binds each of them in order. -/
theorem LiMBinder.PairsBound.inOrder {pairs : List (Name × Name)} {dests : List Name} (hb : b.WellFormed)
    (hr : Regular b.MemArray b.FSMLim) (hop : operation ≠ .load)
    (h : PairsBound operation specifications b pairs dests b') :
    List.Forall₂ (fun (pair : Transition LiMBinder (Name × Name)) dest =>
      pair.pre.BindsInOrder pair.post pair.act.1 pair.act.2 dest)
      (transitions (pairStep operation specifications) b pairs) dests := by
  refine List.forall₂_iff_get.mpr ⟨h.results.length_eq, fun i hi hdest => ?_⟩
  obtain ⟨before, -, hrun, -⟩ := exists_run_of_mem_transitions (List.get_mem _ ⟨i, hi⟩)
  obtain ⟨w, row, other, base, t, hm⟩ := mapping_bindPair (wellFormed_pairs hb hop hrun).1
    (regular_pairs hb hr hop hrun) hop ((List.forall₂_iff_get.mp h.results).2 i hi hdest)
  exact hm.bindsInOrder rfl rfl

/-! ### The rows of an accumulation -/

namespace LiMBinder

theorem PairsBound.length_eq {pairs : List (Name × Name)} {dests : List Name}
    (h : PairsBound operation specifications b pairs dests b') : dests.length = pairs.length := by
  rw [← h.results.length_eq, ← List.length_map (·.act), transitions_map_act h.pairs_run]

theorem PairsBound.append {pairs₁ pairs₂ : List (Name × Name)} {dests₁ dests₂ : List Name} {b₁ : LiMBinder}
    (h₁ : PairsBound operation specifications b pairs₁ dests₁ b₁)
    (h₂ : PairsBound operation specifications b₁ pairs₂ dests₂ b') :
    PairsBound operation specifications b (pairs₁ ++ pairs₂) (dests₁ ++ dests₂) b' where
  pairs_run := by rw [run_append, h₁.pairs_run, Option.bind_some, h₂.pairs_run]
  results := by
    rw [transitions_append h₁.pairs_run]
    exact List.rel_append h₁.results h₂.results

theorem PairsBound.cons {row1 row2 tmpName : Name} {pairs : List (Name × Name)} {dests : List Name}
    {b₁ : LiMBinder} (hpair : b.bindPair operation specifications row1 row2 = some (b₁, tmpName))
    (h : PairsBound operation specifications b₁ pairs dests b') :
    PairsBound operation specifications b ((row1, row2) :: pairs) (tmpName :: dests) b' := by
  have hstep : pairStep operation specifications b (row1, row2) = some b₁ := by rw [pairStep, hpair]; rfl
  refine ⟨by rw [run_cons, hstep, Option.bind_some, h.pairs_run], ?_⟩
  simp only [transitions, hstep]
  exact .cons hpair h.results

@[simp] theorem pairRows_nil : pairRows [] = [] := rfl

@[simp] theorem pairRows_cons (pair : Name × Name) (pairs : List (Name × Name)) :
    pairRows (pair :: pairs) = pair.1 :: pair.2 :: pairRows pairs := rfl

@[simp] theorem pairRows_append (pairs₁ pairs₂ : List (Name × Name)) :
    pairRows (pairs₁ ++ pairs₂) = pairRows pairs₁ ++ pairRows pairs₂ := List.flatMap_append

theorem length_pairRows (pairs : List (Name × Name)) : (pairRows pairs).length = 2 * pairs.length := by
  induction pairs with
  | nil => rfl
  | cons pair pairs ih =>
    simp only [pairRows_cons, List.length_cons, ih]
    omega

/-- The pairs of a level are its rows two by two; a last single one is left. -/
theorem bindPairs_eq_some : ∀ {rows results : List Name} {b b' : LiMBinder},
    b.bindPairs operation specifications rows = some (b', results) →
      ∃ pairs dests left, PairsBound operation specifications b pairs dests b' ∧
        rows = pairRows pairs ++ left ∧ results = dests ++ left ∧ left.length ≤ 1
  | [], _, b, _, h => by
    cases h
    exact ⟨[], [], [], ⟨rfl, .nil⟩, rfl, rfl, by decide⟩
  | [row], _, b, _, h => by
    cases h
    exact ⟨[], [], [row], ⟨rfl, .nil⟩, rfl, rfl, Nat.le_refl 1⟩
  | row1 :: row2 :: rows, _, b, _, h => by
    obtain ⟨⟨b₁, tmpName⟩, hpair, h⟩ := Option.bind_eq_some_iff.mp h
    obtain ⟨⟨b₂, rest⟩, hrest, h⟩ := Option.bind_eq_some_iff.mp h
    cases h
    obtain ⟨pairs, dests, left, hbound, rfl, rfl, hleft⟩ := bindPairs_eq_some hrest
    exact ⟨(row1, row2) :: pairs, tmpName :: dests, left, hbound.cons hpair, rfl, rfl, hleft⟩

/-- **The levels**: their rows and the results are the rows of the pairs, once each, but for what is
left after the last level. -/
theorem bindLevels_eq_some {destReg : Reg} {lists : ExtTreeMap ℕ (List Name)} {fuel i : ℕ}
    {b b' : LiMBinder} {cur : List Name}
    (h : bindLevels operation specifications destReg lists fuel i b cur = some b') :
    ∃ pairs dests b₁ row left, PairsBound operation specifications b pairs dests b₁ ∧
      b' = b₁.addNewItem destReg row ∧
      (cur ++ ((List.range' i fuel).flatMap fun i => lists[i]?.getD []) ++ dests).Perm
        (pairRows pairs ++ row :: left) ∧
      left.length + 1 =
        levelLength ((List.range' i fuel).map fun i => (lists[i]?.getD []).length) cur.length := by
  induction fuel generalizing i b cur with
  | zero =>
    obtain ⟨row, hrow, h⟩ := Option.bind_eq_some_iff.mp h
    cases h
    obtain ⟨left, rfl⟩ := List.head?_eq_some_iff.mp hrow
    exact ⟨[], [], b, row, left, ⟨rfl, .nil⟩, rfl, by simp, rfl⟩
  | succ fuel ih =>
    obtain ⟨level, hlevel, h⟩ := Option.bind_eq_some_iff.mp h
    obtain ⟨rows, hrows, h⟩ := Option.bind_eq_some_iff.mp h
    obtain ⟨⟨b₁, results⟩, hpairs, h⟩ := Option.bind_eq_some_iff.mp h
    have horder := (orderRows_eq_some hrows).1.trans (mergeRows_perm cur level)
    obtain ⟨pairs₁, dests₁, single, hbound₁, rfl, rfl, hsingle⟩ := bindPairs_eq_some hpairs
    obtain ⟨pairs₂, dests₂, b₂, row, left, hbound₂, rfl, hperm, hleft⟩ := ih h
    refine ⟨pairs₁ ++ pairs₂, dests₁ ++ dests₂, b₂, row, left, hbound₁.append hbound₂, rfl, ?_, ?_⟩
    · rw [List.range'_succ, List.flatMap_cons, hlevel, Option.getD_some, pairRows_append]
      refine List.perm_iff_count.mpr fun n => ?_
      have h₁ := horder.count_eq n
      have h₂ := hperm.count_eq n
      simp only [List.count_append] at h₁ h₂ ⊢
      omega
    · rw [hleft, List.range'_succ, List.map_cons, hlevel, Option.getD_some, levelLength]
      have h₁ := horder.length_eq
      have h₂ := hbound₁.length_eq
      simp only [List.length_append, length_pairRows] at h₁ ⊢
      congr 1
      omega

/-- With no reuse the levels bind the set: at the first one, and nothing joins after. -/
theorem rowsToBind_of_ne {l : List Name} (hopt : b.optTarget ≠ "Accumulation") (hlen : 2 ≤ l.length) :
    (b.rowsToBind l).Perm l ∧
      levelLength ((List.range' 0 (ceilLog2 l.length)).map fun i =>
        ((b.accumulationLists l)[i]?.getD []).length) 0 = 1 := by
  obtain ⟨hzero, hlater⟩ := accumulationLists_of_ne (b := b) (l := l) hopt
  have hperm := reorganize_perm l.length l
  obtain ⟨k, hk⟩ : ∃ k, ceilLog2 l.length = k + 1 := by
    refine Nat.exists_eq_succ_of_ne_zero ?_
    rw [ceilLog2, if_neg (by omega)]
    omega
  have hnone : ∀ i ∈ List.range' 1 k, (b.accumulationLists l)[i]?.getD [] = [] := by
    intro i hi
    obtain ⟨h1, hlt⟩ := List.mem_range'_1.mp hi
    rw [hlater i h1 (by omega)]
    rfl
  constructor
  · rw [rowsToBind, List.range_eq_range', hk, List.range'_succ, List.flatMap_cons, hzero, Option.getD_some,
      List.flatMap_eq_nil_iff.mpr hnone, List.append_nil]
    exact hperm
  · have hlengths : (List.range' 1 k).map (fun i => ((b.accumulationLists l)[i]?.getD []).length) =
        List.replicate k 0 := by
      refine List.eq_replicate_iff.mpr ⟨by simp, fun n hn => ?_⟩
      obtain ⟨i, hi, rfl⟩ := List.mem_map.mp hn
      rw [hnone i hi]
      rfl
    rw [hk, List.range'_succ, List.map_cons, hzero, Option.getD_some, hlengths, levelLength, hperm.length_eq]
    have hpow := Nat.le_pow_clog (b := 2) (by decide) l.length
    rw [← ceilLog2_eq_clog, hk, pow_succ] at hpow
    exact levelLength_replicate_zero (by omega) (by omega)

/-- **An accumulation** binds the rows of its levels, in order. -/
theorem accumulatesInOrder {destReg : Reg} {accumulationList : List Name} (hb : b.WellFormed)
    (hr : Regular b.MemArray b.FSMLim) (hop : operation ≠ .load)
    (h : b.performAccBinding accumulationList operation specifications destReg = some b') :
    ∃ pairs dests b₁ row left,
      AccumulatesInOrder operation specifications destReg accumulationList b b' pairs dests b₁ row left := by
  rw [performAccBinding] at h
  split at h
  · cases h
  next hne =>
  obtain ⟨pairs, dests, b₁, row, left, hbound, hb', hperm, hleft⟩ := bindLevels_eq_some h
  refine ⟨pairs, dests, b₁, row, left, hbound, hb', ?_, fun hopt => ?_, hbound.inOrder hb hr hop⟩
  · rw [rowsToBind, List.range_eq_range']
    exact hperm
  · have hlen : 2 ≤ accumulationList.length := by
      by_contra hlt
      have hzero : ceilLog2 accumulationList.length = 0 := if_pos (by omega)
      rw [hzero] at h
      cases h
    obtain ⟨hset, hone⟩ := rowsToBind_of_ne hopt hlen
    rw [List.length_nil, hone] at hleft
    exact ⟨hset, List.length_eq_zero_iff.mp (by omega)⟩

end LiMBinder

/-- Every step binds in order. -/
theorem inOrder_bindStep {s s' : BinderState} {a : BindingAction} (hs : s.WellFormed)
    (hr : Regular s.binder.MemArray s.binder.FSMLim) (ha : a.noShift) (h : bindStep s a = some s') :
    Transition.InOrder ⟨s, a, s'⟩ := by
  cases a with
  | load destReg ti =>
    obtain ⟨hb, rfl⟩ := bindStep_load hs h
    refine ⟨hb.freshZero, ?_, ?_⟩
    · show ((s.binder.bindLoad destReg ti).MemArray.findRow s.binder.zeroAddr).isSome
      rw [LiMBinder.findRow_bindLoad hb.named, if_pos rfl]
      rfl
    · show (s.binder.bindLoad destReg ti).FSMLim.getTime s.binder.zeroAddr = some ti
      rw [LiMBinder.getTime_bindLoad hb hr, if_pos rfl]
  | enter constants =>
    obtain ⟨-, h⟩ := Option.ite_none_right_eq_some.mp h
    cases h
    exact ⟨rfl, rfl⟩
  | leave =>
    obtain ⟨-, h⟩ := Option.ite_none_right_eq_some.mp h
    cases h
    exact ⟨rfl, rfl⟩
  | element operation specifications destReg src1 src2 junk =>
    obtain ⟨dest, hdest, ⟨hd, hA, hF⟩ | ⟨hd, w, row, other, base, t, hm⟩⟩ := mapping_element hs hr ha h
    · refine ⟨dest, hdest, ?_⟩
      rw [if_pos hd]
      exact ⟨hA, hF⟩
    · refine ⟨dest, hdest, ?_⟩
      have horder : (s.binder.addNewItem destReg dest).BindsInOrder s'.binder src1 src2 dest := hm.bindsInOrder rfl rfl
      simp only [hd, Option.isSome_none, Bool.false_eq_true, if_false]
      exact ⟨horder.fresh, horder.result, horder.times, horder.kept⟩
  | accumulate operation specifications destReg accumulationList =>
    obtain ⟨hop, hb, b', hb', rfl⟩ := bindStep_accumulate hs h
    exact LiMBinder.accumulatesInOrder hb hr hop hb'

/-- Every binding of a run without shifts is in order. -/
theorem inOrder_of_mem_history {par : ℤ} {optTarget : String} {actions : List BindingAction}
    {step : Transition BinderState BindingAction} (hshift : ∀ a ∈ actions, a.noShift)
    (h : step ∈ history par optTarget actions) : step.InOrder := by
  have hact : step.act ∈ actions := mem_of_mem_transitions h
  obtain ⟨before, hbefore, hrun, hstep⟩ := exists_run_of_mem_transitions h
  exact inOrder_bindStep (wellFormed_of_reaches hrun)
    (regular_of_reaches (fun a ha => hshift a (hbefore.subset ha)) hrun) (hshift _ hact) hstep

/-- The last one of the times. -/
theorem FiniteStateMachine.GapFree.exists_last (h : F.GapFree) {n : Name} (hn : (F.getTime n).isSome) :
    ∃ M : ℕ, ∀ t, (∃ n, F.getTime n = some t) ↔ 0 ≤ t ∧ t ≤ M := by
  have hmem : ∀ t, t ∈ (F.FSM2.toList.map (·.2)).toFinset ↔ ∃ n, F.getTime n = some t := by
    intro t
    simp only [List.mem_toFinset, List.mem_map, getTime, ← ExtTreeMap.mem_toList_iff_getElem?_eq_some]
    constructor
    · rintro ⟨e, hin, rfl⟩
      exact ⟨e.1, hin⟩
    · rintro ⟨n, hin⟩
      exact ⟨(n, t), hin, rfl⟩
  obtain ⟨t₀, ht₀⟩ := Option.isSome_iff_exists.mp hn
  have hne : (F.FSM2.toList.map (·.2)).toFinset.Nonempty := ⟨t₀, (hmem t₀).mpr ⟨n, ht₀⟩⟩
  obtain ⟨m, hm⟩ := (hmem _).mp (Finset.max'_mem _ hne)
  obtain ⟨h0, hall⟩ := h m _ hm
  obtain ⟨M, hM⟩ := Int.eq_ofNat_of_zero_le h0
  refine ⟨M, fun t => ⟨fun ht => ⟨?_, ?_⟩, fun ht => hall t ht.1 (hM ▸ ht.2)⟩⟩
  · obtain ⟨n', hn'⟩ := ht
    exact (h n' t hn').1
  · rw [← hM]
    exact Finset.le_max' _ _ ((hmem t).mpr ht)

/-- Every state reached without shifts is timely. -/
theorem timely_of_reaches {par : ℤ} {optTarget : String} {actions : List BindingAction} {s : BinderState}
    (hshift : ∀ a ∈ actions, a.noShift) (hload : ∀ a ∈ actions, a.scheduled)
    (h : Reaches par optTarget actions s) : Timely s.binder.MemArray s.binder.FSMLim := by
  refine timely_invariant.of_reaches hshift (fun a ha => ?_) h
  cases a with
  | load destReg ti => exact hload _ ha
  | enter | element | leave | accumulate => trivial

/-- **The times of a run without shifts**: from 0 to `M` with none left out, one for each row, every
binding in order, and each row once in the lists of `transform`, at its time. -/
theorem times_of_reaches {par : ℤ} {optTarget : String} {actions : List BindingAction} {s : BinderState}
    (hshift : ∀ a ∈ actions, a.noShift) (hload : ∀ a ∈ actions, a.scheduled)
    (h : Reaches par optTarget actions s) :
    ((∃ n, (s.binder.MemArray.findRow n).isSome) →
      ∃ M : ℕ, ∀ t, (∃ n, s.binder.FSMLim.getTime n = some t) ↔ 0 ≤ t ∧ t ≤ M) ∧
    (∀ n, (s.binder.MemArray.findRow n).isSome ↔ (s.binder.FSMLim.getTime n).isSome) ∧
    (∀ step ∈ history par optTarget actions, step.InOrder) ∧
    (∀ t n, (s.binder.FSMLim.transform.FSM[t]?.getD []).count n =
      if s.binder.FSMLim.getTime n = some t then 1 else 0) ∧
    ∀ (t : ℤ) (rows : List Name), s.binder.FSMLim.transform.FSM[t]? = some rows → rows ≠ [] := by
  have hr := regular_of_reaches hshift h
  refine ⟨fun ⟨n, hn⟩ => ?_, hr.timed, fun step => inOrder_of_mem_history hshift,
    FiniteStateMachine.count_transform hr.pending,
      fun t rows => FiniteStateMachine.ne_nil_of_transform hr.pending⟩
  exact (timely_of_reaches hshift hload h).gapFree.exists_last ((hr.timed n).mp hn)

/-- Loads, a difference, a sum behind a mux, a copy row and an accumulation. -/
def mixedBindings : List BindingAction :=
  [.load 1 0, .load 2 0, .load 3 0,
    .enter 0, .element .add [] 4 0 4 ⟨1, 0, 0⟩, .leave,
    .enter 0, .element .sub [] 5 0 8 ⟨1, 0, 0⟩, .leave,
    .enter 0, .element .add [] 6 4 8 ⟨1, 0, 0⟩, .leave,
    .enter 0, .element .xor [] 7 4 8 ⟨1, 0, 0⟩, .leave,
    .accumulate .add ["accumulation"] 8 [0, 4, 8]]

theorem mixedBindings_isSome : (run bindStep (.init 8 "") mixedBindings).isSome := by decide +kernel

/-- Its rows are written at the times from 0 to some `M`. -/
theorem times_of_reaches_mixedBindings :
    ∃ s, Reaches 8 "" mixedBindings s ∧ (s.binder.MemArray.findRow 0).isSome ∧
      ∃ M : ℕ, ∀ t, (∃ n, s.binder.FSMLim.getTime n = some t) ↔ 0 ≤ t ∧ t ≤ M := by
  have hrow : (((run bindStep (.init 8 "") mixedBindings).get mixedBindings_isSome).binder.MemArray.findRow
      0).isSome := by decide +kernel
  exact ⟨_, (Option.some_get mixedBindings_isSome).symm, hrow,
    (times_of_reaches (by decide) (by decide) (Option.some_get mixedBindings_isSome).symm).1 ⟨0, hrow⟩⟩

end Octantis
