import Mathlib.Data.BitVec
import Mathlib.Data.Set.Card
import Octantis.Lib.Reduction
import Octantis.Binding.Feeding
import Octantis.Binding.WithoutShifts

/-!
# The sum of an accumulation

The reduction of an accumulation set to one row, against the values of the rows:
a new result row has the value of the row that feeds it plus that of the logic
input the feeding row was given, a copy row that of its head (`Values`).

## What is proved

* `bindPair_value`: the result row of a pair has the sum of the two rows, however
  the logic was placed.
* `bindPairs_bound`, `bindLevels_bound`: the levels of the code are the levels of
  a reduction, whatever the order in which the rows of a level are paired.
* `performAccBinding_sum`: with no reuse, a set of `n` rows is bound with `n - 1`
  result rows to one row, whose value is the sum of those of the set.
-/

namespace Octantis

open Std Lib

variable {b b' : LiMBinder} {operation : Operation} {specifications : List String}
  {src1 src2 dest row other : Name} {w : Way} {base : LiMRow} {t : ℤ}

/-! ### The values of the rows -/

/-- A result row of the second state that the first does not have. -/
def NewResult (b b' : LiMBinder) (n : Name) : Prop :=
  b.MemArray.findRow n = none ∧
    ∃ row, b'.MemArray.findRow n = some row ∧ row.inputConnectionsType.head? = some .OLiM

/-- The values of the rows that the second state has and the first does not: a result row adds the
logic input of the row that feeds it to that row, a copy row has the value of its head. -/
structure Values {M : Type} [Add M] (b b' : LiMBinder) (v : Name → M) : Prop where
  result : ∀ n r x, b.MemArray.findRow n = none → b'.FedBy n r x → v n = v r + v x
  copy : ∀ n m, b.MemArray.findRow n = none → b'.CopyOf n m → v n = v m

namespace LiMBinder

/-- **The value of a pair**: its result row has the sum of the two rows. -/
theorem bindPair_value {M : Type} [AddCommMonoid M] {v : Name → M} {row1 row2 tmpName : Name}
    {b₀ bEnd : LiMBinder} (hb : b.WellFormed)
    (h : b.bindPair operation specifications row1 row2 = some (b', tmpName))
    (h₀ : b₀.Extends b) (hEnd : b'.Extends bEnd) (hv : Values b₀ bEnd v) :
    v tmpName = v row1 + v row2 := by
  obtain ⟨r, x, hfed, hsrc⟩ := fedBy_bindPair hb h
  have hnew : ∀ n, b.zeroAddr ≤ n → b₀.MemArray.findRow n = none := fun n hn =>
    h₀.findRow_none (hb.named.fresh hn)
  rcases hsrc with ⟨hrx, rfl, -⟩ | ⟨rfl, rfl, rfl, -, hcopy⟩
  · rw [hv.result _ r x (hnew _ (Nat.le_refl _)) (hfed.mono hEnd)]
    rcases hrx with ⟨rfl, rfl⟩ | ⟨rfl, rfl⟩
    · rfl
    · exact add_comm _ _
  · rw [hv.result _ b.zeroAddr x (hnew _ (Nat.le_add_right _ _)) (hfed.mono hEnd),
      hv.copy b.zeroAddr row1 (hnew _ (Nat.le_refl _)) (hcopy.mono hEnd)]

theorem connect_types_head? (row : LiMRow) (src : Name) :
    (row.connect src .OC).inputConnectionsType.head? = some .OLiM ↔
      row.inputConnectionsType.head? = some .OLiM := by
  unfold LiMRow.connect
  split
  · cases row.inputConnectionsType <;> simp
  · rfl

/-- A pair adds one result row. -/
theorem newResult_bindPair {row1 row2 tmpName : Name} {b₀ : LiMBinder} (hb : b.WellFormed)
    (h : b.bindPair operation specifications row1 row2 = some (b', tmpName)) (h₀ : b₀.Extends b)
    (n : Name) : NewResult b₀ b' n ↔ NewResult b₀ b n ∨ n = tmpName := by
  obtain ⟨w, row, other, base, t, hsite, -, hr, -⟩ := bindPair_realizes hb.freshZero hb.freshNext h
  unfold NewResult
  rw [hr.rows]
  by_cases hn : n = tmpName
  · subst hn
    simp [h₀.findRow_none hr.fresh, resultRow]
  rw [if_neg hn, or_iff_left hn, and_congr_right_iff]
  intro _
  by_cases hrow : n = row
  · rw [if_pos hrow, hrow]
    cases hr.site with
    | convert operands found =>
      rw [found]
      simp only [Option.some.injEq, exists_eq_left', connect_types_head?]
      rfl
    | mux => exact absurd rfl (way_of_site_false hsite)
    | copy =>
      rw [hb.freshZero]
      simp [LiMRow.connect]
  · rw [if_neg hrow]

/-- A run of pairs adds as many result rows as there are pairs. -/
theorem newResult_pairs {pairs : List (Name × Name)} (hb : b.WellFormed) (hop : operation ≠ .load)
    (h : run (pairStep operation specifications) b pairs = some b') :
    {n | NewResult b b' n}.Finite ∧ {n | NewResult b b' n}.ncard = pairs.length := by
  refine run_induction (P := fun pairs b' =>
    {n | NewResult b b' n}.Finite ∧ {n | NewResult b b' n}.ncard = pairs.length) ?_ ?_ h
  · have hempty : {n | NewResult b b n} = ∅ := by
      ext n
      simp only [NewResult, Set.mem_ofPred_eq, Set.mem_empty_iff_false, iff_false]
      rintro ⟨hnone, row, hrow, -⟩
      rw [hnone] at hrow
      cases hrow
    rw [hempty]
    exact ⟨Set.finite_empty, Set.ncard_empty _⟩
  · rintro pairs b₁ pair b₂ hrun ⟨hfin, hcard⟩ hstep
    obtain ⟨hb₁, he₁⟩ := wellFormed_pairs hb hop hrun
    obtain ⟨⟨b₂, tmpName⟩, hpair, rfl⟩ := Option.map_eq_some_iff.mp hstep
    have hinsert : {n | NewResult b b₂ n} = insert tmpName {n | NewResult b b₁ n} := by
      ext n
      rw [Set.mem_ofPred_eq, newResult_bindPair hb₁ hpair he₁, Set.mem_insert_iff, or_comm]
      rfl
    have hnot : tmpName ∉ {n | NewResult b b₁ n} := by
      rintro ⟨-, row, hrow, -⟩
      obtain ⟨w, r, other, base, t, -, -, hr, -⟩ := bindPair_realizes hb₁.freshZero hb₁.freshNext hpair
      rw [hr.fresh] at hrow
      cases hrow
    rw [hinsert]
    exact ⟨hfin.insert _, by rw [Set.ncard_insert_of_notMem hnot hfin, hcard, List.length_append]; rfl⟩

/-! ### The levels -/

/-- A row of the array that has a time. -/
def Timed (b : LiMBinder) (n : Name) : Prop :=
  (b.MemArray.findRow n).isSome ∧ (b.FSMLim.getTime n).isSome

instance (b : LiMBinder) (n : Name) : Decidable (b.Timed n) := by
  unfold Timed
  infer_instance

theorem Timed.nextTime {row1 row2 : Name} (h1 : b.Timed row1) (h2 : b.Timed row2) :
    (b.nextTime row1 row2).isSome := by
  obtain ⟨t1, ht1⟩ := Option.isSome_iff_exists.mp h1.2
  obtain ⟨t2, ht2⟩ := Option.isSome_iff_exists.mp h2.2
  simp only [LiMBinder.nextTime, ht1, ht2, Option.bind_eq_bind, Option.bind_some]
  rfl

theorem Extends.timed (he : b.Extends b') {n : Name} (h : b.Timed n) : b'.Timed n := by
  obtain ⟨t, ht⟩ := Option.isSome_iff_exists.mp h.2
  exact ⟨he.findRow_isSome h.1, Option.isSome_of_eq_some (he.times n t ht)⟩

/-- The result row of a pair has a time. -/
theorem timed_bindPair {row1 row2 tmpName : Name} (hb : b.WellFormed)
    (h : b.bindPair operation specifications row1 row2 = some (b', tmpName)) : b'.Timed tmpName := by
  obtain ⟨w, row, other, base, t, -, -, hr, -⟩ := bindPair_realizes hb.freshZero hb.freshNext h
  refine ⟨Option.isSome_of_eq_some hr.findRow_dest, ?_⟩
  rw [hr.times]
  exact getTime_scheduleDest_self _ _ _ _ _

/-- What the pairs of a level give: `rows` are bound to `results`, by a run of pairs. -/
structure LevelBound (operation : Operation) (specifications : List String) (b : LiMBinder)
    (rows : List Name) (b' : LiMBinder) (results : List Name) (pairs : List (Name × Name)) : Prop where
  pairs_run : run (pairStep operation specifications) b pairs = some b'
  length : pairs.length + results.length = rows.length
  timed : ∀ m ∈ results, b'.Timed m
  values : ∀ {M : Type} [AddCommMonoid M] (v : Name → M) (b₀ bEnd : LiMBinder), b₀.Extends b →
    b'.Extends bEnd → Values b₀ bEnd v → results.map v = pairSums (rows.map v)

/-- **The pairs of a level** are always bound, and add the rows two by two. -/
theorem bindPairs_bound (hop : operation ≠ .load) (specifications : List String) :
    ∀ (rows : List Name) (b : LiMBinder), b.WellFormed → (∀ m ∈ rows, b.Timed m) →
      ∃ b' results pairs, b.bindPairs operation specifications rows = some (b', results) ∧
        LevelBound operation specifications b rows b' results pairs
  | [], b, _, _ => ⟨b, [], [], rfl, rfl, rfl, by simp, fun _ _ _ _ _ _ => rfl⟩
  | [row], b, _, hrows => ⟨b, [row], [], rfl, rfl, rfl, hrows, fun _ _ _ _ _ _ => rfl⟩
  | row1 :: row2 :: rows, b, hb, hrows => by
    have h1 := hrows row1 (by simp)
    have h2 := hrows row2 (by simp)
    obtain ⟨⟨b₁, tmpName⟩, hpair⟩ := Option.isSome_iff_exists.mp
      (bindPair_isSome operation specifications hb.freshZero h1.1 h2.1 (h1.nextTime h2))
    obtain ⟨hb₁, he₁, -⟩ := wellFormed_bindPair hb hop hpair
    obtain ⟨b', results, pairs, hrest, hbound⟩ := bindPairs_bound hop specifications rows b₁ hb₁
      (fun m hm => he₁.timed (hrows m (by simp [hm])))
    have he' := (wellFormed_pairs hb₁ hop hbound.pairs_run).2
    refine ⟨b', tmpName :: results, (row1, row2) :: pairs, ?_, ?_, ?_, ?_, ?_⟩
    · rw [bindPairs]
      simp only [Option.bind_eq_bind, hpair, Option.bind_some, hrest]
      rfl
    · rw [run_cons, pairStep, hpair]
      exact hbound.pairs_run
    · have := hbound.length
      simp only [List.length_cons]
      omega
    · intro m hm
      rcases List.mem_cons.mp hm with rfl | hm
      · exact he'.timed (timed_bindPair hb hpair)
      · exact hbound.timed m hm
    · intro M _ v b₀ bEnd h₀ hEnd hv
      rw [List.map_cons, List.map_cons, List.map_cons, pairSums,
        bindPair_value hb hpair h₀ (he'.trans hEnd) hv,
        hbound.values v b₀ bEnd (h₀.trans he₁) hEnd hv]

theorem addTypes_isSome {rows : List Name} (h : ∀ m ∈ rows, (b.MemArray.findRow m).isSome) :
    (b.addTypes rows).isSome := by
  induction rows with
  | nil => rfl
  | cons m rows ih =>
    obtain ⟨row, hrow⟩ := Option.isSome_iff_exists.mp (h m (by simp))
    obtain ⟨typed, htyped⟩ := Option.isSome_iff_exists.mp (ih fun m hm => h m (by simp [hm]))
    simp only [addTypes, LiMArray.isLiMRowOfThisType, hrow, htyped, Option.bind_eq_bind, Option.bind_some]
    rfl

theorem mergeRows_perm (l₁ l₂ : List Name) : (mergeRows l₁ l₂).Perm (l₁ ++ l₂) := by
  induction l₁ generalizing l₂ with
  | nil => exact .refl _
  | cons row l₁ ih =>
    rw [mergeRows, List.cons_append]
    refine List.perm_middle.trans (.cons row ?_)
    refine (List.Perm.append_left _ (ih _)).trans (List.perm_append_comm_assoc _ _ _ |>.trans ?_)
    rw [List.takeWhile_append_dropWhile]

/-- What the levels give: the rows of `cur` and of the lists that join are bound to `last`. -/
structure LevelsBound (operation : Operation) (specifications : List String) (b : LiMBinder)
    (cur : List Name) (joining : List (List Name)) (b' : LiMBinder) (last : List Name)
    (pairs : List (Name × Name)) : Prop where
  pairs_run : run (pairStep operation specifications) b pairs = some b'
  length : pairs.length + last.length = cur.length + joining.flatten.length
  values : ∀ {M : Type} [AddCommMonoid M] (v : Name → M) (b₀ bEnd : LiMBinder), b₀.Extends b →
    b'.Extends bEnd → Values b₀ bEnd v → Levels (joining.map (List.map v)) (cur.map v) (last.map v)

/-- **The levels of the code** are the levels of a reduction; they are defined exactly when a row is
left at the end. -/
theorem bindLevels_bound (hop : operation ≠ .load) (specifications : List String) (destReg : Reg)
    (lists : ExtTreeMap ℕ (List Name)) (joining : List (List Name)) (i : ℕ) (b : LiMBinder)
    (cur : List Name) (hb : b.WellFormed) (hcur : ∀ m ∈ cur, b.Timed m)
    (hlists : ∀ j l, joining[j]? = some l → lists[i + j]? = some l)
    (hjoin : ∀ l ∈ joining, ∀ m ∈ l, b.Timed m) :
    ∃ b' last pairs, LevelsBound operation specifications b cur joining b' last pairs ∧
      bindLevels operation specifications destReg lists joining.length i b cur =
        last.head?.map (b'.addNewItem destReg) := by
  induction joining generalizing i b cur with
  | nil =>
    refine ⟨b, cur, [], ⟨rfl, by simp, fun v _ _ _ _ _ => .nil _⟩, ?_⟩
    rw [List.length_nil, bindLevels]
    cases cur <;> rfl
  | cons level joining ih =>
    have hlevel : lists[i]? = some level := by simpa using hlists 0 level rfl
    have hmerge : ∀ m ∈ mergeRows cur level, b.Timed m := by
      intro m hm
      rcases List.mem_append.mp ((mergeRows_perm cur level).mem_iff.mp hm) with hm | hm
      · exact hcur m hm
      · exact hjoin level (by simp) m hm
    obtain ⟨typed, htyped⟩ :=
      Option.isSome_iff_exists.mp (addTypes_isSome fun m hm => (hmerge m hm).1)
    obtain ⟨rows, hrows⟩ : ∃ rows, b.orderRows (mergeRows cur level) = some rows :=
      ⟨_, by simp only [orderRows, htyped]; rfl⟩
    obtain ⟨hperm, -⟩ := orderRows_eq_some hrows
    obtain ⟨b₁, results, pairs₁, hbind, hbound⟩ := bindPairs_bound hop specifications rows b hb
      (fun m hm => hmerge m (hperm.mem_iff.mp hm))
    obtain ⟨hb₁, he₁⟩ := wellFormed_pairs hb hop hbound.pairs_run
    obtain ⟨b', last, pairs₂, hlast, heq⟩ := ih (i + 1) b₁ results hb₁ hbound.timed
      (fun j l hj => by
        have := hlists (j + 1) l (by simpa using hj)
        rwa [show i + 1 + j = i + (j + 1) by omega])
      (fun l hl m hm => he₁.timed (hjoin l (by simp [hl]) m hm))
    have horder := hperm.trans (mergeRows_perm cur level)
    refine ⟨b', last, pairs₁ ++ pairs₂, ⟨?_, ?_, ?_⟩, ?_⟩
    · rw [run_append, hbound.pairs_run]
      exact hlast.pairs_run
    · have h₁ := hbound.length
      have h₂ := hlast.length
      have h₃ := horder.length_eq
      simp only [List.length_append, List.flatten_cons] at h₃ ⊢
      omega
    · intro M _ v b₀ bEnd h₀ hEnd hv
      have he' := (wellFormed_pairs hb₁ hop hlast.pairs_run).2
      have hvalues : (rows.map v).Perm (cur.map v ++ level.map v) := by
        rw [← List.map_append]
        exact horder.map v
      refine .cons hvalues ?_
      · rw [← hbound.values v b₀ bEnd h₀ (he'.trans hEnd) hv]
        exact hlast.values v b₀ bEnd (h₀.trans he₁) hEnd hv
    · rw [List.length_cons, bindLevels, hlevel]
      simp only [Option.bind_eq_bind, Option.bind_some, hrows, hbind]
      exact heq

/-! ### A set bound with no reuse -/

theorem reorganize_perm (size : ℕ) (l : List Name) : (reorganize size l).Perm l := by
  unfold reorganize
  induction List.range size using List.reverseRecOn with
  | nil => exact .refl _
  | append_singleton is i ih =>
    rw [List.foldl_append, List.foldl_cons, List.foldl_nil]
    refine List.Perm.trans ?_ ih
    split
    · split
      · next row hrow =>
        obtain ⟨hi, hget⟩ := List.getElem?_eq_some_iff.mp hrow
        rw [← hget]
        exact List.perm_append_comm.trans (List.getElem_cons_eraseIdx_perm hi)
      · exact .refl _
    · exact .refl _

/-- The levels are as many as a reduction needs. -/
theorem ceilLog2_eq_clog (n : ℕ) : ceilLog2 n = Nat.clog 2 n := by
  unfold ceilLog2
  split
  · next hn => rw [Nat.clog_of_right_le_one hn]
  · next hn =>
    rw [Nat.log2_eq_log_two]
    refine Nat.le_antisymm ?_ ?_
    · refine Nat.succ_le_of_lt (Nat.log_lt_of_lt_pow (by omega) ?_)
      have := Nat.le_pow_clog (b := 2) (by decide) n
      omega
    · rw [Nat.clog_le_iff_le_pow (by decide)]
      have := Nat.lt_pow_succ_log_self (b := 2) (by decide) (n - 1)
      omega

theorem getElem?_insertIfNew_nat {α : Type} (m : ExtTreeMap ℕ α) (k n : ℕ) (v : α) :
    (m.insertIfNew k v)[n]? = if k = n ∧ m[n]? = none then some v else m[n]? := by
  rw [ExtTreeMap.getElem?_insertIfNew]
  by_cases hk : k = n
  · subst hk
    simp only [Nat.compare_eq_eq, true_and, getElem?_eq_none_iff]
  · simp [hk]

/-- Empty lists added at the times that have none. -/
theorem getElem?_foldl_insertIfNew (is : List ℕ) (lists : ExtTreeMap ℕ (List Name)) (i : ℕ) :
    (is.foldl (fun lists i => lists.insertIfNew i []) lists)[i]? =
      if i ∈ is ∧ lists[i]? = none then some [] else lists[i]? := by
  induction is using List.reverseRecOn with
  | nil => simp
  | append_singleton is k ih =>
    rw [List.foldl_append, List.foldl_cons, List.foldl_nil, getElem?_insertIfNew_nat, ih]
    by_cases hk : k = i
    · subst hk
      by_cases hin : k ∈ is <;> by_cases hnone : lists[k]? = none <;> simp [hin, hnone]
    · simp [hk, Ne.symm hk]

/-- With no reuse the set is bound from the first level on, in another order, and nothing joins at
the levels after. -/
theorem accumulationLists_of_ne {l : List Name} (hopt : b.optTarget ≠ "Accumulation") :
    (b.accumulationLists l)[0]? = some (reorganize l.length l) ∧
      ∀ i, 1 ≤ i → i < ceilLog2 l.length → (b.accumulationLists l)[i]? = some [] := by
  have hlists : ∀ i, (b.accumulationLists l)[i]? =
      if i = 0 then some (reorganize l.length l)
      else if i < ceilLog2 l.length then some [] else none := by
    intro i
    have hzero : ((List.range' 1 (ceilLog2 l.length - 1)).foldl (fun lists i => lists.insertIfNew i [])
        (((∅ : ExtTreeMap ℕ (List Name)).insertIfNew 0 l).insertIfNew 0 l))[0]? = some l := by
      rw [getElem?_foldl_insertIfNew, getElem?_insertIfNew_nat, getElem?_insertIfNew_nat]
      simp
    simp only [accumulationLists, if_neg hopt, reuseLevels, if_true, zero_add, hzero]
    rw [ExtTreeMap.getElem?_insert, getElem?_foldl_insertIfNew]
    simp only [Nat.compare_eq_eq, getElem?_insertIfNew_nat]
    by_cases hi : i = 0
    · simp [hi]
    · simp only [hi, Ne.symm hi, List.mem_range'_1, if_false, false_and, if_false]
      by_cases hlt : i < ceilLog2 l.length
      · rw [if_pos hlt, if_pos]
        refine ⟨⟨by omega, by omega⟩, ?_⟩
        simp
      · rw [if_neg hlt, if_neg]
        · simp
        · rintro ⟨⟨-, h⟩, -⟩
          omega
  refine ⟨by rw [hlists]; rfl, fun i h1 hi => ?_⟩
  rw [hlists, if_neg (by omega), if_pos hi]

end LiMBinder

/-- A state is in order for an accumulation, wherever it is. -/
theorem BinderState.WellFormed.binder_of_any {s : BinderState} (hs : s.WellFormed) :
    s.binder.WellFormed := by
  cases htmp : s.tmpDestAddr with
  | none => exact hs.binder htmp
  | some t =>
    obtain ⟨hn, hle, ha⟩ := hs.named_of_reserved htmp
    exact ⟨hn.mono (by lia) ha, hs.loads, hs.dests⟩

/-- **An accumulation with no reuse**: a set of `n ≥ 2` rows, duplicates allowed, is bound with `n -
1` result rows to one row of the register, which has the sum of the rows of the set. -/
theorem performAccBinding_sum {par : ℤ} {optTarget : String} {actions : List BindingAction}
    {s : BinderState} {accumulationList : List Name} (ha : ∀ a ∈ actions, a.noShift)
    (hs : Reaches par optTarget actions s) (hopt : s.binder.optTarget ≠ "Accumulation")
    (hlen : 2 ≤ accumulationList.length)
    (hrows : ∀ n ∈ accumulationList, (s.binder.MemArray.findRow n).isSome)
    (specifications : List String) (destReg : Reg) :
    ∃ b' row, s.binder.performAccBinding accumulationList .add specifications destReg = some b' ∧
      (∀ reg, b'.rowsOf reg =
        if reg = destReg then s.binder.rowsOf destReg ++ [row] else s.binder.rowsOf reg) ∧
      {n | NewResult s.binder b' n}.ncard = accumulationList.length - 1 ∧
      ∀ (w : ℕ) (v : Name → BitVec w), Values s.binder b' v → v row = (accumulationList.map v).sum := by
  have hb := (wellFormed_of_reaches hs).binder_of_any
  have hr := regular_of_reaches ha hs
  have hperm := LiMBinder.reorganize_perm accumulationList.length accumulationList
  obtain ⟨hzero, hlater⟩ := LiMBinder.accumulationLists_of_ne (b := s.binder) (l := accumulationList) hopt
  obtain ⟨k, hk⟩ : ∃ k, LiMBinder.ceilLog2 accumulationList.length = k + 1 := by
    refine Nat.exists_eq_succ_of_ne_zero ?_
    rw [LiMBinder.ceilLog2, if_neg (by omega)]
    omega
  have hclog : Nat.clog 2 (LiMBinder.reorganize accumulationList.length accumulationList).length = k + 1 := by
    rw [hperm.length_eq, ← LiMBinder.ceilLog2_eq_clog, hk]
  have hlists : ∀ j l, (LiMBinder.reorganize accumulationList.length accumulationList ::
      List.replicate k [])[j]? = some l → (s.binder.accumulationLists accumulationList)[0 + j]? = some l := by
    intro j l hj
    rw [Nat.zero_add]
    cases j with
    | zero => rw [hzero, ← hj]; rfl
    | succ j =>
      rw [List.getElem?_cons_succ, List.getElem?_replicate] at hj
      split at hj
      · cases hj
        exact hlater (j + 1) (by omega) (by omega)
      · cases hj
  have hjoin : ∀ l ∈ LiMBinder.reorganize accumulationList.length accumulationList :: List.replicate k [],
      ∀ m ∈ l, s.binder.Timed m := by
    intro l hl m hm
    rcases List.mem_cons.mp hl with rfl | hl
    · have hm := hrows m (hperm.mem_iff.mp hm)
      exact ⟨hm, (hr.timed m).mp hm⟩
    · rw [List.eq_of_mem_replicate hl] at hm
      cases hm
  obtain ⟨b', last, pairs, hbound, heq⟩ := LiMBinder.bindLevels_bound
    (show Operation.add ≠ .load by decide) specifications destReg
    (s.binder.accumulationLists accumulationList)
    (LiMBinder.reorganize accumulationList.length accumulationList :: List.replicate k []) 0 s.binder []
    hb (by simp) hlists hjoin
  have hvalues : ∀ {M : Type} [AddCommMonoid M] (v : Name → M) (bEnd : LiMBinder), b'.Extends bEnd →
      Values s.binder bEnd v → last.map v = [(accumulationList.map v).sum] := by
    intro M _ v bEnd hEnd hv
    have hlevels := hbound.values v s.binder bEnd (.refl _) hEnd hv
    rw [List.map_cons, List.map_replicate, List.map_nil] at hlevels
    rw [hlevels.eq_singleton (by rw [List.length_map, hperm.length_eq]; exact hlen)
      (by rw [List.length_map]; exact hclog), (hperm.map v).sum_eq]
  -- one row is left, whatever the values are
  obtain ⟨row, rfl⟩ : ∃ row, last = [row] := by
    have hone := hvalues (fun _ => (0 : ℕ)) b' (.refl _) ⟨by simp, by simp⟩
    exact List.length_eq_one_iff.mp (by simpa using congrArg List.length hone)
  have hlength := hbound.length
  simp only [List.length_cons, List.length_nil, List.flatten_cons, List.flatten_replicate_nil,
    List.append_nil, hperm.length_eq] at hlength
  refine ⟨b'.addNewItem destReg row, row, ?_, fun reg => ?_, ?_, fun w v hv => ?_⟩
  · rw [LiMBinder.performAccBinding, if_neg (by rintro rfl; simp at hlen), hk]
    rw [List.length_cons, List.length_replicate] at heq
    exact heq
  · rw [LiMBinder.rowsOf_addNewItem]
    simp only [LiMBinder.rowsOf, (LiMBinder.frame_pairs hb (by decide) hbound.pairs_run).1]
  · have hnew := (LiMBinder.newResult_pairs hb (by decide) hbound.pairs_run).2
    show {n | NewResult s.binder b' n}.ncard = _
    omega
  · have := hvalues v (b'.addNewItem destReg row) (LiMBinder.addNewItem_extends _ _ _) hv
    simpa using this

/-- Three rows are loaded. -/
def threeLoads : List BindingAction := [.load 1 0, .load 1 0, .load 1 0]

theorem threeLoads_isSome : (run bindStep (.init 8 "") threeLoads).isSome := by decide +kernel

/-- Three rows, one of them twice, are bound with three result rows to their sum. -/
theorem performAccBinding_sum_threeLoads :
    ∃ s b' row, Reaches 8 "" threeLoads s ∧ s.binder.performAccBinding [0, 4, 8, 4] .add [] 2 = some b' ∧
      (∀ reg, b'.rowsOf reg = if reg = 2 then s.binder.rowsOf 2 ++ [row] else s.binder.rowsOf reg) ∧
      {n | NewResult s.binder b' n}.ncard = 3 ∧
      ∀ (w : ℕ) (v : Name → BitVec w), Values s.binder b' v → v row = ([0, 4, 8, 4].map v).sum := by
  obtain ⟨b', row, h⟩ := performAccBinding_sum (by decide)
    (Option.some_get threeLoads_isSome).symm (by decide +kernel)
    (show 2 ≤ ([0, 4, 8, 4] : List Name).length by decide) (by decide +kernel) [] 2
  exact ⟨_, b', row, (Option.some_get threeLoads_isSome).symm, h⟩

end Octantis
