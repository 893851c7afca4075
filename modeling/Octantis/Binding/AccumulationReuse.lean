import Octantis.Binding.AccumulationSum
import Octantis.Binding.ReuseSearch

/-!
# Accumulations with reuse

An accumulation with the optimisation target `Accumulation`: the pairs of its set
that an earlier accumulation already added are replaced with the results, and what
remains is reduced as without reuse.

## The model

The results of the earlier accumulations have the values that their rows compute:
one fed by a row of type add is a sum (`SumValues`), one fed by another row can have
any value. An entry of `addMap` holds the row that feeds the result and its logic
input (`Sums`), an invariant of every run, shifts included.

## What is proved

* `accumulationLists_of_eq`: the lists bound are the rows that remain at each level.
* `performAccBinding_levels`: the mapping after a search that keeps the rows.
* `exists_values`: values under which every row lost, and every result that is no sum,
  shows in the sum of the set.
* `performAccBinding_reuse_iff`: when an accumulation with reuse has the sum of its set.
-/

namespace Octantis

open Std Lib

variable {b b' : LiMBinder} {operation : Operation} {specifications : List String}
  {src1 src2 dest row other : Name} {w : Way} {base : LiMRow} {t : ℤ}

namespace LiMBinder

/-! ### The lists of the levels -/

/-- The lists that the search leaves: at each level the rows that join, up to the time it ends. -/
theorem reuseLevels_lists (addMap : ExtTreeMap Name (List Name)) (fuel time : ℕ) (currList : List Name)
    (lists : ExtTreeMap ℕ (List Name)) (hnone : ∀ i, time ≤ i → lists[i]? = none) :
    time ≤ (reuseLevels addMap fuel time currList lists).1 ∧
      (fuel ≠ 0 → time < (reuseLevels addMap fuel time currList lists).1) ∧
      (∀ i < time, (reuseLevels addMap fuel time currList lists).2[i]? = lists[i]?) ∧
      ∀ j l, (joinLists addMap fuel currList)[j]? = some l →
        if time + j < (reuseLevels addMap fuel time currList lists).1 then
          (reuseLevels addMap fuel time currList lists).2[time + j]? = some l
        else l = [] ∧ (reuseLevels addMap fuel time currList lists).2[time + j]? = none := by
  induction fuel generalizing time currList lists with
  | zero =>
    refine ⟨Nat.le_refl _, fun h => absurd rfl h, fun i hi => ?_, fun j l hj => ?_⟩
    · rw [reuseLevels, getElem?_insertIfNew_nat, if_neg (by omega)]
    · simp [joinLists] at hj
  | succ fuel ih =>
    have hget : ∀ i, (lists.insertIfNew time (searchLevel addMap currList).remainList)[i]? =
        if time = i then some (searchLevel addMap currList).remainList else lists[i]? := by
      intro i
      rw [getElem?_insertIfNew_nat]
      by_cases hi : time = i
      · rw [if_pos ⟨hi, hnone i (by omega)⟩, if_pos hi]
      · rw [if_neg (fun h => hi h.1), if_neg hi]
    rw [reuseLevels, joinLists]
    split
    · next hred =>
      obtain ⟨hle, -, hbelow, habove⟩ := ih (time + 1) (searchLevel addMap currList).nextList
        (lists.insertIfNew time (searchLevel addMap currList).remainList) fun i hi => by
          rw [hget, if_neg (by omega), hnone i (by omega)]
      refine ⟨by omega, fun _ => by omega, fun i hi => ?_, fun j l hj => ?_⟩
      · rw [hbelow i (by omega), hget, if_neg (by omega)]
      · cases j with
        | zero =>
          cases hj
          rw [Nat.add_zero, if_pos (by omega), hbelow time (by omega), hget, if_pos rfl]
        | succ j =>
          have := habove j l hj
          rwa [show time + 1 + j = time + (j + 1) by omega] at this
    · refine ⟨by omega, fun _ => by omega, fun i hi => ?_, fun j l hj => ?_⟩
      · rw [hget, if_neg (by omega)]
      · cases j with
        | zero =>
          cases hj
          rw [Nat.add_zero, if_pos (by omega), hget, if_pos rfl]
        | succ j =>
          rw [List.getElem?_cons_succ, List.getElem?_replicate] at hj
          split at hj
          · cases hj
            rw [if_neg (by omega), hget, if_neg (by omega)]
            exact ⟨rfl, hnone _ (by omega)⟩
          · cases hj

/-- With reuse, the lists bound are those that join, the first one in some order. -/
theorem accumulationLists_of_eq {l : List Name} (hopt : b.optTarget = "Accumulation")
    (hlen : 2 ≤ l.length) :
    ∃ lists : List (List Name), lists.length = ceilLog2 l.length ∧
      (∀ (j : ℕ) (l' : List Name), lists[j]? = some l' → (b.accumulationLists l)[j]? = some l') ∧
      List.Forall₂ List.Perm lists (joinLists b.addMap (ceilLog2 l.length) l) := by
  obtain ⟨k, hk⟩ : ∃ k, ceilLog2 l.length = k + 1 := by
    refine Nat.exists_eq_succ_of_ne_zero ?_
    rw [ceilLog2, if_neg (by omega)]
    omega
  obtain ⟨-, hpos, -, hlists⟩ := reuseLevels_lists b.addMap (k + 1) 0 l ∅ (by simp)
  have hpos := hpos (by omega)
  -- the lists before the first one is reorganised
  have hfill : ∀ (j : ℕ) (l' : List Name), (joinLists b.addMap (k + 1) l)[j]? = some l' →
      ((List.range' (reuseLevels b.addMap (k + 1) 0 l ∅).1
        (k + 1 - (reuseLevels b.addMap (k + 1) 0 l ∅).1)).foldl (fun lists i => lists.insertIfNew i [])
        (reuseLevels b.addMap (k + 1) 0 l ∅).2)[j]? = some l' := by
    intro j l' hj
    have hj' := hlists j l' hj
    rw [Nat.zero_add] at hj'
    rw [getElem?_foldl_insertIfNew]
    split at hj'
    · rw [if_neg (by simp [hj']), hj']
    · next hlt =>
      have hjlen := (List.getElem?_eq_some_iff.mp hj).1
      rw [length_joinLists] at hjlen
      rw [if_pos ⟨by rw [List.mem_range'_1]; omega, hj'.2⟩, hj'.1]
  have heq : ∀ {first rest}, joinLists b.addMap (k + 1) l = first :: rest →
      ∀ (j : ℕ) (l' : List Name), ((if first.length = l.length then reorganize l.length first else first) :: rest)[j]? = some l' →
        (b.accumulationLists l)[j]? = some l' := by
    intro first rest hjoin j l' hj
    have hfirst := hfill 0 first (by rw [hjoin]; rfl)
    simp only [accumulationLists, if_pos hopt, hk, if_neg (show (reuseLevels b.addMap (k + 1) 0 l ∅).1 ≠ 0 by
      omega), hfirst]
    cases j with
    | zero =>
      cases hj
      split
      · rw [ExtTreeMap.getElem?_insert_self]
      · exact hfirst
    | succ j =>
      have hrest := hfill (j + 1) l' (by rw [hjoin]; exact hj)
      split
      · rw [ExtTreeMap.getElem?_insert, if_neg (by simp), hrest]
      · exact hrest
  cases hjoin : joinLists b.addMap (k + 1) l with
  | nil =>
    have := length_joinLists b.addMap (k + 1) l
    rw [hjoin] at this
    simp at this
  | cons first rest =>
    have hlength := length_joinLists b.addMap (k + 1) l
    rw [hjoin] at hlength
    refine ⟨_, ?_, heq hjoin, ?_⟩
    · rw [hk, ← hlength]
      rfl
    · rw [hk, hjoin]
      refine .cons ?_ (List.forall₂_same.mpr fun _ _ => .refl _)
      split
      · exact reorganize_perm _ _
      · exact .refl _

/-! ### The entries of `addMap` -/

/-- The operands of a recorded result: the row that feeds it and the logic input of that row, both
older than the result. -/
def SumEntry (b : LiMBinder) (n : Name) (ns : List Name) : Prop :=
  b.Timed n ∧ ∃ r x, b.FedBy n r x ∧ r < n ∧ x < n ∧ (ns = [r, x] ∨ ns = [x, r])

/-- Every entry of `addMap` records the operands of its result. -/
def Sums (b : LiMBinder) : Prop := ∀ (n : Name) (ns : List Name), b.addMap[n]? = some ns → b.SumEntry n ns

theorem SumEntry.mono {n : Name} {ns : List Name} (h : b.SumEntry n ns) (he : b.Extends b') :
    b'.SumEntry n ns := by
  obtain ⟨ht, r, x, hfed, hlt⟩ := h
  exact ⟨he.timed ht, r, x, hfed.mono he, hlt⟩

theorem Sums.of_extends (h : b.Sums) (he : b.Extends b') (hsame : b'.addMap = b.addMap) : b'.Sums :=
  fun n ns hn => (h n ns (hsame ▸ hn)).mono he

theorem Sums.paired (h : b.Sums) : Paired b.addMap := by
  intro n ns hn
  obtain ⟨-, r, x, -, -, -, hns⟩ := h n ns hn
  rcases hns with rfl | rfl
  · exact ⟨r, x, rfl⟩
  · exact ⟨x, r, rfl⟩

/-- A pair of rows records its result, or nothing. -/
theorem sums_bindPair {row1 row2 tmpName : Name} (hb : b.WellFormed) (hop : operation ≠ .load)
    (hs : b.Sums) (h1 : (b.MemArray.findRow row1).isSome) (h2 : (b.MemArray.findRow row2).isSome)
    (h : b.bindPair operation specifications row1 row2 = some (b', tmpName)) : b'.Sums := by
  obtain ⟨-, he, -⟩ := wellFormed_bindPair hb hop h
  obtain ⟨r, x, hfed, hsrc⟩ := fedBy_bindPair hb h
  rcases hsrc with ⟨hrx, htmp, hadd⟩ | ⟨-, -, -, hadd, -⟩
  · intro n ns hn
    rw [hadd] at hn
    rcases getElem?_insertIfNew_eq_some hn with hold | ⟨rfl, rfl⟩
    · exact (hs n ns hold).mono he
    · have hlt1 := hb.lt_zeroAddr h1
      have hlt2 := hb.lt_zeroAddr h2
      refine ⟨timed_bindPair hb h, r, x, hfed, ?_⟩
      rw [htmp]
      rcases hrx with ⟨rfl, rfl⟩ | ⟨rfl, rfl⟩
      · exact ⟨hlt1, hlt2, .inl rfl⟩
      · exact ⟨hlt2, hlt1, .inr rfl⟩
  · exact hs.of_extends he hadd

/-- The binding of one element records no sum. -/
theorem addMap_performBinding {destReg : Reg} {junk : Indeterminate} (hn : b.Named dest)
    (hle : dest + 4 ≤ b.zeroAddr) (hl : b.LoadRows)
    (h : (b.addNewItem destReg dest).performBinding operation specifications destReg src1 src2 dest
      junk = some b') : b'.addMap = b.addMap := by
  have fresh : b.MemArray.findRow dest = none := hn.fresh (Nat.le_refl _)
  have freshZero : b.MemArray.findRow b.zeroAddr = none := hn.fresh (show dest ≤ b.zeroAddr by lia)
  rcases performBinding_cases h with
    ⟨d, -, -, rfl⟩ | ⟨d, op, -, -, -, rfl⟩ | ⟨-, -, hshift⟩ | ⟨-, -, hmap⟩
  · rw [addNewItemInRefPos_eq]
    rfl
  · rfl
  · cases mapShift_cases (b := b.addNewItem destReg dest) hl fresh freshZero hshift with
    | convert _ _ _ _ _ _ rest | copy _ _ _ _ rest =>
      rw [rest]
      rfl
  · obtain ⟨w, row, other, base, t, -, -, hrest⟩ := mapOperation_realizes (b := b.addNewItem destReg dest)
      fresh freshZero (show dest ≠ b.zeroAddr by lia) hmap
    rw [hrest]
    rfl

end LiMBinder

/-- The step rule of the entries of `addMap`. -/
theorem sums_bindStep {s s' : BinderState} {a : BindingAction} (hs : s.WellFormed) (hsums : s.binder.Sums)
    (h : bindStep s a = some s') : s'.binder.Sums := by
  have he := (wellFormed_bindStep hs h).2
  cases a with
  | load destReg ti =>
    obtain ⟨-, h⟩ := Option.ite_none_right_eq_some.mp h
    cases h
    exact hsums.of_extends he rfl
  | enter constants =>
    obtain ⟨-, h⟩ := Option.ite_none_right_eq_some.mp h
    cases h
    exact hsums
  | element operation specifications destReg src1 src2 junk =>
    obtain ⟨-, dest, b', htmp, hn, hle, -, hb', rfl⟩ := bindStep_element hs h
    have hadd := LiMBinder.addMap_performBinding hn hle hs.loads hb'
    exact hsums.of_extends he hadd
  | leave =>
    obtain ⟨-, h⟩ := Option.ite_none_right_eq_some.mp h
    cases h
    exact hsums
  | accumulate operation specifications destReg accumulationList =>
    obtain ⟨hop, hb, b', hb', rfl⟩ := bindStep_accumulate hs h
    obtain ⟨b₁, row, hsums₁, -, rfl⟩ := LiMBinder.performAccBinding_invariant (P := LiMBinder.Sums) hop
      (fun b row1 row2 b' tmpName hb hsums h1 h2 hpair => LiMBinder.sums_bindPair hb hop hsums h1 h2 hpair)
      hb hsums hb'
    exact hsums₁.of_extends (LiMBinder.addNewItem_extends _ _ _) rfl

/-- **Every entry of a reachable `addMap` records the operands of its result.** -/
theorem sums_of_reaches {par : ℤ} {optTarget : String} {actions : List BindingAction} {s : BinderState}
    (h : Reaches par optTarget actions s) : s.binder.Sums := by
  refine (run_invariant (P := fun s => s.WellFormed ∧ s.binder.Sums) (Q := fun _ => True)
    ⟨BinderState.wellFormed_init par optTarget, ?_⟩ ?_ (fun _ _ => trivial) h).2
  · intro n ns hn
    simp [BinderState.init, LiMBinder.init] at hn
  · intro s a s' _ hs hstep
    exact ⟨(wellFormed_bindStep hs.1 hstep).1, sums_bindStep hs.1 hs.2 hstep⟩

/-! ### An accumulation with reuse -/

/-- The values of the rows: those that the second state adds, and the results of the earlier
accumulations by addition. -/
structure LiMBinder.SumValues {M : Type} [Add M] (b b' : LiMBinder) (v : Name → M) : Prop
    extends Values b b' v where
  earlier : ∀ (n : Name) (ns : List Name) (r x : Name), b.addMap[n]? = some ns →
    b'.feedingType n = some .add → b'.FedBy n r x → v n = v r + v x

namespace LiMBinder

/-- The rows that join at the levels have a time. -/
theorem timed_joinLists (hsums : b.Sums) {fuel : ℕ} {l : List Name} (hl : ∀ m ∈ l, b.Timed m)
    (hkept : ∀ level ∈ searchLists b.addMap fuel l, Kept b.addMap level) :
    ∀ level ∈ joinLists b.addMap fuel l, ∀ m ∈ level, b.Timed m := by
  induction fuel generalizing l with
  | zero => simp [joinLists]
  | succ fuel ih =>
    rw [forall_searchLists_succ] at hkept
    intro level hlevel m hm
    rw [joinLists] at hlevel
    rcases List.mem_cons.mp hlevel with rfl | hlevel
    · exact hl m (hkept.1.mem_iff.mp (List.mem_append_left _ hm))
    · cases hred : (searchLevel b.addMap l).isReduceable with
      | true =>
        rw [hred, if_pos rfl] at hlevel
        refine ih (fun m hm => ?_) (hkept.2 hred) level hlevel m hm
        obtain ⟨ns, hns⟩ := exists_of_mem_nextList hm
        exact (hsums m ns hns).1
      | false =>
        rw [hred, if_neg (by decide)] at hlevel
        rw [List.eq_of_mem_replicate hlevel] at hm
        cases hm

/-- **The mapping after a search that keeps the rows**: it is the reduction of the rows that join,
and the register gets the row that is left, if there is one. -/
theorem performAccBinding_levels (hb : b.WellFormed) (hsums : b.Sums) (hop : operation ≠ .load)
    (specifications : List String) (destReg : Reg) {l : List Name} (hopt : b.optTarget = "Accumulation")
    (hlen : 2 ≤ l.length) (hl : ∀ m ∈ l, b.Timed m)
    (hkept : ∀ level ∈ searchLists b.addMap (ceilLog2 l.length) l, Kept b.addMap level) :
    ∃ b' last pairs, run (pairStep operation specifications) b pairs = some b' ∧
      b.performAccBinding l operation specifications destReg = last.head?.map (b'.addNewItem destReg) ∧
      ((∃ level ∈ searchLists b.addMap (ceilLog2 l.length) l,
        (searchLevel b.addMap level).isReduceable = false) → last.length = 1) ∧
      ((∀ level ∈ searchLists b.addMap (ceilLog2 l.length) l,
        (searchLevel b.addMap level).isReduceable = true) → last = []) ∧
      ∀ {M : Type} [AddCommMonoid M] (v : Name → M), Values b b' v →
        (last.map v).sum = (((joinLists b.addMap (ceilLog2 l.length) l).flatten).map v).sum := by
  obtain ⟨lists, hlength, hget, hperm⟩ := accumulationLists_of_eq (l := l) hopt hlen
  have hflat : lists.flatten.Perm (joinLists b.addMap (ceilLog2 l.length) l).flatten :=
    List.Perm.flatten_congr hperm
  have hlens : lists.map List.length = (joinLists b.addMap (ceilLog2 l.length) l).map List.length := by
    rw [← List.forall₂_eq_eq_eq, List.forall₂_map_left_iff, List.forall₂_map_right_iff]
    exact hperm.imp fun _ _ h => h.length_eq
  have htimed : ∀ level ∈ lists, ∀ m ∈ level, b.Timed m := by
    intro level hlevel m hm
    have hm : m ∈ lists.flatten := List.mem_flatten.mpr ⟨level, hlevel, hm⟩
    obtain ⟨level', hlevel', hm'⟩ := List.mem_flatten.mp (hflat.mem_iff.mp hm)
    exact timed_joinLists hsums hl hkept level' hlevel' m hm'
  obtain ⟨b', last, pairs, hbound, heq⟩ := bindLevels_bound hop specifications destReg
    (b.accumulationLists l) lists 0 b [] hb (by simp)
    (fun j l' hj => by rw [Nat.zero_add]; exact hget j l' hj) htimed
  have hlast : last.length =
      levelLength ((joinLists b.addMap (ceilLog2 l.length) l).map List.length) 0 := by
    have hlevels := hbound.values (fun _ => (0 : ℕ)) b b' (.refl b) (.refl b') ⟨by simp, by simp⟩
    have hlevels := hlevels.length
    rw [List.length_map, List.map_map, List.map_nil, List.length_nil] at hlevels
    rw [hlevels, ← hlens]
    congr 1
    exact List.map_congr_left fun level _ => List.length_map _
  have hpow : l.length ≤ 2 ^ ceilLog2 l.length := by
    rw [ceilLog2_eq_clog]
    exact Nat.le_pow_clog (by decide) _
  obtain ⟨hone, hzero⟩ :=
    levelLength_joinLists (n := 0) hsums.paired hkept (by omega) (by omega)
  refine ⟨b', last, pairs, hbound.pairs_run, ?_, fun hstop => ?_, fun hall => ?_, fun v hv => ?_⟩
  · rw [performAccBinding, if_neg (by rintro rfl; simp at hlen), ← hlength]
    exact heq
  · rw [hlast, hone hstop]
  · rw [← List.length_eq_zero_iff, hlast]
    exact hzero hall (by rintro rfl; simp at hlen)
  · have hsum := (hbound.values v b b' (.refl b) (.refl b') hv).sum
    rw [hsum, List.map_nil, List.sum_nil, zero_add, ← List.map_flatten, (hflat.map v).sum_eq]

/-! ### Values that tell a row lost -/

/-- The rows whose values a row has the sum of, when its value is known. -/
inductive Parts (b b' : LiMBinder) : Name → List Name → Prop where
  | fed {n r x : Name} (h : b'.FedBy n r x) (hr : r < n) (hx : x < n)
      (known : b.MemArray.findRow n = none ∨
        (∃ ns, b.addMap[n]? = some ns) ∧ b'.feedingType n = some .add) :
      Parts b b' n [r, x]
  | copied {n m : Name} (h : b'.CopyOf n m) (hm : m < n) (new : b.MemArray.findRow n = none) :
      Parts b b' n [m]

theorem Parts.unique {n : Name} {ps ps' : List Name} (h : Parts b b' n ps) (h' : Parts b b' n ps') :
    ps = ps' := by
  cases h with
  | fed hfed =>
    cases h' with
    | fed hfed' =>
      obtain ⟨rfl, rfl⟩ := hfed.unique hfed'
      rfl
    | copied hcopy => exact absurd hcopy hfed.not_copyOf
  | copied hcopy =>
    cases h' with
    | fed hfed => exact absurd hcopy hfed.not_copyOf
    | copied hcopy' => rw [hcopy.unique hcopy']

/-- **Values that tell a row lost**: all positive, and 1 for the result of another operation than
the addition. -/
theorem exists_values (hsums : b.Sums) (he : b.Extends b')
    (hnew : ∀ n, b.MemArray.findRow n = none → (b'.MemArray.findRow n).isSome → b'.Derived n) :
    ∃ v : Name → ℕ, SumValues b b' v ∧ (∀ n, 1 ≤ v n) ∧
      ∀ (n : Name) (ns : List Name), b.addMap[n]? = some ns → b'.feedingType n ≠ some .add → v n = 1 := by
  classical
  obtain ⟨parts, hparts⟩ : ∃ parts : ℕ → Option (List ℕ), ∀ n ps, parts n = some ps ↔ Parts b b' n ps := by
    refine ⟨fun n => if h : ∃ ps, Parts b b' n ps then some h.choose else none, fun n ps => ?_⟩
    simp only
    split
    · next h =>
      rw [Option.some.injEq]
      exact ⟨fun heq => heq ▸ h.choose_spec, fun hps => h.choose_spec.unique hps⟩
    · next h => exact iff_of_false (by simp) fun hps => h ⟨ps, hps⟩
  have hlt : ∀ n ps, parts n = some ps → ps ≠ [] ∧ ∀ p ∈ ps, p < n := by
    intro n ps hps
    cases (hparts n ps).mp hps with
    | fed h hr hx known => exact ⟨by simp, by simp [hr, hx]⟩
    | copied h hm new => exact ⟨by simp, by simp [hm]⟩
  have hvalue : ∀ n ps, Parts b b' n ps → weight parts n = (ps.map (weight parts)).sum := by
    intro n ps hps
    have hps := (hparts n ps).mpr hps
    exact weight_of_some hps (hlt n ps hps).2
  refine ⟨weight parts, ⟨⟨fun n r x hnone hfed => ?_, fun n m hnone hcopy => ?_⟩,
    fun n ns r x hn hadd hfed => ?_⟩, one_le_weight hlt, fun n ns hn hadd => ?_⟩
  · rcases hnew n hnone hfed.isSome with ⟨r', x', hfed', hr, hx⟩ | ⟨m, hcopy, -⟩
    · obtain ⟨rfl, rfl⟩ := hfed.unique hfed'
      rw [hvalue n _ (.fed hfed hr hx (.inl hnone))]
      simp
    · exact absurd hcopy hfed.not_copyOf
  · rcases hnew n hnone hcopy.isSome with ⟨r', x', hfed', -⟩ | ⟨m', hcopy', hm⟩
    · exact absurd hcopy hfed'.not_copyOf
    · rw [← hcopy.unique hcopy'] at hm
      rw [hvalue n _ (.copied hcopy hm hnone)]
      simp
  · obtain ⟨-, r', x', hfed', hr, hx, -⟩ := hsums n ns hn
    obtain ⟨rfl, rfl⟩ := hfed.unique (hfed'.mono he)
    rw [hvalue n _ (.fed hfed hr hx (.inr ⟨⟨ns, hn⟩, hadd⟩))]
    simp
  · refine weight_of_none ?_
    by_contra hne
    obtain ⟨ps, hps⟩ := Option.ne_none_iff_exists'.mp hne
    have hfound := (hsums n ns hn).1.1
    cases (hparts n ps).mp hps with
    | fed h hr hx known =>
      rcases known with hnone | ⟨-, hadd'⟩
      · rw [hnone] at hfound
        cases hfound
      · exact hadd hadd'
    | copied h hm hnone =>
      rw [hnone] at hfound
      cases hfound

/-! ### The sum of an accumulation with reuse -/

/-- The register gets one row, which has the sum of the rows of the set. -/
def Accumulates (b : LiMBinder) (l : List Name) (specifications : List String) (destReg : Reg) : Prop :=
  ∃ b' row, b.performAccBinding l .add specifications destReg = some b' ∧
    (∀ reg, b'.rowsOf reg = if reg = destReg then b.rowsOf destReg ++ [row] else b.rowsOf reg) ∧
    ∀ (w : ℕ) (v : Name → BitVec w), SumValues b b' v → v row = (l.map v).sum

theorem ofNat_sum (w : ℕ) (v : Name → ℕ) (l : List Name) :
    (l.map fun n => BitVec.ofNat w (v n)).sum = BitVec.ofNat w (l.map v).sum := by
  induction l with
  | nil => rfl
  | cons n l ih => rw [List.map_cons, List.sum_cons, ih, List.map_cons, List.sum_cons, BitVec.ofNat_add]

/-- Values in `ℕ` are values of every width. -/
theorem SumValues.ofNat {v : Name → ℕ} (h : SumValues b b' v) (w : ℕ) :
    SumValues b b' fun n => BitVec.ofNat w (v n) where
  result n r x hn hfed := by rw [h.result n r x hn hfed, BitVec.ofNat_add]
  copy n m hn hcopy := by rw [h.copy n m hn hcopy]
  earlier n ns r x hn hadd hfed := by rw [h.earlier n ns r x hn hadd hfed, BitVec.ofNat_add]

/-- The result of an earlier addition has the sum of its operands. -/
theorem SumValues.operandsOf {M : Type} [AddCommMonoid M] {v : Name → M} (hv : SumValues b b' v)
    (hsums : b.Sums) (he : b.Extends b') {m : Name} {ns : List Name} (hns : b.addMap[m]? = some ns)
    (hadd : b'.feedingType m = some .add) : v m = ((operandsOf b.addMap m).map v).sum := by
  obtain ⟨-, r, x, hfed, -, -, hrx⟩ := hsums m ns hns
  rw [LiMBinder.operandsOf, hns, hv.earlier m ns r x hns hadd (hfed.mono he)]
  rcases hrx with rfl | rfl
  · simp
  · simp [add_comm]

/-- The type of the row that feeds a recorded result is kept. -/
theorem feedingType_of_sum (hsums : b.Sums) (hl : b.LoadRows) (he : b.Extends b') {m : Name}
    {ns : List Name} (hns : b.addMap[m]? = some ns) : b'.feedingType m = b.feedingType m := by
  obtain ⟨-, r, x, ⟨row, rRow, hrow, htype, hr, hrRow, hx⟩, -⟩ := hsums m ns hns
  have hload : rRow.rowType ≠ .load := by
    intro hload
    obtain ⟨m', hm'⟩ := List.length_eq_one_iff.mp (hl r rRow hrRow hload).2
    rw [LiMRow.logicInputs, hm'] at hx
    cases hx
  have hfeed : b.feedingType m = some rRow.rowType := by
    simp only [feedingType, Option.bind_eq_bind, hrow, Option.bind_some, hr, hrRow]
    rfl
  rw [hfeed, he.feedingType hload hfeed]

/-- A result of another operation that is reused is told by some values. -/
theorem exists_sum_lt (hsums : b.Sums) (hl : b.LoadRows) (he : b.Extends b')
    (hnew : ∀ n, b.MemArray.findRow n = none → (b'.MemArray.findRow n).isSome → b'.Derived n)
    {fuel : ℕ} {l level : List Name} {m : Name}
    (hkept : ∀ level ∈ searchLists b.addMap fuel l, Kept b.addMap level)
    (hstop : ∃ level ∈ searchLists b.addMap fuel l, (searchLevel b.addMap level).isReduceable = false)
    (hlevel : level ∈ searchLists b.addMap fuel l) (hm : m ∈ (searchLevel b.addMap level).nextList)
    (hbad : b.feedingType m ≠ some .add) :
    ∃ v : Name → ℕ, SumValues b b' v ∧
      ((joinLists b.addMap fuel l).flatten.map v).sum < (l.map v).sum := by
  obtain ⟨v, hv, hpos, hone⟩ := exists_values hsums he hnew
  have htwo : ∀ n ns, b.addMap[n]? = some ns → 2 ≤ ((operandsOf b.addMap n).map v).sum := by
    intro n ns hns
    obtain ⟨p, q, rfl⟩ := hsums.paired n ns hns
    have := hpos p
    have := hpos q
    rw [operandsOf, hns]
    simp only [Option.getD_some, List.map_cons, List.map_nil, List.sum_cons, List.sum_nil]
    omega
  have hlack : ∀ level ∈ searchLists b.addMap fuel l, ∀ n ∈ (searchLevel b.addMap level).nextList,
      v n + (((operandsOf b.addMap n).map v).sum - v n) = ((operandsOf b.addMap n).map v).sum := by
    intro level _ n hn
    obtain ⟨ns, hns⟩ := exists_of_mem_nextList hn
    by_cases hadd : b'.feedingType n = some .add
    · have := hv.operandsOf hsums he hns hadd
      omega
    · have := hone n ns hns hadd
      have := htwo n ns hns
      omega
  refine ⟨v, hv, ?_⟩
  rw [sum_joinLists hkept hlack hstop]
  refine Nat.lt_add_of_pos_right ?_
  obtain ⟨ns, hns⟩ := exists_of_mem_nextList hm
  have hvalue := hone m ns hns (by rw [feedingType_of_sum hsums hl he hns]; exact hbad)
  have hsum := htwo m ns hns
  refine List.sum_pos_iff_exists_pos_nat.mpr ⟨_, List.mem_map_of_mem hlevel, ?_⟩
  refine List.sum_pos_iff_exists_pos_nat.mpr ⟨_, List.mem_map_of_mem hm, ?_⟩
  omega

end LiMBinder

/-- **An accumulation with reuse** gives the register the sum of its set, and replaces pairs without
losing or duplicating a row, exactly when every iteration of the search is harmless, every result it
reuses comes from an addition, and some level finds no pair. -/
theorem performAccBinding_reuse_iff {par : ℤ} {optTarget : String} {actions : List BindingAction}
    {s : BinderState} {accumulationList : List Name} (hs : Reaches par optTarget actions s)
    (hopt : s.binder.optTarget = "Accumulation") (hlen : 2 ≤ accumulationList.length)
    (hrows : ∀ n ∈ accumulationList, s.binder.Timed n) (specifications : List String) (destReg : Reg) :
    (s.binder.Accumulates accumulationList specifications destReg ∧
      ∀ level ∈ LiMBinder.searchLists s.binder.addMap (LiMBinder.ceilLog2 accumulationList.length)
        accumulationList, LiMBinder.Kept s.binder.addMap level) ↔
    (∀ level ∈ LiMBinder.searchLists s.binder.addMap (LiMBinder.ceilLog2 accumulationList.length)
        accumulationList, LiMBinder.Harmless s.binder.addMap level ∧
      ∀ m ∈ (LiMBinder.searchLevel s.binder.addMap level).nextList, s.binder.feedingType m = some .add) ∧
    ∃ level ∈ LiMBinder.searchLists s.binder.addMap (LiMBinder.ceilLog2 accumulationList.length)
        accumulationList, (LiMBinder.searchLevel s.binder.addMap level).isReduceable = false := by
  have hwf := wellFormed_of_reaches hs
  have hb := hwf.binder_of_any
  have hsums := sums_of_reaches hs
  constructor
  · rintro ⟨⟨b', row, hacc, hregs, hvalue⟩, hkept⟩
    obtain ⟨b₁, last, pairs, hrun, heq, hone, hnil, hsum⟩ := LiMBinder.performAccBinding_levels hb hsums
      (show Operation.add ≠ .load by decide) specifications destReg hopt hlen hrows hkept
    rw [hacc] at heq
    -- a row is left, so some level finds no pair
    have hstop : ∃ level ∈ LiMBinder.searchLists s.binder.addMap
        (LiMBinder.ceilLog2 accumulationList.length) accumulationList,
        (LiMBinder.searchLevel s.binder.addMap level).isReduceable = false := by
      by_contra hnone
      have hall := hnil fun level hlevel => by
        by_contra hfalse
        exact hnone ⟨level, hlevel, Bool.eq_false_iff.mpr hfalse⟩
      rw [hall] at heq
      cases heq
    refine ⟨fun level hlevel => ⟨(LiMBinder.kept_iff_harmless hsums.paired level).mp (hkept level hlevel),
      ?_⟩, hstop⟩
    by_contra hbad
    obtain ⟨m, hbad⟩ := not_forall.mp hbad
    obtain ⟨hm, hbad⟩ := Classical.not_imp.mp hbad
    have hext : s.binder.Extends b' ∧ _ := LiMBinder.derived_performAccBinding hb (by decide) hacc
    obtain ⟨v, hv, hlt⟩ := LiMBinder.exists_sum_lt hsums hwf.loads hext.1 hext.2 hkept hstop hlevel hm hbad
    obtain ⟨row', rfl⟩ := List.length_eq_one_iff.mp (hone hstop)
    obtain rfl : b' = b₁.addNewItem destReg row' := Option.some.inj heq
    obtain rfl : row = row' := by
      have hreg := hregs destReg
      rw [if_pos rfl, LiMBinder.rowsOf_addNewItem, if_pos rfl, LiMBinder.rowsOf,
        (LiMBinder.frame_pairs hb (by decide) hrun).1] at hreg
      exact (List.singleton_inj.mp (List.append_cancel_left hreg)).symm
    have hrow := hsum v ⟨hv.result, hv.copy⟩
    rw [List.map_singleton, List.sum_singleton] at hrow
    -- a width at which the sum of the set does not overflow
    have hword := hvalue _ _ (hv.ofNat (accumulationList.map v).sum)
    rw [LiMBinder.ofNat_sum] at hword
    have hword := congrArg BitVec.toNat hword
    rw [BitVec.toNat_ofNat, BitVec.toNat_ofNat, Nat.mod_eq_of_lt Nat.lt_two_pow_self,
      Nat.mod_eq_of_lt (Nat.lt_trans (hrow ▸ hlt) Nat.lt_two_pow_self), hrow] at hword
    exact Nat.ne_of_lt hlt hword
  · rintro ⟨hcond, hstop⟩
    have hkept : ∀ level ∈ LiMBinder.searchLists s.binder.addMap
        (LiMBinder.ceilLog2 accumulationList.length) accumulationList,
        LiMBinder.Kept s.binder.addMap level := fun level hlevel =>
      (LiMBinder.kept_iff_harmless hsums.paired level).mpr (hcond level hlevel).1
    refine ⟨?_, hkept⟩
    obtain ⟨b₁, last, pairs, hrun, heq, hone, -, hsum⟩ := LiMBinder.performAccBinding_levels hb hsums
      (show Operation.add ≠ .load by decide) specifications destReg hopt hlen hrows hkept
    obtain ⟨row, rfl⟩ := List.length_eq_one_iff.mp (hone hstop)
    have he := (LiMBinder.wellFormed_pairs hb (by decide) hrun).2
    refine ⟨b₁.addNewItem destReg row, row, heq, fun reg => ?_, fun w v hv => ?_⟩
    · rw [LiMBinder.rowsOf_addNewItem]
      simp only [LiMBinder.rowsOf, (LiMBinder.frame_pairs hb (by decide) hrun).1]
    · have hv' : ∀ level ∈ LiMBinder.searchLists s.binder.addMap
          (LiMBinder.ceilLog2 accumulationList.length) accumulationList,
          ∀ m ∈ (LiMBinder.searchLevel s.binder.addMap level).nextList,
            v m + (fun _ => 0) m = ((LiMBinder.operandsOf s.binder.addMap m).map v).sum := by
        intro level hlevel m hm
        obtain ⟨ns, hns⟩ := LiMBinder.exists_of_mem_nextList hm
        have hext := he.trans (LiMBinder.addNewItem_extends b₁ destReg row)
        rw [add_zero]
        exact hv.operandsOf hsums hext hns
          (hext.feedingType (by decide) ((hcond level hlevel).2 m hm))
      have hlist := LiMBinder.sum_joinLists hkept hv' hstop
      have hrow := hsum v ⟨hv.result, hv.copy⟩
      rw [List.map_singleton, List.sum_singleton] at hrow
      rw [hrow, hlist]
      simp

/-- Three rows are loaded, and the first two are accumulated. -/
def accumulatedPair : List BindingAction :=
  [.load 1 0, .load 1 0, .load 1 0, .accumulate .add [] 2 [0, 4]]

theorem accumulatedPair_isSome : (run bindStep (.init 8 "Accumulation") accumulatedPair).isSome := by
  decide +kernel

/-- The sum of two of three rows is reused. -/
theorem performAccBinding_reuse_iff_accumulatedPair :
    ∃ s, Reaches 8 "Accumulation" accumulatedPair s ∧ s.binder.Accumulates [0, 4, 8] [] 3 ∧
      ∀ level ∈ LiMBinder.searchLists s.binder.addMap 2 [0, 4, 8], LiMBinder.Kept s.binder.addMap level := by
  have h := (performAccBinding_reuse_iff (Option.some_get accumulatedPair_isSome).symm
    (by decide +kernel) (show 2 ≤ ([0, 4, 8] : List Name).length by decide)
    (by decide +kernel) [] 3).mpr (by decide +kernel)
  exact ⟨_, (Option.some_get accumulatedPair_isSome).symm, h⟩

/-- The same two rows accumulated again: every pair is available, no row is left to be bound, and
the front of an empty list is taken. -/
theorem repeated_pair_not_accumulated :
    ∃ s, Reaches 8 "Accumulation" accumulatedPair s ∧ s.binder.optTarget = "Accumulation" ∧
      (∀ n ∈ [0, 4], s.binder.Timed n) ∧ s.binder.performAccBinding [0, 4] .add [] 3 = none ∧
      ¬ s.binder.Accumulates [0, 4] [] 3 := by
  have hnone : (((run bindStep (.init 8 "Accumulation") accumulatedPair).get
      accumulatedPair_isSome).binder.performAccBinding [0, 4] .add [] 3).isNone := by decide +kernel
  have hnone := Option.isNone_iff_eq_none.mp hnone
  refine ⟨_, (Option.some_get accumulatedPair_isSome).symm, by decide +kernel, by decide +kernel, hnone, ?_⟩
  rintro ⟨b', row, hacc, -⟩
  rw [hnone] at hacc
  cases hacc

end Octantis
