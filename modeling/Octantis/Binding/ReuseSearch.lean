import Octantis.Lib.Reduction
import Octantis.Binding.Accumulation

/-!
# The reuse search of an accumulation

A level of the search replaces pairs of rows with the results that add them. The
rows it has dealt with at an index are those that remain, the operands of the
results found and the rows from the index on (`accounted`); the search is right
when these stay the rows of the list (`Kept`).

## The model

`currList.remove(*it2)` removes every row equal to the second one of the pair, and
the index moves on in the shortened list, so a row can be lost in two ways: as
another copy of the one removed, or skipped.

## What is proved

* `kept_iff_harmless`: a level keeps the rows of its list exactly when each pair it
  finds has a second row that occurs once, or is the last two rows of the list.
* `sum_joinLists`, `levelLength_joinLists`: what is left to bind after the search has
  the sum of the list, and is reduced to one row unless every level finds a pair.
-/

namespace Octantis

open Std

namespace LiMBinder

variable {addMap : ExtTreeMap Name (List Name)} {s : Search} {k : ℕ}

/-- The rows that an available result adds. -/
def operandsOf (addMap : ExtTreeMap Name (List Name)) (result : Name) : List Name :=
  addMap[result]?.getD []

/-- Every entry of the map has two operands. -/
def Paired (addMap : ExtTreeMap Name (List Name)) : Prop :=
  ∀ (n : Name) (ns : List Name), addMap[n]? = some ns → ∃ p q, ns = [p, q]

/-- The state of the search before an index. -/
def searchUpTo (addMap : ExtTreeMap Name (List Name)) (currList : List Name) (k : ℕ) : Search :=
  (List.range k).foldl (searchIndex addMap) ⟨currList, [], [], false⟩

theorem searchLevel_eq (addMap : ExtTreeMap Name (List Name)) (currList : List Name) :
    searchLevel addMap currList = searchUpTo addMap currList currList.length := rfl

theorem searchUpTo_succ (addMap : ExtTreeMap Name (List Name)) (currList : List Name) (k : ℕ) :
    searchUpTo addMap currList (k + 1) = searchIndex addMap (searchUpTo addMap currList k) k := by
  rw [searchUpTo, List.range_succ, List.foldl_append]
  rfl

/-- The search of a level neither loses nor duplicates a row: those of its list are those that
remain and the operands of the results. -/
def Kept (addMap : ExtTreeMap Name (List Name)) (currList : List Name) : Prop :=
  ((searchLevel addMap currList).remainList ++
    (searchLevel addMap currList).nextList.flatMap (operandsOf addMap)).Perm currList

/-- An iteration leaves the other rows in their places: the second row of the pair it finds occurs
once in the list, or the pair is the last two rows of the list; if these are equal, the result adds
the row to itself. -/
def Search.Harmless (addMap : ExtTreeMap Name (List Name)) (s : Search) (k : ℕ) : Prop :=
  match s.currList.drop k with
  | [] => True
  | row :: rest =>
    match findPartner addMap row rest with
    | none => True
    | some (other, result) =>
      s.currList.count other = 1 ∨
        rest = [other] ∧ (row = other → addMap[result]? = some [row, row])

instance (addMap : ExtTreeMap Name (List Name)) (s : Search) (k : ℕ) :
    Decidable (s.Harmless addMap k) := by
  unfold Search.Harmless
  split
  · infer_instance
  · split <;> infer_instance

theorem Search.harmless_iff : s.Harmless addMap k ↔
    ∀ row rest other result, s.currList.drop k = row :: rest →
      findPartner addMap row rest = some (other, result) →
      s.currList.count other = 1 ∨
        rest = [other] ∧ (row = other → addMap[result]? = some [row, row]) := by
  unfold Harmless
  split
  · next hdrop => simp [hdrop]
  · next row rest hdrop =>
    split
    · next hfind =>
      refine iff_of_true trivial fun row' rest' other result hdrop' hfind' => ?_
      rw [hdrop] at hdrop'
      cases hdrop'
      rw [hfind] at hfind'
      cases hfind'
    · next other result hfind =>
      refine ⟨fun h row' rest' other' result' hdrop' hfind' => ?_,
        fun h => h row rest other result hdrop hfind⟩
      rw [hdrop] at hdrop'
      cases hdrop'
      rw [hfind] at hfind'
      cases hfind'
      exact h

/-- Every iteration of a level is harmless. -/
def Harmless (addMap : ExtTreeMap Name (List Name)) (currList : List Name) : Prop :=
  ∀ k < currList.length, (searchUpTo addMap currList k).Harmless addMap k

instance (addMap : ExtTreeMap Name (List Name)) (currList : List Name) :
    Decidable (Harmless addMap currList) := by
  unfold Harmless
  infer_instance

/-! ### The pairs found -/

theorem findPartner_eq_some {row other result : Name} {rest : List Name}
    (h : findPartner addMap row rest = some (other, result)) :
    other ∈ rest ∧ searchForResult addMap row other = some result := by
  induction rest with
  | nil => cases h
  | cons m rest ih =>
    rw [findPartner] at h
    split at h
    · next r hr =>
      cases h
      exact ⟨by simp, hr⟩
    · obtain ⟨hmem, hr⟩ := ih h
      exact ⟨by simp [hmem], hr⟩

theorem searchForResult_eq_some {row other result : Name}
    (h : searchForResult addMap row other = some result) :
    ∃ ns, addMap[result]? = some ns ∧ adds row other ns = true := by
  obtain ⟨⟨n, ns⟩, hfind, rfl⟩ := Option.map_eq_some_iff.mp h
  have hadds := List.find?_some hfind
  refine ⟨ns, ?_, hadds⟩
  exact ExtTreeMap.mem_toList_iff_getElem?_eq_some.mp (List.mem_of_find?_eq_some hfind)

/-- A result found for two distinct rows adds these. -/
theorem operandsOf_perm (hpaired : Paired addMap) {row other result : Name} (hne : row ≠ other)
    (h : searchForResult addMap row other = some result) :
    (operandsOf addMap result).Perm [row, other] := by
  obtain ⟨ns, hns, hadds⟩ := searchForResult_eq_some h
  obtain ⟨p, q, rfl⟩ := hpaired result ns hns
  rw [operandsOf, hns, Option.getD_some]
  simp only [adds, List.head?_cons, Option.some.injEq, List.getLast?_cons_cons, List.getLast?_singleton,
    Bool.or_eq_true, decide_eq_true_eq, Bool.and_eq_true] at hadds
  obtain ⟨h1, h2⟩ := hadds
  rcases h1 with rfl | rfl
  · rcases h2 with rfl | rfl
    · exact absurd rfl hne
    · exact .refl _
  · rcases h2 with rfl | rfl
    · exact .swap _ _ _
    · exact absurd rfl hne

theorem length_operandsOf (hpaired : Paired addMap) {row other result : Name}
    (h : searchForResult addMap row other = some result) : (operandsOf addMap result).length = 2 := by
  obtain ⟨ns, hns, -⟩ := searchForResult_eq_some h
  obtain ⟨p, q, rfl⟩ := hpaired result ns hns
  rw [operandsOf, hns]
  rfl

/-! ### One iteration -/

/-- What an iteration does. -/
theorem searchIndex_cases (addMap : ExtTreeMap Name (List Name)) (s : Search) (k : ℕ) :
    s.currList.drop k = [] ∧ searchIndex addMap s k = s ∨
    (∃ row rest, s.currList.drop k = row :: rest ∧ findPartner addMap row rest = none ∧
      searchIndex addMap s k = { s with remainList := s.remainList ++ [row] }) ∨
    ∃ row rest other result, s.currList.drop k = row :: rest ∧
      findPartner addMap row rest = some (other, result) ∧
      searchIndex addMap s k = { s with
        currList := s.currList.filter (· ≠ other)
        nextList := s.nextList ++ [result]
        isReduceable := true } := by
  unfold searchIndex
  cases hdrop : s.currList.drop k with
  | nil => exact .inl ⟨rfl, rfl⟩
  | cons row rest =>
    cases hfind : findPartner addMap row rest with
    | none => exact .inr (.inl ⟨row, rest, rfl, hfind, by simp [hfind]⟩)
    | some found => exact .inr (.inr ⟨row, rest, found.1, found.2, rfl, hfind, by simp [hfind]⟩)

/-- The rows dealt with before an index, and those from it on. -/
def accounted (addMap : ExtTreeMap Name (List Name)) (s : Search) (k : ℕ) : List Name :=
  s.remainList ++ s.nextList.flatMap (operandsOf addMap) ++ s.currList.drop k

/-- The rows of a list that come before an index, when there is a row there. -/
theorem take_append_cons {l : List Name} {row : Name} {rest : List Name} (h : l.drop k = row :: rest) :
    l = l.take k ++ row :: rest ∧ (l.take k).length = k := by
  refine ⟨by rw [← h, List.take_append_drop], ?_⟩
  have hlt : k < l.length := by
    by_contra hk
    rw [List.drop_eq_nil_of_le (by omega)] at h
    cases h
  rw [List.length_take]
  omega

/-- A row that occurs once is the only one that `remove` takes. -/
theorem perm_cons_filter {l : List Name} {other : Name} (h : l.count other = 1) :
    (other :: l.filter (· ≠ other)).Perm l := by
  refine List.perm_iff_count.mpr fun m => ?_
  by_cases hm : m = other
  · subst hm
    rw [h, List.count_cons_self, List.count_eq_zero_of_not_mem (by simp)]
  · rw [List.count_cons_of_ne (Ne.symm hm), List.count_filter (by simpa using hm)]

/-- **A harmless iteration keeps the rows.** -/
theorem accounted_searchIndex (hpaired : Paired addMap) (h : s.Harmless addMap k) :
    (accounted addMap (searchIndex addMap s k) (k + 1)).Perm (accounted addMap s k) := by
  rcases searchIndex_cases addMap s k with
    ⟨hdrop, hs⟩ | ⟨row, rest, hdrop, hfind, hs⟩ | ⟨row, rest, other, result, hdrop, hfind, hs⟩
  · rw [hs, accounted, accounted, ← List.drop_drop, hdrop, List.drop_nil]
  · rw [hs, accounted, accounted, ← List.drop_drop, hdrop]
    simp only [List.drop_succ_cons, List.drop_zero, List.append_assoc, List.singleton_append]
    exact .append_left _ List.perm_middle.symm
  · obtain ⟨hmem, hresult⟩ := findPartner_eq_some hfind
    obtain ⟨hl, hlen⟩ := take_append_cons hdrop
    -- the operands of the result take the places of the two rows
    have hgoal : ∀ rest', (operandsOf addMap result ++ rest').Perm (row :: rest) →
        (s.currList.filter (· ≠ other)).drop (k + 1) = rest' →
        (accounted addMap (searchIndex addMap s k) (k + 1)).Perm (accounted addMap s k) := by
      rintro rest' hperm rfl
      rw [hs, accounted, accounted, hdrop]
      simp only [List.flatMap_append, List.flatMap_singleton, List.append_assoc]
      exact .append_left _ (.append_left _ hperm)
    rcases Search.harmless_iff.mp h row rest other result hdrop hfind with hcount | ⟨rfl, hself⟩
    · rw [hl, List.count_append, List.count_cons] at hcount
      have hpos := List.count_pos_iff.mpr hmem
      have hne : row ≠ other := by
        rintro rfl
        simp at hcount
        omega
      have htake : (s.currList.take k).count other = 0 := by omega
      have hrest : rest.count other = 1 := by
        simp only [beq_iff_eq, hne, if_false] at hcount
        omega
      refine hgoal (rest.filter (· ≠ other)) ?_ ?_
      · refine ((operandsOf_perm hpaired hne hresult).append_right _).trans ?_
        exact .cons row (perm_cons_filter hrest)
      · have hkeep : (s.currList.take k).filter (· ≠ other) = s.currList.take k := by
          refine List.filter_eq_self.mpr fun m hm => ?_
          rw [decide_eq_true_eq]
          rintro rfl
          exact List.count_eq_zero.mp htake hm
        rw [hl, List.filter_append, hkeep, List.filter_cons_of_pos (by simpa using hne)]
        rw [← List.drop_drop, List.drop_left' hlen]
        rfl
    · refine hgoal [] ?_ ?_
      · rw [List.append_nil]
        by_cases heq : row = other
        · rw [operandsOf, hself heq, heq]
          rfl
        · exact operandsOf_perm hpaired heq hresult
      · refine List.drop_eq_nil_of_le ?_
        have hlt : (s.currList.filter (· ≠ other)).length < s.currList.length :=
          List.length_filter_lt_length_iff_exists.mpr
            ⟨other, by rw [hl]; simp, by simp⟩
        rw [hl, List.length_append, hlen] at hlt
        simp only [List.length_cons, List.length_nil] at hlt
        rw [hl]
        omega

/-- No iteration adds rows; one that is not harmless loses some, or adds the wrong row to itself at
the end of the list. -/
theorem length_accounted_searchIndex (hpaired : Paired addMap) (s : Search) (k : ℕ) :
    (accounted addMap (searchIndex addMap s k) (k + 1)).length ≤ (accounted addMap s k).length ∧
      (¬ s.Harmless addMap k →
        (accounted addMap (searchIndex addMap s k) (k + 1)).length < (accounted addMap s k).length ∨
        ∃ row result, addMap[result]? ≠ some [row, row] ∧ s.currList.drop k = [row, row] ∧
          (searchIndex addMap s k).currList.drop (k + 1) = [] ∧
          (searchIndex addMap s k).remainList = s.remainList ∧
          (searchIndex addMap s k).nextList = s.nextList ++ [result]) := by
  rcases searchIndex_cases addMap s k with
    ⟨hdrop, hs⟩ | ⟨row, rest, hdrop, hfind, hs⟩ | ⟨row, rest, other, result, hdrop, hfind, hs⟩
  · refine ⟨?_, fun h => absurd ?_ h⟩
    · rw [hs, accounted, accounted, ← List.drop_drop, hdrop, List.drop_nil]
    · refine Search.harmless_iff.mpr fun row rest other result hdrop' => ?_
      rw [hdrop] at hdrop'
      cases hdrop'
  · refine ⟨?_, fun h => absurd ?_ h⟩
    · rw [hs, accounted, accounted, ← List.drop_drop, hdrop]
      simp only [List.length_append, List.drop_succ_cons, List.drop_zero, List.length_cons, List.length_nil]
      omega
    · refine Search.harmless_iff.mpr fun row' rest' other result hdrop' hfind' => ?_
      rw [hdrop] at hdrop'
      cases hdrop'
      rw [hfind] at hfind'
      cases hfind'
  · obtain ⟨hmem, hresult⟩ := findPartner_eq_some hfind
    obtain ⟨hl, hlen⟩ := take_append_cons hdrop
    have hops := length_operandsOf hpaired hresult
    have hcurr : s.currList.length = k + 1 + rest.length := by
      have := congrArg List.length hl
      rw [List.length_append, hlen, List.length_cons] at this
      omega
    have hfilter : (s.currList.filter (· ≠ other)).length + s.currList.count other = s.currList.length := by
      have := List.length_eq_length_filter_add (l := s.currList) (· ≠ other)
      rw [List.count_eq_length_filter]
      simpa [eq_comm, beq_iff_eq, Bool.beq_eq_decide_eq] using this.symm
    have hcount : 1 ≤ s.currList.count other :=
      List.count_pos_iff.mpr (by rw [hl]; simp [hmem])
    have hrest : 1 ≤ rest.length := List.length_pos_of_mem hmem
    rw [hs]
    simp only [accounted, hdrop, List.length_append, List.flatMap_append, List.flatMap_singleton, hops,
      List.length_drop, List.length_cons]
    refine ⟨by omega, fun h => ?_⟩
    simp only [Search.harmless_iff, not_forall, not_or, not_and] at h
    obtain ⟨row', rest', other', result', hdrop', hfind', hone, hlast⟩ := h
    rw [hdrop] at hdrop'
    cases hdrop'
    rw [hfind] at hfind'
    cases hfind'
    by_cases hend : rest = [other]
    · obtain ⟨rfl, hself⟩ := hlast hend
      refine .inr ⟨row, result, hself, by rw [hend], ?_, trivial, rfl⟩
      exact List.drop_eq_nil_of_le (by rw [hend] at hcurr; simp at hcurr; omega)
    · refine .inl ?_
      have htwo : 2 ≤ rest.length := by
        by_contra hlt
        obtain ⟨m, hm⟩ := List.length_eq_one_iff.mp (show rest.length = 1 by omega)
        rw [hm, List.mem_singleton] at hmem
        exact hend (by rw [hm, hmem])
      omega

/-! ### One level -/

theorem length_searchUpTo_le (addMap : ExtTreeMap Name (List Name)) (currList : List Name) (k : ℕ) :
    (searchUpTo addMap currList k).currList.length ≤ currList.length := by
  induction k with
  | zero => exact Nat.le_refl _
  | succ k ih =>
    refine Nat.le_trans ?_ ih
    rw [searchUpTo_succ]
    rcases searchIndex_cases addMap (searchUpTo addMap currList k) k with
      ⟨-, hs⟩ | ⟨row, rest, -, -, hs⟩ | ⟨row, rest, other, result, -, -, hs⟩
    · rw [hs]
    · rw [hs]
    · rw [hs]
      exact List.length_filter_le _ _

/-- At the end of a level no row is left. -/
theorem accounted_level (addMap : ExtTreeMap Name (List Name)) (currList : List Name) :
    accounted addMap (searchUpTo addMap currList currList.length) currList.length =
      (searchLevel addMap currList).remainList ++
        (searchLevel addMap currList).nextList.flatMap (operandsOf addMap) := by
  rw [accounted, List.drop_eq_nil_of_le (length_searchUpTo_le addMap currList currList.length),
    List.append_nil, searchLevel_eq]

/-- As long as the iterations are harmless the rows are kept. -/
theorem accounted_searchUpTo (hpaired : Paired addMap) {currList : List Name} {k : ℕ}
    (h : ∀ j < k, (searchUpTo addMap currList j).Harmless addMap j) :
    (accounted addMap (searchUpTo addMap currList k) k).Perm currList := by
  induction k with
  | zero => exact .refl _
  | succ k ih =>
    rw [searchUpTo_succ]
    exact (accounted_searchIndex hpaired (h k (by omega))).trans (ih fun j hj => h j (by omega))

theorem length_accounted_le (hpaired : Paired addMap) (currList : List Name) {k n : ℕ} (hk : k ≤ n) :
    (accounted addMap (searchUpTo addMap currList n) n).length ≤
      (accounted addMap (searchUpTo addMap currList k) k).length := by
  induction n, hk using Nat.le_induction with
  | base => exact Nat.le_refl _
  | succ n _ ih =>
    rw [searchUpTo_succ]
    exact Nat.le_trans (length_accounted_searchIndex hpaired _ n).1 ih

/-- Past the end of the list nothing changes. -/
theorem searchUpTo_of_drop_eq_nil {currList : List Name} {k n : ℕ} (hk : k ≤ n)
    (h : (searchUpTo addMap currList k).currList.drop k = []) :
    searchUpTo addMap currList n = searchUpTo addMap currList k := by
  induction n, hk using Nat.le_induction with
  | base => rfl
  | succ n hle ih =>
    rw [searchUpTo_succ, ih, searchIndex]
    have hdrop : (searchUpTo addMap currList k).currList.drop n = [] :=
      List.drop_eq_nil_of_le (Nat.le_trans (List.drop_eq_nil_iff.mp h) hle)
    rw [hdrop]

/-- **A level keeps its rows exactly when all its iterations are harmless.** -/
theorem kept_iff_harmless (hpaired : Paired addMap) (currList : List Name) :
    Kept addMap currList ↔ Harmless addMap currList := by
  refine ⟨fun hkept k hk => ?_, fun h => ?_⟩
  · -- the iterations before are harmless, by induction
    induction k using Nat.strongRecOn with
    | ind k ih =>
      have hperm := accounted_searchUpTo hpaired fun j hj => ih j hj (Nat.lt_trans hj hk)
      have hend := hkept.length_eq
      rw [← accounted_level] at hend
      by_contra hbad
      have hstep := (length_accounted_searchIndex hpaired (searchUpTo addMap currList k) k).2 hbad
      rw [← searchUpTo_succ] at hstep
      rcases hstep with hlt | ⟨row, result, hne, hdrop, hnil, hremain, hnext⟩
      · have hle := length_accounted_le hpaired currList (show k + 1 ≤ currList.length by omega)
        have := hperm.length_eq
        omega
      · -- the wrong result stays to the end of the level
        have hsame := searchUpTo_of_drop_eq_nil (show k + 1 ≤ currList.length by omega) hnil
        have hfinal := hkept.trans hperm.symm
        rw [searchLevel_eq, hsame, accounted, hdrop, hremain, hnext, List.flatMap_append,
          List.flatMap_singleton, ← List.append_assoc, List.perm_append_left_iff] at hfinal
        refine hne ?_
        have hops := hfinal.length_eq
        have hrep : operandsOf addMap result = List.replicate 2 row := List.perm_replicate.mp hfinal
        rw [operandsOf] at hrep
        cases hget : addMap[result]? with
        | none => simp [hget] at hrep
        | some ns =>
          rw [hget, Option.getD_some] at hrep
          rw [hrep]
          rfl
  · have hperm := accounted_searchUpTo hpaired h
    rw [accounted_level] at hperm
    exact hperm

/-- The rows of a level that finds no pair all remain, and a level finds a pair when it has a
result. -/
theorem isReduceable_iff (addMap : ExtTreeMap Name (List Name)) (currList : List Name) :
    (searchLevel addMap currList).isReduceable = true ↔ (searchLevel addMap currList).nextList ≠ [] := by
  rw [searchLevel_eq]
  induction currList.length with
  | zero => simp [searchUpTo]
  | succ k ih =>
    rw [searchUpTo_succ]
    rcases searchIndex_cases addMap (searchUpTo addMap currList k) k with
      ⟨-, hs⟩ | ⟨row, rest, -, -, hs⟩ | ⟨row, rest, other, result, -, -, hs⟩
    · rw [hs, ih]
    · rw [hs, ← ih]
    · rw [hs]
      simp

/-- The results found are entries of the map. -/
theorem exists_of_mem_nextList {currList : List Name} {m : Name}
    (hm : m ∈ (searchLevel addMap currList).nextList) : ∃ ns, addMap[m]? = some ns := by
  rw [searchLevel_eq] at hm
  generalize currList.length = k at hm
  induction k with
  | zero => simp [searchUpTo] at hm
  | succ k ih =>
    rw [searchUpTo_succ] at hm
    rcases searchIndex_cases addMap (searchUpTo addMap currList k) k with
      ⟨-, hs⟩ | ⟨row, rest, -, -, hs⟩ | ⟨row, rest, other, result, -, hfind, hs⟩
    · rw [hs] at hm
      exact ih hm
    · rw [hs] at hm
      exact ih hm
    · rw [hs] at hm
      rcases List.mem_append.mp hm with hm | hm
      · exact ih hm
      · rw [List.mem_singleton.mp hm]
        obtain ⟨ns, hns, -⟩ := searchForResult_eq_some (findPartner_eq_some hfind).2
        exact ⟨ns, hns⟩

/-! ### The levels -/

/-- The lists that the levels of the search go through, `fuel` of them at most. -/
def searchLists (addMap : ExtTreeMap Name (List Name)) : ℕ → List Name → List (List Name)
  | 0, _ => []
  | fuel + 1, currList =>
    currList :: if (searchLevel addMap currList).isReduceable then
      searchLists addMap fuel (searchLevel addMap currList).nextList else []

/-- The rows that join at each level of the mapping: those that remain at the levels of the search,
and none after. -/
def joinLists (addMap : ExtTreeMap Name (List Name)) : ℕ → List Name → List (List Name)
  | 0, _ => []
  | fuel + 1, currList =>
    (searchLevel addMap currList).remainList :: if (searchLevel addMap currList).isReduceable then
      joinLists addMap fuel (searchLevel addMap currList).nextList else List.replicate fuel []

theorem length_joinLists (addMap : ExtTreeMap Name (List Name)) (fuel : ℕ) (currList : List Name) :
    (joinLists addMap fuel currList).length = fuel := by
  induction fuel generalizing currList with
  | zero => rfl
  | succ fuel ih =>
    rw [joinLists, List.length_cons]
    split
    · rw [ih]
    · rw [List.length_replicate]

/-- The property holds of the first list and of those of the levels after. -/
theorem forall_searchLists_succ {fuel : ℕ} {currList : List Name} {P : List Name → Prop} :
    (∀ l ∈ searchLists addMap (fuel + 1) currList, P l) ↔
      P currList ∧ ((searchLevel addMap currList).isReduceable = true →
        ∀ l ∈ searchLists addMap fuel (searchLevel addMap currList).nextList, P l) := by
  rw [searchLists, List.forall_mem_cons]
  cases (searchLevel addMap currList).isReduceable <;> simp

/-- The rows kept by a level, as sums: what the results lack of the sum of their operands is
lost. -/
theorem sum_level {M : Type} [AddCommMonoid M] {v e : Name → M} {currList : List Name}
    (hkept : Kept addMap currList)
    (hv : ∀ m ∈ (searchLevel addMap currList).nextList,
      v m + e m = ((operandsOf addMap m).map v).sum) :
    (currList.map v).sum = ((searchLevel addMap currList).remainList.map v).sum +
      (((searchLevel addMap currList).nextList.map v).sum +
        ((searchLevel addMap currList).nextList.map e).sum) := by
  have hops : ∀ ms : List Name, (∀ m ∈ ms, v m + e m = ((operandsOf addMap m).map v).sum) →
      ((ms.flatMap (operandsOf addMap)).map v).sum = (ms.map v).sum + (ms.map e).sum := by
    intro ms hms
    induction ms with
    | nil => simp
    | cons m ms ih =>
      rw [List.flatMap_cons, List.map_append, List.sum_append, ← hms m (by simp),
        ih fun m hm => hms m (by simp [hm])]
      simp only [List.map_cons, List.sum_cons]
      rw [add_add_add_comm]
  rw [← (hkept.map v).sum_eq, List.map_append, List.sum_append, hops _ hv]

/-- **The sum over the levels**: when some level finds no pair, the rows that join have the sum of
the list, up to what the results lack. -/
theorem sum_joinLists {M : Type} [AddCommMonoid M] {v e : Name → M} {fuel : ℕ} {currList : List Name}
    (hkept : ∀ l ∈ searchLists addMap fuel currList, Kept addMap l)
    (hv : ∀ l ∈ searchLists addMap fuel currList, ∀ m ∈ (searchLevel addMap l).nextList,
      v m + e m = ((operandsOf addMap m).map v).sum)
    (hstop : ∃ l ∈ searchLists addMap fuel currList, (searchLevel addMap l).isReduceable = false) :
    (currList.map v).sum = (((joinLists addMap fuel currList).flatten).map v).sum +
      ((searchLists addMap fuel currList).map fun l =>
        ((searchLevel addMap l).nextList.map e).sum).sum := by
  induction fuel generalizing currList with
  | zero => simp [searchLists] at hstop
  | succ fuel ih =>
    rw [forall_searchLists_succ] at hkept hv
    rw [sum_level hkept.1 hv.1, joinLists, searchLists]
    cases hred : (searchLevel addMap currList).isReduceable with
    | true =>
      rw [searchLists, hred] at hstop
      obtain ⟨l, hl, hfalse⟩ := hstop
      rcases List.mem_cons.mp hl with rfl | hl
      · rw [hred] at hfalse
        cases hfalse
      · rw [ih (hkept.2 hred) (hv.2 hred) ⟨l, hl, hfalse⟩]
        simp only [if_true, List.flatten_cons, List.map_append, List.sum_append, List.map_cons, List.sum_cons]
        rw [add_assoc, add_assoc,
          add_comm (List.sum _) (List.sum ((searchLevel addMap currList).nextList.map e))]
    | false =>
      have hnil : (searchLevel addMap currList).nextList = [] := by
        by_contra hne
        rw [(isReduceable_iff addMap currList).mpr hne] at hred
        cases hred
      simp [hnil]

/-- Each level halves the rows that are left, whether they are bound or found. -/
theorem levelLength_joinLists (hpaired : Paired addMap) {fuel n : ℕ} {currList : List Name}
    (hkept : ∀ l ∈ searchLists addMap fuel currList, Kept addMap l)
    (hpos : 1 ≤ n + currList.length) (hle : n + currList.length ≤ 2 ^ fuel) :
    ((∃ l ∈ searchLists addMap fuel currList, (searchLevel addMap l).isReduceable = false) →
      Lib.levelLength ((joinLists addMap fuel currList).map List.length) n = 1) ∧
    ((∀ l ∈ searchLists addMap fuel currList, (searchLevel addMap l).isReduceable = true) →
      currList ≠ [] → Lib.levelLength ((joinLists addMap fuel currList).map List.length) n = 0) := by
  induction fuel generalizing n currList with
  | zero =>
    refine ⟨by simp [searchLists], fun _ hne => ?_⟩
    have := List.length_pos_of_ne_nil hne
    show n = 0
    omega
  | succ fuel ih =>
    rw [forall_searchLists_succ] at hkept
    have hlen : (searchLevel addMap currList).remainList.length +
        2 * (searchLevel addMap currList).nextList.length = currList.length := by
      have hops : ∀ ms : List Name, (∀ m ∈ ms, ∃ ns, addMap[m]? = some ns) →
          (ms.flatMap (operandsOf addMap)).length = 2 * ms.length := by
        intro ms hms
        induction ms with
        | nil => rfl
        | cons m ms ih =>
          obtain ⟨ns, hns⟩ := hms m (by simp)
          obtain ⟨p, q, rfl⟩ := hpaired m ns hns
          rw [List.flatMap_cons, List.length_append, ih fun m hm => hms m (by simp [hm]), operandsOf, hns]
          simp only [Option.getD_some, List.length_cons, List.length_nil]
          omega
      have := hkept.1.length_eq
      rw [List.length_append, hops _ fun m hm => exists_of_mem_nextList hm] at this
      exact this
    rw [pow_succ] at hle
    rw [joinLists, searchLists]
    cases hred : (searchLevel addMap currList).isReduceable with
    | true =>
      have hne := (isReduceable_iff addMap currList).mp hred
      obtain ⟨hone, hzero⟩ := ih (n := (n + (searchLevel addMap currList).remainList.length + 1) / 2)
        (hkept.2 hred) (by omega) (by omega)
      simp only [if_true, List.map_cons, Lib.levelLength]
      refine ⟨?_, fun hall _ => ?_⟩
      · rintro ⟨l, hl, hfalse⟩
        rcases List.mem_cons.mp hl with rfl | hl
        · rw [hred] at hfalse
          cases hfalse
        · exact hone ⟨l, hl, hfalse⟩
      · exact hzero (fun l hl => hall l (by simp [hl])) hne
    | false =>
      have hnil : (searchLevel addMap currList).nextList = [] := by
        by_contra hne
        rw [(isReduceable_iff addMap currList).mpr hne] at hred
        cases hred
      rw [hnil] at hlen
      refine ⟨fun _ => ?_, fun hall => ?_⟩
      · simp only [Bool.false_eq_true, if_false, List.map_cons, List.map_replicate, List.length_nil,
          Lib.levelLength]
        simp only [List.length_nil] at hlen
        exact Lib.levelLength_replicate_zero (by omega) (by omega)
      · have := hall currList (by simp)
        rw [hred] at this
        cases this

end LiMBinder

end Octantis
