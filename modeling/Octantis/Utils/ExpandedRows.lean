import Mathlib.Algebra.BigOperators.Ring.Finset
import Mathlib.Data.List.GetD
import Octantis.Utils.AddressList

/-!
# The rows repeated

`expandAddressList` repeats the rows that a pointer goes over for the loops of the nest
whose iterators its subscripts do not use.

## The model

The iterations of a nest are the lists of the numbers of the iterations of its loops, in
program order (`tuples`). Of an access the subscripts have one iterator each, the one of
the loop of the column given.

## What is proved

`expandAddressList_iff`: the list becomes the rows of the whole nest exactly when no loop
stands between two loops whose iterators are used, or it makes no difference.
-/

namespace Octantis

open Lib

/-- An access in a nest, with one iterator in each subscript. -/
structure NestAccess where
  /-- The numbers of iterations of the loops, outermost first. -/
  counts : List ℕ
  /-- The increments of the loops. -/
  increments : ℕ → ℤ
  /-- The loop of the iterator of each subscript. -/
  subscripts : List ℕ

namespace NestAccess

variable (A : NestAccess)

/-- There are one or two subscripts, of loops of the nest, and no increment is zero. -/
structure WellFormed : Prop where
  length : A.subscripts.length = 1 ∨ A.subscripts.length = 2
  lt : ∀ c ∈ A.subscripts, c < A.counts.length
  increments : ∀ k, A.increments k ≠ 0

/-- The increments of the access pattern, as `setPointerInfo` fills them. -/
def incrementVector : List ℤ :=
  A.subscripts.flatMap fun c => (List.range A.counts.length).map fun k => if k = c then A.increments k else 0

/-- The access pattern, of any type. -/
def accessPattern (apmType : ArrayAccessPattern) : AccessPattern :=
  { AccessPattern.ofIncrements A.subscripts.length A.counts.length A.incrementVector with apmType }

/-- Of a list with an element for each loop, those of the loops whose iterators are used. -/
def pick (t : List ℕ) : List ℕ :=
  ((List.range A.counts.length).filter (· ∈ A.subscripts)).map fun c => t.getD c 0

/-- Between two loops that are used stands no other; or the first of those between and the second of
the two have one iteration; or there is no iteration at all, whatever the number of the first of
those between. -/
def NoGap : Prop :=
  ∀ p ∈ A.subscripts, ∀ q ∈ A.subscripts, p < q → q = p + 1 ∨
    (A.counts.getD (p + 1) 0 = 1 ∧ A.counts.getD q 0 = 1) ∨ ∃ k < A.counts.length, k ≠ p + 1 ∧ A.counts.getD k 0 = 0

instance : Decidable A.NoGap := by
  unfold NoGap
  infer_instance

variable {A} {α : Type} {pis : PointerInfoStruct} {t : ArrayAccessPattern}

/-! ### The columns of zeros -/

/-- An element of the first row of a matrix. -/
theorem entry_first {ap : AccessPattern} {outside : ℤ → Option ℤ} {k : ℕ} {f : ℕ → ℤ} {l : List ℤ}
    (hvec : ap.incrementVector = (List.range ap.colsM).map f ++ l) (hk : k < ap.colsM) :
    ap.entry outside 0 k = some (f k) := by
  have hget : ((List.range ap.colsM).map f ++ l)[k]? = some (f k) := by
    rw [List.getElem?_append_left (by simpa using hk)]
    simp [hk]
  simp [AccessPattern.entry, element, hvec, hget]

/-- An element of the second. -/
theorem entry_second {ap : AccessPattern} {outside : ℤ → Option ℤ} {k : ℕ} {f g : ℕ → ℤ}
    (hvec : ap.incrementVector = (List.range ap.colsM).map f ++ (List.range ap.colsM).map g)
    (hk : k < ap.colsM) :
    ap.entry outside 1 k = some (g k) := by
  have hget : ((List.range ap.colsM).map f ++ (List.range ap.colsM).map g)[ap.colsM + k]? = some (g k) := by
    rw [List.getElem?_append_right (by simp)]
    simp [hk]
  have hindex : (0 : ℤ) ≤ ap.colsM + k := by positivity
  have htoNat : ((ap.colsM : ℤ) + k).toNat = ap.colsM + k := by omega
  simp [AccessPattern.entry, element, hvec, hget, hindex, htoNat]

theorem isZeroCol_one {ap : AccessPattern} (h : ap.rowsM = 1) {k : ℕ} {x : ℤ}
    (hx : ap.entry (fun _ => none) 0 k = some x) : ap.isZeroCol k = some (decide (x = 0)) := by
  by_cases h0 : x = 0 <;> simp [AccessPattern.isZeroCol, h, List.range_succ, hx, h0]

theorem isZeroCol_two {ap : AccessPattern} (h : ap.rowsM = 2) {k : ℕ} {x y : ℤ}
    (hx : ap.entry (fun _ => none) 0 k = some x) (hy : ap.entry (fun _ => none) 1 k = some y) :
    ap.isZeroCol k = some (decide (x = 0 ∧ y = 0)) := by
  by_cases h0 : x = 0 <;> by_cases h1 : y = 0 <;>
    simp [AccessPattern.isZeroCol, h, List.range_succ, hx, hy, h0, h1]

/-- A column is one of zeros when its loop is not used. -/
theorem isZeroCol_accessPattern (hA : A.WellFormed) {k : ℕ} (hk : k < A.counts.length) :
    (A.accessPattern t).isZeroCol k = some (decide (k ∉ A.subscripts)) := by
  have hinc := hA.increments k
  rcases hA.length with hlen | hlen
  · obtain ⟨c, hc⟩ := List.length_eq_one_iff.mp hlen
    have hvec : (A.accessPattern t).incrementVector =
        ((List.range A.counts.length).map fun k => if k = c then A.increments k else 0) ++ [] := by
      show A.incrementVector = _
      rw [incrementVector, hc, List.flatMap_singleton, List.append_nil]
    rw [isZeroCol_one hlen (entry_first hvec hk), hc]
    rcases eq_or_ne k c with rfl | hkc
    · simp [hinc]
    · simp [hkc]
  · obtain ⟨c, c', hc⟩ := List.length_eq_two.mp hlen
    have hvec : (A.accessPattern t).incrementVector =
        ((List.range A.counts.length).map fun k => if k = c then A.increments k else 0) ++
          (List.range A.counts.length).map fun k => if k = c' then A.increments k else 0 := by
      show A.incrementVector = _
      rw [incrementVector, hc, List.flatMap_cons, List.flatMap_singleton]
    rw [isZeroCol_two hlen (entry_first hvec hk) (entry_second hvec hk), hc]
    rcases eq_or_ne k c with rfl | hkc
    · simp [hinc]
    · rcases eq_or_ne k c' with rfl | hkc'
      · simp [hkc, hinc]
      · simp [hkc, hkc']

/-- **The columns of zeros**: those of the loops that are not used, before the first that is and
after it. -/
theorem detectZeroCols_accessPattern (hA : A.WellFormed) : (A.accessPattern t).detectZeroCols =
    some { A.accessPattern t with
      initZerosM := ((List.range A.counts.length).takeWhile (· ∉ A.subscripts)).length
      finalZerosM := (((List.range A.counts.length).dropWhile (· ∉ A.subscripts)).tail.filter (· ∉ A.subscripts)).length } := by
  have hzero : (List.range A.counts.length).mapM (A.accessPattern t).isZeroCol =
      some ((List.range A.counts.length).map fun k => decide (k ∉ A.subscripts)) := by
    rw [mapM_eq_some_iff_map, List.map_map]
    refine List.map_congr_left fun k hk => ?_
    rw [isZeroCol_accessPattern hA (List.mem_range.mp hk)]
    rfl
  rw [AccessPattern.detectZeroCols, if_pos (by exact hA.length)]
  have hcols : (A.accessPattern t).colsM = A.counts.length := rfl
  simp only [hcols, hzero, Option.bind_eq_bind, Option.bind_some, List.takeWhile_map,
    List.dropWhile_map, List.length_map, ← List.map_tail, List.filter_map]
  simp only [Function.comp_def, decide_eq_true_eq]
  rfl

/-- The loops of the iterators used: one, or two. -/
theorem used_cases (hA : A.WellFormed) :
    (∃ p < A.counts.length, ∀ k, k ∈ A.subscripts ↔ k = p) ∨
      ∃ p q, p < q ∧ q < A.counts.length ∧ ∀ k, k ∈ A.subscripts ↔ k = p ∨ k = q := by
  have hlt := hA.lt
  rcases hA.length with hlen | hlen
  · obtain ⟨c, hc⟩ := List.length_eq_one_iff.mp hlen
    rw [hc] at hlt ⊢
    exact .inl ⟨c, hlt c (List.mem_singleton.mpr rfl), fun k => List.mem_singleton⟩
  · obtain ⟨c, c', hc⟩ := List.length_eq_two.mp hlen
    rw [hc] at hlt ⊢
    have hfirst := hlt c (by simp)
    have hsecond := hlt c' (by simp)
    rcases lt_trichotomy c c' with h | rfl | h
    · exact .inr ⟨c, c', h, hsecond, fun k => by simp⟩
    · exact .inl ⟨c, hfirst, fun k => by simp⟩
    · exact .inr ⟨c', c, h, hfirst, fun k => by simp [or_comm]⟩

/-- The numbers of the columns of zeros, from the first loop that is used and the number of
those. -/
theorem zeroCols {p u : ℕ} (hp : p < A.counts.length) (hmem : p ∈ A.subscripts)
    (hfirst : ∀ k < p, k ∉ A.subscripts)
    (hu : ((List.range A.counts.length).filter (· ∈ A.subscripts)).length = u) :
    ((List.range A.counts.length).takeWhile (· ∉ A.subscripts)).length = p ∧
      (((List.range A.counts.length).dropWhile (· ∉ A.subscripts)).tail.filter (· ∉ A.subscripts)).length =
        A.counts.length - (p + u) := by
  have hbefore : ∀ k ∈ List.range p, decide (k ∉ A.subscripts) = true := fun k hk => by
    simpa using hfirst k (List.mem_range.mp hk)
  have hnone : (List.range p).filter (· ∈ A.subscripts) = [] :=
    List.filter_eq_nil_iff.mpr fun k hk => by simpa using hfirst k (List.mem_range.mp hk)
  have htotal := List.length_eq_length_filter_add (l := (List.range (A.counts.length - p - 1)).map (p + 1 + ·))
    (f := fun k => decide (k ∈ A.subscripts))
  rw [range_split hp, List.filter_append, hnone, List.nil_append,
    List.filter_cons_of_pos (by simpa using hmem), List.length_cons] at hu
  have hused : ¬ decide (p ∉ A.subscripts) = true := by simpa using hmem
  rw [range_split hp, List.takeWhile_append_of_pos hbefore, List.dropWhile_append_of_pos hbefore,
    List.takeWhile_cons_of_neg (p := fun k => decide (k ∉ A.subscripts)) hused,
    List.dropWhile_cons_of_neg (p := fun k => decide (k ∉ A.subscripts)) hused, List.append_nil,
      List.length_range, List.tail_cons]
  rw [List.length_map, List.length_range] at htotal
  refine ⟨rfl, ?_⟩
  simp only [decide_not]
  omega

/-- **The rows repeated**, from the numbers of the columns of zeros. -/
theorem expandAddressList_eq {loops : List ℕ} {p f : ℕ} (hp : pis.pointerAccessPattern.initZerosM = p)
    (hf : pis.pointerAccessPattern.finalZerosM = f) (hple : p ≤ loops.length) (hfle : f ≤ loops.length)
    (l : List α) : AddressList.expandAddressList pis (loops.map Nat.cast) l =
      some (List.replicate (loops.take p).prod
        (l.flatMap (List.replicate (loops.drop (loops.length - f)).prod))).flatten := by
  have hfirst : AddressList.repetitions (loops.map Nat.cast) p = some (((loops.take p).prod : ℕ) : ℤ) := by
    rw [AddressList.repetitions, Int.toNat_natCast, if_pos (by simpa using hple), ← List.map_take,
      Nat.cast_list_prod]
  have hlast : AddressList.repetitions (loops.map Nat.cast).reverse f =
      some (((loops.drop (loops.length - f)).prod : ℕ) : ℤ) := by
    rw [AddressList.repetitions, Int.toNat_natCast, if_pos (by simpa using hfle),
      ← List.map_reverse, ← List.map_take, List.take_reverse, List.map_reverse, List.prod_reverse,
      Nat.cast_list_prod]
  unfold AddressList.expandAddressList
  simp only [hp, hf]
  split
  · rw [hfirst, hlast]
    simp only [Option.bind_eq_bind, Option.bind_some, Int.toNat_natCast]
    rfl
  · obtain ⟨rfl, rfl⟩ : p = 0 ∧ f = 0 := by omega
    have hone : List.replicate 1 = fun row : α => [row] := rfl
    simp [hone]

/-! ### The rows of the nest -/

/-- A loop that is not used repeats the rows of the loops inside it. -/
theorem map_tuples_of_const (ns : List ℕ) (f : List ℕ → α) (x : α) (h : ∀ t ∈ tuples ns, f t = x) :
    (tuples ns).map f = List.replicate ns.prod x := by
  rw [List.map_congr_left h, List.map_const', length_tuples]

/-- The rows of a nest of which the loops before some are not used. -/
theorem map_tuples_append (ms ns : List ℕ) (f : List ℕ → α) :
    (tuples (ms ++ ns)).map f = (tuples ms).flatMap fun a => (tuples ns).map fun b => f (a ++ b) := by
  rw [tuples_append, List.map_flatMap]
  simp only [List.map_map, Function.comp_def]

theorem map_tuples_append_const (ms ns : List ℕ) (f g : List ℕ → α)
    (h : ∀ a ∈ tuples ms, ∀ b, f (a ++ b) = g b) :
    (tuples (ms ++ ns)).map f = (List.replicate ms.prod ((tuples ns).map g)).flatten := by
  rw [map_tuples_append, ← length_tuples ms, ← flatMap_const]
  exact List.flatMap_congr fun a ha => List.map_congr_left fun b _ => h a ha b

theorem map_tuples_cons (n : ℕ) (ns : List ℕ) (f : List ℕ → α) :
    (tuples (n :: ns)).map f = (List.range n).flatMap fun a => (tuples ns).map fun b => f (a :: b) := by
  rw [tuples, List.map_flatMap]
  simp only [List.map_map, Function.comp_def]

/-- **One loop is used.** -/
theorem map_tuples_one (pre post : List ℕ) (n : ℕ) (row : ℕ → α) :
    (tuples (pre ++ n :: post)).map (fun t => row (t.getD pre.length 0)) =
      (List.replicate pre.prod (((List.range n).map row).flatMap (List.replicate post.prod))).flatten := by
  rw [map_tuples_append_const pre (n :: post) _ fun b => row (b.getD 0 0), map_tuples_cons, List.flatMap_map]
  · congr 2
    refine List.flatMap_congr fun a _ => ?_
    exact map_tuples_of_const post _ _ fun b _ => rfl
  · intro a ha b
    rw [← length_of_mem_tuples ha, List.getD_append_right _ _ _ _ le_rfl, Nat.sub_self]

/-- **Two loops are used.** -/
theorem map_tuples_two (pre mid post : List ℕ) (n n' : ℕ) (row : ℕ → ℕ → α) :
    (tuples (pre ++ n :: (mid ++ n' :: post))).map
        (fun t => row (t.getD pre.length 0) (t.getD (pre.length + 1 + mid.length) 0)) =
      (List.replicate pre.prod ((List.range n).flatMap fun a =>
        (List.replicate mid.prod ((List.range n').flatMap fun b =>
          List.replicate post.prod (row a b))).flatten)).flatten := by
  rw [map_tuples_append_const pre _ _ fun b => row (b.getD 0 0) (b.getD (1 + mid.length) 0), map_tuples_cons]
  · congr 2
    refine List.flatMap_congr fun a _ => ?_
    rw [map_tuples_append_const mid (n' :: post) _ fun b => row a (b.getD 0 0), map_tuples_cons]
    · congr 2
      refine List.flatMap_congr fun b _ => ?_
      exact map_tuples_of_const post _ _ fun c _ => rfl
    · intro c hc b
      rw [← length_of_mem_tuples hc, Nat.add_comm 1, List.getD_cons_succ, List.getD_cons_zero,
        List.getD_append_right _ _ _ _ le_rfl, Nat.sub_self]
  · intro a ha b
    rw [← length_of_mem_tuples ha, List.getD_append_right _ _ _ _ le_rfl, Nat.sub_self, Nat.add_assoc,
      List.getD_append_right _ _ _ _ (Nat.le_add_right _ _), Nat.add_sub_cancel_left]

theorem exists_split {l : List ℕ} {p : ℕ} (hp : p < l.length) :
    ∃ pre n post, l = pre ++ n :: post ∧ pre.length = p :=
  ⟨l.take p, l[p], l.drop (p + 1), by rw [List.getElem_cons_drop, List.take_append_drop],
    List.length_take_of_le hp.le⟩

theorem drop_split (pre l : List ℕ) (n u : ℕ) : (pre ++ n :: l).drop (pre.length + (u + 1)) = l.drop u := by
  rw [List.drop_append, List.drop_eq_nil_of_le (Nat.le_add_right _ _), Nat.add_sub_cancel_left,
    List.drop_succ_cons, List.nil_append]

theorem map_tuples_single (n : ℕ) (f : List ℕ → α) :
    (tuples [n]).map f = (List.range n).map fun a => f [a] := by
  rw [map_tuples_cons, List.map_eq_flatMap]
  rfl

theorem map_tuples_pair (n n' : ℕ) (f : List ℕ → α) :
    (tuples [n, n']).map f = (List.range n).flatMap fun a => (List.range n').map fun b => f [a, b] := by
  rw [map_tuples_cons]
  exact List.flatMap_congr fun a _ => map_tuples_single n' _

/-- The rows repeated, from the loops that are used. -/
theorem expandAddressList_used (hA : A.WellFormed)
    (hap : (A.accessPattern t).detectZeroCols = some pis.pointerAccessPattern) {p : ℕ} {used : List ℕ}
    (hp : p < A.counts.length) (hmem : p ∈ A.subscripts) (hfirst : ∀ k < p, k ∉ A.subscripts)
    (hu : (List.range A.counts.length).filter (· ∈ A.subscripts) = used)
    (hle : p + used.length ≤ A.counts.length)
    (l : List α) : AddressList.expandAddressList pis (A.counts.map Nat.cast) l =
      some (List.replicate (A.counts.take p).prod
        (l.flatMap (List.replicate (A.counts.drop (p + used.length)).prod))).flatten := by
  rw [detectZeroCols_accessPattern hA, Option.some.injEq] at hap
  obtain ⟨hinit, hfinal⟩ := zeroCols hp hmem hfirst (congrArg List.length hu)
  rw [hinit, hfinal] at hap
  have hzeros : pis.pointerAccessPattern.initZerosM = p ∧
      pis.pointerAccessPattern.finalZerosM = (A.counts.length - (p + used.length) : ℕ) := by
    rw [← hap]
    exact ⟨rfl, rfl⟩
  rw [expandAddressList_eq hzeros.1 hzeros.2 hp.le (Nat.sub_le _ _), Nat.sub_sub_self hle]

/-- **One iterator used**: the rows are those of the nest. -/
theorem expandAddressList_one (hA : A.WellFormed)
    (hap : (A.accessPattern t).detectZeroCols = some pis.pointerAccessPattern) {p : ℕ}
    (hp : p < A.counts.length)
    (hmem : ∀ k, k ∈ A.subscripts ↔ k = p) (row : List ℕ → α) :
    AddressList.expandAddressList pis (A.counts.map Nat.cast) ((tuples (A.pick A.counts)).map row) =
      some ((tuples A.counts).map fun t => row (A.pick t)) := by
  have hused := filter_range_single hp fun k _ => hmem k
  have hpick : ∀ t, A.pick t = [t.getD p 0] := fun t => by rw [pick, hused, List.map_singleton]
  obtain ⟨pre, n, post, hcounts, rfl⟩ := exists_split hp
  rw [expandAddressList_used hA hap hp ((hmem _).mpr rfl) (fun k hk => fun h =>
    hk.ne ((hmem k).mp h)) hused hp]
  simp only [hpick, List.length_singleton]
  rw [hcounts, map_tuples_one pre post n fun a => row [a], List.take_left, drop_split, List.drop_zero,
    List.getD_append_right _ _ _ _ le_rfl, Nat.sub_self, List.getD_cons_zero, map_tuples_single]

/-- Which numbers the loops that are used have, when they are two. -/
theorem pick_two {pre mid post : List ℕ} {n n' : ℕ} (hcounts : A.counts = pre ++ n :: (mid ++ n' :: post))
    (hmem : ∀ k, k ∈ A.subscripts ↔ k = pre.length ∨ k = pre.length + 1 + mid.length) :
    (List.range A.counts.length).filter (· ∈ A.subscripts) = [pre.length, pre.length + 1 + mid.length] ∧
      (∀ t, A.pick t = [t.getD pre.length 0, t.getD (pre.length + 1 + mid.length) 0]) ∧
      A.pick A.counts = [n, n'] := by
  have hlen : pre.length + 1 + mid.length < A.counts.length := by
    rw [hcounts]
    simp only [List.length_append, List.length_cons]
    omega
  have hused := filter_range_pair (by omega) hlen fun k _ => hmem k
  have hpick : ∀ t, A.pick t = [t.getD pre.length 0, t.getD (pre.length + 1 + mid.length) 0] := fun t => by
    rw [pick, hused, List.map_cons, List.map_singleton]
  refine ⟨hused, hpick, ?_⟩
  rw [hpick, hcounts, List.getD_append_right _ _ _ _ le_rfl, Nat.sub_self, List.getD_cons_zero, Nat.add_assoc,
    List.getD_append_right _ _ _ _ (Nat.le_add_right _ _), Nat.add_sub_cancel_left, Nat.add_comm 1,
      List.getD_cons_succ,
    List.getD_append_right _ _ _ _ le_rfl, Nat.sub_self, List.getD_cons_zero]

/-- **Two iterators used**: the two lists, from what stands around and between their loops. -/
theorem expandAddressList_two (hA : A.WellFormed)
    (hap : (A.accessPattern t).detectZeroCols = some pis.pointerAccessPattern)
    {pre mid post : List ℕ} {n n' : ℕ}
    (hcounts : A.counts = pre ++ n :: (mid ++ n' :: post))
    (hmem : ∀ k, k ∈ A.subscripts ↔ k = pre.length ∨ k = pre.length + 1 + mid.length) (row : List ℕ → α) :
    AddressList.expandAddressList pis (A.counts.map Nat.cast) ((tuples (A.pick A.counts)).map row) =
        some (List.replicate pre.prod ((List.range n).flatMap fun a => (List.range n').flatMap fun b =>
          List.replicate ((mid ++ n' :: post).drop 1).prod (row [a, b]))).flatten ∧
      ((tuples A.counts).map fun t => row (A.pick t)) =
        (List.replicate pre.prod ((List.range n).flatMap fun a =>
          (List.replicate mid.prod ((List.range n').flatMap fun b =>
            List.replicate post.prod (row [a, b]))).flatten)).flatten := by
  obtain ⟨hused, hpick, hpair⟩ := pick_two hcounts hmem
  have hlen : pre.length + 2 + mid.length ≤ A.counts.length := by
    rw [hcounts]
    simp only [List.length_append, List.length_cons]
    omega
  constructor
  · rw [expandAddressList_used hA hap (by omega) ((hmem _).mpr (.inl rfl))
      (fun k hk h => by rcases (hmem k).mp h with h | h <;>
        omega) hused (by simp only [List.length_cons, List.length_nil]; omega),
      hpair, hcounts, List.take_left, List.length_cons, List.length_singleton, drop_split,
        map_tuples_pair, List.flatMap_assoc]
    simp only [List.flatMap_map]
  · simp only [hpick]
    rw [hcounts, map_tuples_two pre mid post n n' fun a b => row [a, b]]

/-- Some loop other than one has no iteration. -/
theorem exists_zero_iff (l : List ℕ) (p : ℕ) :
    (∃ k < l.length, k ≠ p ∧ l.getD k 0 = 0) ↔ 0 ∈ l.eraseIdx p := by
  rw [List.mem_eraseIdx_iff_getElem]
  constructor
  · rintro ⟨k, hk, hne, h0⟩
    exact ⟨k, hk, hne, by rwa [List.getD_eq_getElem _ _ hk] at h0⟩
  · rintro ⟨k, hk, hne, h0⟩
    exact ⟨k, hk, hne, by rwa [List.getD_eq_getElem _ _ hk]⟩

/-- The numbers of iterations that matter, with a loop between the two that are used. -/
theorem noGap_iff {pre mid post : List ℕ} {n M n' : ℕ}
    (hcounts : A.counts = pre ++ n :: (M :: mid ++ n' :: post))
    (hmem : ∀ k, k ∈ A.subscripts ↔ k = pre.length ∨ k = pre.length + 1 + (M :: mid).length) : A.NoGap ↔
      pre.prod = 0 ∨ n = 0 ∨ n' = 0 ∨ mid.prod = 0 ∨ post.prod = 0 ∨ (M = 1 ∧ n' = 1) := by
  have hbetween : A.counts.getD (pre.length + 1) 0 = M := by
    rw [hcounts, List.getD_append_right _ _ _ _ (Nat.le_add_right _ _), Nat.add_sub_cancel_left]
    rfl
  have hsecond : A.counts.getD (pre.length + 1 + (M :: mid).length) 0 = n' := by
    obtain ⟨-, hpick, hpair⟩ := pick_two hcounts hmem
    exact (List.cons.inj (List.cons.inj ((hpick A.counts).symm.trans hpair)).2).1
  have herase : A.counts.eraseIdx (pre.length + 1) = pre ++ n :: (mid ++ n' :: post) := by
    rw [hcounts, List.eraseIdx_append_of_length_le (Nat.le_add_right _ _), Nat.add_sub_cancel_left]
    rfl
  have hone : A.NoGap ↔ (M = 1 ∧ n' = 1) ∨ 0 ∈ pre ++ n :: (mid ++ n' :: post) := by
    rw [← herase, ← hbetween, ← hsecond, ← exists_zero_iff]
    constructor
    · intro h
      rcases h _ ((hmem _).mpr (.inl rfl)) _ ((hmem _).mpr (.inr rfl)) (by omega) with h | h
      · simp at h
      · exact h
    · intro h p hp q hq hpq
      rcases (hmem p).mp hp with rfl | rfl <;> rcases (hmem q).mp hq with rfl | rfl
      · omega
      · exact .inr h
      · omega
      · omega
  rw [hone]
  simp only [List.mem_append, List.mem_cons, List.prod_eq_zero_iff]
  grind

/-- **The rows of the whole nest.** The list repeated holds the rows of the nest, in program order,
exactly when no loop stands between two whose iterators are used, or it makes no difference. -/
theorem expandAddressList_iff (hA : A.WellFormed)
    (hap : (A.accessPattern t).detectZeroCols = some pis.pointerAccessPattern) {row : List ℕ → α}
    (hrow : Set.InjOn row {t | t ∈ tuples (A.pick A.counts)}) :
    AddressList.expandAddressList pis (A.counts.map Nat.cast) ((tuples (A.pick A.counts)).map row) =
      some ((tuples A.counts).map fun t => row (A.pick t)) ↔ A.NoGap := by
  obtain ⟨p, hp, hmem⟩ | ⟨p, q, hpq, hq, hmem⟩ := used_cases hA
  · refine ⟨fun _ p' hp' q' hq' hlt => ?_, fun _ => expandAddressList_one hA hap hp hmem row⟩
    exact absurd (((hmem p').mp hp').trans ((hmem q').mp hq').symm) hlt.ne
  obtain ⟨pre, n, tail, htail, rfl⟩ := exists_split (hpq.trans hq)
  have hlen : q - pre.length - 1 < tail.length := by
    rw [htail, List.length_append, List.length_cons] at hq
    omega
  obtain ⟨mid, n', post, rfl, hmid⟩ := exists_split hlen
  obtain rfl : q = pre.length + 1 + mid.length := by omega
  obtain ⟨hleft, hright⟩ := expandAddressList_two hA hap htail hmem row
  rw [hleft, hright, Option.some.injEq]
  cases mid with
  | nil =>
    -- the two loops follow each other: each row is repeated for the loops after them
    refine iff_of_true (by simp) fun p' hp' q' hq' hlt => .inl ?_
    rcases (hmem p').mp hp' with rfl | rfl <;> rcases (hmem q').mp hq' with rfl | rfl <;> simp at hlt ⊢
  | cons M mid =>
    have hdrop : ((M :: mid ++ n' :: post).drop 1).prod = mid.prod * (n' * post.prod) := by
      rw [List.cons_append, List.drop_succ_cons, List.drop_zero, List.prod_append, List.prod_cons]
    have hinj : 2 ≤ n' → 0 < n → row [0, 0] ≠ row [0, 1] := fun hn' hn h => by
      have hmem : ∀ b < 2, [0, b] ∈ tuples (A.pick A.counts) := fun b hb => by
        rw [(pick_two htail hmem).2.2]
        simp only [tuples, List.mem_flatMap, List.mem_map, List.mem_range, List.mem_singleton]
        exact ⟨0, hn, [b], ⟨b, by omega, [], rfl, rfl⟩, rfl⟩
      exact absurd (hrow (hmem 0 (by omega)) (hmem 1 (by omega)) h) (by simp)
    rw [hdrop, List.prod_cons, repeated_eq_iff hinj, noGap_iff htail hmem]

/-- `A[j]` in a loop over `i`, of two iterations, around one over `j`, of three. -/
def innerOnly : NestAccess := ⟨[2, 3], fun _ => 1, [1]⟩

/-- The pointer info of an access pattern, of which the rest is not read. -/
def patternInfo (ap : AccessPattern) : PointerInfoStruct := ⟨0, -1, -1, none, ap⟩

/-- The list of three rows twice. -/
theorem expandAddressList_iff_innerOnly :
    AddressList.expandAddressList (patternInfo ⟨1, 2, [0, 1], 1, 0, .rowMajor⟩) [2, 3] [[0], [1], [2]] =
      some ((tuples [2, 3]).map fun t => innerOnly.pick t) :=
  (@expandAddressList_iff innerOnly _ _ .rowMajor ⟨by decide, by decide, fun _ => one_ne_zero⟩ (by decide) id
    (Set.injOn_id _)).mpr (by decide)

/-- `A[i][k]` in loops over `i`, `j` and `k`, of two iterations each. -/
def outerAndInner : NestAccess := ⟨[2, 2, 2], fun _ => 1, [0, 2]⟩

/-- Each row is repeated for `j` and for `k`, and not the two rows of `k` for `j`. -/
theorem outerAndInner_repeated : outerAndInner.WellFormed ∧
    (outerAndInner.accessPattern .rowMajor).detectZeroCols = some ⟨2, 3, [1, 0, 0, 0, 0, 1], 0, 1, .rowMajor⟩ ∧
      ((tuples outerAndInner.counts).map fun t => outerAndInner.pick t) =
        [[0, 0], [0, 1], [0, 0], [0, 1], [1, 0], [1, 1], [1, 0], [1, 1]] ∧
          AddressList.expandAddressList (patternInfo ⟨2, 3, [1, 0, 0, 0, 0, 1], 0, 1, .rowMajor⟩) [2, 2, 2]
            (tuples (outerAndInner.pick outerAndInner.counts)) =
            some [[0, 0], [0, 0], [0, 1], [0, 1], [1, 0], [1, 0], [1, 1], [1, 1]] :=
  ⟨⟨by decide, by decide, fun _ => one_ne_zero⟩, by decide, by decide, by decide⟩

end NestAccess

end Octantis
