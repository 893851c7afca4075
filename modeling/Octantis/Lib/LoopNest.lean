import Mathlib.Algebra.BigOperators.Group.List.Basic
import Mathlib.Data.List.Basic
import Mathlib.Data.Nat.Notation
import Mathlib.Tactic.Linarith
import Mathlib.Tactic.Ring

/-!
# Loop nests

The iterations of a loop nest as a list: the nest of two loops as one loop over the
number of the iteration, and what a list of results becomes when each loop pushes the
results of the loop inside it.
-/

namespace Octantis.Lib

universe u v w

variable {α : Type u} {β : Type v} {γ : Type w}

/-- **Two loops are one loop** over the number of the iteration. -/
theorem flatMap_range (m n : ℕ) (f : ℕ → ℕ → α) :
    ((List.range m).flatMap fun a => (List.range n).map fun b => f a b) =
      (List.range (m * n)).map fun k => f (k / n) (k % n) := by
  induction m with
  | zero => simp
  | succ m ih =>
    rw [List.range_succ, List.flatMap_append, ih, Nat.succ_mul, List.range_add, List.map_append, List.map_map]
    congr 1
    rw [List.flatMap_cons, List.flatMap_nil, List.append_nil]
    refine List.map_congr_left fun b hb => ?_
    have hlt := List.mem_range.mp hb
    simp only [Function.comp_apply]
    rw [Nat.mul_comm m n, Nat.mul_add_div (by omega), Nat.div_eq_of_lt hlt, Nat.add_zero, Nat.mul_add_mod,
      Nat.mod_eq_of_lt hlt]

theorem mapM_congr {f g : α → Option β} {xs : List α} (h : ∀ x ∈ xs, f x = g x) : xs.mapM f = xs.mapM g := by
  induction xs with
  | nil => rfl
  | cons x xs ih =>
    rw [List.mapM_cons, List.mapM_cons, h x List.mem_cons_self,
      ih fun y hy => h y (List.mem_cons_of_mem _ hy)]

/-- The results of a loop in a loop. -/
theorem mapM_flatMap (f : α → Option β) (g : γ → List α) (xs : List γ) :
    (xs.flatMap g).mapM f = (xs.mapM fun x => (g x).mapM f).map List.flatten := by
  induction xs with
  | nil => rfl
  | cons x xs ih =>
    rw [List.flatMap_cons, List.mapM_append, ih, List.mapM_cons]
    cases (g x).mapM f with
    | none => rfl
    | some l => cases xs.mapM fun x => (g x).mapM f <;> rfl

/-- A result repeated. -/
theorem mapM_replicate (f : α → Option β) (x : α) (n : ℕ) :
    (List.replicate (n + 1) x).mapM f = (f x).map (List.replicate (n + 1)) := by
  cases hx : f x with
  | none => simp [List.replicate_succ, hx]
  | some y =>
    induction n with
    | zero => simp [hx]
    | succ n ih => simp [List.replicate_succ (n := n + 1), List.mapM_cons, hx, ih]

/-- Each result repeated. -/
theorem mapM_flatMap_replicate (f : α → Option β) {n : ℕ} (hn : 0 < n) (xs : List α) :
    (xs.flatMap (List.replicate n)).mapM f = (xs.mapM f).map (·.flatMap (List.replicate n)) := by
  obtain ⟨n, rfl⟩ := Nat.exists_eq_add_of_lt hn
  rw [Nat.zero_add]
  induction xs with
  | nil => rfl
  | cons x xs ih =>
    rw [List.flatMap_cons, List.mapM_append, ih, mapM_replicate, List.mapM_cons]
    cases f x with
    | none => rfl
    | some y => cases xs.mapM f <;> rfl

/-- The list of results repeated. -/
theorem mapM_flatten_replicate (f : α → Option β) {n : ℕ} (hn : 0 < n) (xs : List α) :
    (List.replicate n xs).flatten.mapM f = (xs.mapM f).map fun ys => (List.replicate n ys).flatten := by
  obtain ⟨n, rfl⟩ := Nat.exists_eq_add_of_lt hn
  clear hn
  rw [Nat.zero_add]
  cases hxs : xs.mapM f with
  | none => simp [List.replicate_succ, hxs]
  | some ys =>
    induction n with
    | zero => simp [hxs]
    | succ n ih =>
      rw [List.replicate_succ, List.flatten_cons, List.mapM_append, hxs, ih]
      simp [List.replicate_succ]

/-- A list repeated, over the number of the element. -/
theorem flatten_replicate_map_range (m n : ℕ) (f : ℕ → α) :
    (List.replicate m ((List.range n).map f)).flatten = (List.range (m * n)).map fun k => f (k % n) := by
  rw [← flatMap_range m n fun _ b => f b, List.flatMap_def]
  congr 1
  rw [List.map_const', List.length_range]

/-- Elements repeated, over the number of the element. -/
theorem flatMap_replicate_map_range (m n : ℕ) (f : ℕ → α) :
    ((List.range m).map f).flatMap (List.replicate n) = (List.range (m * n)).map fun k => f (k / n) := by
  rw [← flatMap_range m n fun a _ => f a, List.flatMap_map]
  congr 1
  funext a
  rw [List.map_const', List.length_range]

/-- All the results are there: as a list. -/
theorem mapM_eq_some_iff_map {f : α → Option β} {xs : List α} {ys : List β} :
    xs.mapM f = some ys ↔ ys.map some = xs.map f := by
  induction xs generalizing ys with
  | nil => cases ys <;> simp
  | cons x xs ih =>
    rw [List.mapM_cons]
    cases ys with
    | nil => cases f x <;> cases xs.mapM f <;> simp
    | cons y ys =>
      rw [List.map_cons, List.map_cons, List.cons.injEq, ← ih]
      cases f x <;> cases xs.mapM f <;> simp [eq_comm]

theorem exists_mapM_eq_some {f : α → Option β} {xs : List α} (h : ∀ x ∈ xs, (f x).isSome) :
    ∃ ys, xs.mapM f = some ys := by
  induction xs with
  | nil => exact ⟨[], rfl⟩
  | cons x xs ih =>
    obtain ⟨y, hy⟩ := Option.isSome_iff_exists.mp (h x List.mem_cons_self)
    obtain ⟨ys, hys⟩ := ih fun z hz => h z (List.mem_cons_of_mem _ hz)
    exact ⟨y :: ys, by rw [List.mapM_cons, hy, hys]; rfl⟩

theorem isSome_mapM_iff {f : α → Option β} {xs : List α} : (xs.mapM f).isSome ↔ ∀ x ∈ xs, (f x).isSome := by
  refine ⟨fun h => ?_, fun h => Option.isSome_iff_exists.mpr (exists_mapM_eq_some h)⟩
  obtain ⟨ys, hys⟩ := Option.isSome_iff_exists.mp h
  induction xs generalizing ys with
  | nil => exact fun x hx => nomatch hx
  | cons x xs ih =>
    rw [List.mapM_cons] at hys
    obtain ⟨y, hy, hys⟩ := Option.bind_eq_some_iff.mp hys
    obtain ⟨zs, hzs, -⟩ := Option.bind_eq_some_iff.mp hys
    rw [List.forall_mem_cons, hy]
    exact ⟨rfl, ih (by rw [hzs]; rfl) zs hzs⟩

/-- The results of a range of numbers, as those of the elements of a list. -/
theorem exists_mapM_range_iff {f : ℕ → Option β} {n : ℕ} {xs : List α} {target : α → Option β} :
    (∃ ys, (List.range n).mapM f = some ys ∧ ys.map some = xs.map target) ↔
      n = xs.length ∧ ∀ k x, xs[k]? = some x → ∃ y, f k = some y ∧ target x = some y := by
  constructor
  · rintro ⟨ys, hys, htarget⟩
    have hmap := mapM_eq_some_iff_map.mp hys
    have hlength : ys.length = n := by simpa using congrArg List.length hmap
    have hlength' : ys.length = xs.length := by simpa using congrArg List.length htarget
    refine ⟨hlength.symm.trans hlength', fun k x hx => ?_⟩
    have hk : k < ys.length := hlength' ▸ (List.getElem?_eq_some_iff.mp hx).1
    refine ⟨ys[k], ?_, ?_⟩
    · have hf := congrArg (·[k]?) hmap
      simpa [List.getElem?_eq_getElem hk, hlength ▸ hk] using hf.symm
    · have ht := congrArg (·[k]?) htarget
      simpa [List.getElem?_eq_getElem hk, hx] using ht.symm
  · rintro ⟨rfl, hall⟩
    have hsome : ∀ k ∈ List.range xs.length, (f k).isSome := fun k hk => by
      obtain ⟨y, hy, -⟩ := hall k _ (List.getElem?_eq_getElem (List.mem_range.mp hk))
      exact Option.isSome_of_eq_some hy
    obtain ⟨ys, hys⟩ := exists_mapM_eq_some hsome
    refine ⟨ys, hys, (mapM_eq_some_iff_map.mp hys).trans (List.ext_getElem? fun k => ?_)⟩
    rw [List.getElem?_map, List.getElem?_map]
    cases hx : xs[k]? with
    | none => rw [List.getElem?_eq_none (by simpa using hx), Option.map_none, Option.map_none]
    | some x =>
      obtain ⟨y, hy, ht⟩ := hall k x hx
      rw [List.getElem?_range (List.getElem?_eq_some_iff.mp hx).1, Option.map_some, Option.map_some, hy, ht]

/-- **Two selections give the same list** exactly when they are the same, of elements that are all
there and told apart. -/
theorem mapM_eq_mapM_iff {f g : α → Option β} {xs ys : List α} (hg : ∀ y ∈ ys, (g y).isSome)
    (hle : ∀ x b, f x = some b → g x = some b) (hinj : ∀ x y b, g x = some b → g y = some b → x = y) :
    xs.mapM f = ys.mapM g ↔ xs = ys ∧ ∀ y ∈ ys, (f y).isSome := by
  induction ys generalizing xs with
  | nil =>
    cases xs with
    | nil => simp
    | cons x xs => cases h : f x <;> cases h' : xs.mapM f <;> simp [List.mapM_cons, h, h']
  | cons y ys ih =>
    obtain ⟨b, hb⟩ := Option.isSome_iff_exists.mp (hg y List.mem_cons_self)
    have hys : ∀ z ∈ ys, (g z).isSome := fun z hz => hg z (List.mem_cons_of_mem _ hz)
    obtain ⟨bs, hbs⟩ := exists_mapM_eq_some hys
    cases xs with
    | nil => simp [List.mapM_cons, hb, hbs]
    | cons x xs =>
      have ih' := @ih xs hys
      rw [hbs] at ih'
      rw [List.mapM_cons, List.mapM_cons, hb, hbs, List.cons.injEq, List.forall_mem_cons]
      constructor
      · intro h
        obtain ⟨b', hb', h⟩ := Option.bind_eq_some_iff.mp h
        obtain ⟨bs', hbs', h⟩ := Option.bind_eq_some_iff.mp h
        obtain ⟨rfl, rfl⟩ : b' = b ∧ bs' = bs := by simpa using h
        obtain rfl := hinj x y b' (hle x b' hb') hb
        obtain ⟨rfl, hall⟩ := ih'.mp hbs'
        exact ⟨⟨rfl, rfl⟩, by rw [hb']; rfl, hall⟩
      · rintro ⟨⟨rfl, rfl⟩, hx, hall⟩
        obtain ⟨b', hb'⟩ := Option.isSome_iff_exists.mp hx
        obtain rfl : b' = b := Option.some.inj ((hle x b' hb').symm.trans hb)
        rw [hb', ih'.mpr ⟨rfl, hall⟩]

/-! ### Nests of any depth -/

/-- The iterations of a nest, from the numbers of iterations of its loops, outermost first. -/
def tuples : List ℕ → List (List ℕ)
  | [] => [[]]
  | n :: ns => (List.range n).flatMap fun a => (tuples ns).map (a :: ·)

theorem length_tuples (ns : List ℕ) : (tuples ns).length = ns.prod := by
  induction ns with
  | nil => rfl
  | cons n ns ih =>
    rw [tuples, List.length_flatMap, List.prod_cons]
    simp only [List.length_map, ih, List.map_const', List.length_range, List.sum_replicate_nat]

theorem length_of_mem_tuples {ns t : List ℕ} (h : t ∈ tuples ns) : t.length = ns.length := by
  induction ns generalizing t with
  | nil => rw [List.mem_singleton.mp h]
  | cons n ns ih =>
    simp only [tuples, List.mem_flatMap, List.mem_map] at h
    obtain ⟨a, -, t', ht', rfl⟩ := h
    rw [List.length_cons, List.length_cons, ih ht']

/-- The iterations of a nest in a nest. -/
theorem tuples_append (ms ns : List ℕ) :
    tuples (ms ++ ns) = (tuples ms).flatMap fun a => (tuples ns).map (a ++ ·) := by
  induction ms with
  | nil => simp [tuples]
  | cons m ms ih =>
    rw [List.cons_append, tuples, ih, tuples, List.flatMap_assoc]
    refine List.flatMap_congr fun a _ => ?_
    rw [List.map_flatMap, List.flatMap_map]
    refine List.flatMap_congr fun b _ => ?_
    rw [List.map_map]
    rfl

/-- A loop whose iterator is not used repeats what is in it. -/
theorem flatMap_const (xs : List α) (l : List β) :
    (xs.flatMap fun _ => l) = (List.replicate xs.length l).flatten := by
  rw [List.flatMap_def, List.map_const']

/-- The numbers before one, it, and those after it. -/
theorem range_split {m p : ℕ} (h : p < m) :
    List.range m = List.range p ++ p :: (List.range (m - p - 1)).map (p + 1 + ·) := by
  obtain ⟨r, rfl⟩ := Nat.exists_eq_add_of_lt h
  have hr : p + r + 1 - p - 1 = r := by omega
  rw [hr, Nat.add_assoc, List.range_add, List.range_succ_eq_map, List.map_cons, List.map_map]
  simp only [Function.comp_def, Nat.add_zero, Nat.succ_eq_add_one]
  congr 2
  refine List.map_congr_left fun k _ => ?_
  omega

/-- The only number of those below a bound that satisfies a predicate. -/
theorem filter_range_single {m p : ℕ} {P : ℕ → Prop} [DecidablePred P] (hp : p < m)
    (hP : ∀ k < m, P k ↔ k = p) :
    (List.range m).filter P = [p] := by
  rw [range_split hp, List.filter_append, List.filter_cons_of_pos (by simpa using (hP p hp).mpr rfl),
    List.filter_eq_nil_iff.mpr, List.filter_eq_nil_iff.mpr, List.nil_append]
  · intro k hk
    obtain ⟨j, hj, rfl⟩ := List.mem_map.mp hk
    have := List.mem_range.mp hj
    rw [decide_eq_true_eq, hP (p + 1 + j) (by omega)]
    omega
  · intro k hk
    have := List.mem_range.mp hk
    rw [decide_eq_true_eq, hP k (by omega)]
    omega

/-- The only two. -/
theorem filter_range_pair {m p q : ℕ} {P : ℕ → Prop} [DecidablePred P] (hpq : p < q) (hq : q < m)
    (hP : ∀ k < m, P k ↔ k = p ∨ k = q) : (List.range m).filter P = [p, q] := by
  have hfirst : (List.range p).filter P = [] := by
    refine List.filter_eq_nil_iff.mpr fun k hk => ?_
    have := List.mem_range.mp hk
    rw [decide_eq_true_eq, hP k (by omega)]
    omega
  have hsecond : (List.range (m - p - 1)).filter (fun k => P (p + 1 + k)) = [q - p - 1] := by
    refine filter_range_single (by omega) fun k hk => ?_
    rw [hP (p + 1 + k) (by omega)]
    omega
  rw [range_split (hpq.trans hq), List.filter_append, hfirst,
    List.filter_cons_of_pos (by simpa using (hP p (hpq.trans hq)).mpr (.inl rfl)), List.filter_map,
    Function.comp_def, hsecond, List.map_singleton, List.nil_append]
  congr 2
  omega

/-- A nest begins with the first iteration of its outer loop. -/
theorem isPrefix_flatMap_range {n : ℕ} (hn : 0 < n) (f : ℕ → List α) : f 0 <+: (List.range n).flatMap f := by
  obtain ⟨n, rfl⟩ := Nat.exists_eq_add_of_lt hn
  rw [Nat.zero_add, List.range_succ_eq_map, List.flatMap_cons]
  exact List.prefix_append _ _

theorem isPrefix_flatten_replicate {n : ℕ} (hn : 0 < n) (l : List α) :
    l <+: (List.replicate n l).flatten := by
  obtain ⟨n, rfl⟩ := Nat.exists_eq_add_of_lt hn
  rw [Nat.zero_add, List.replicate_succ, List.flatten_cons]
  exact List.prefix_append _ _

/-- **A loop that is not used, between two that are**: repeating each element as often as all the
loops after the first of those between iterate is repeating the elements of the second one as often
as those between do only where there is no element, or the number of both loops is one. -/
theorem repeated_eq_iff {g : ℕ → ℕ → α} {P A B M N Q : ℕ} (hg : 2 ≤ B → 0 < A → g 0 0 ≠ g 0 1) :
    (List.replicate P ((List.range A).flatMap fun a =>
        (List.range B).flatMap fun b => List.replicate (N * (B * Q)) (g a b))).flatten =
      (List.replicate P ((List.range A).flatMap fun a =>
        (List.replicate (M * N) ((List.range B).flatMap fun b =>
          List.replicate Q (g a b))).flatten)).flatten ↔
      P = 0 ∨ A = 0 ∨ B = 0 ∨ N = 0 ∨ Q = 0 ∨ (M = 1 ∧ B = 1) := by
  constructor
  · intro h
    by_contra hcon
    simp only [not_or, not_and, ← Nat.pos_iff_ne_zero] at hcon
    obtain ⟨hP, hA, hB, hN, hQ, hone⟩ := hcon
    have hlen := congrArg List.length h
    simp only [List.length_flatten, List.length_flatMap, List.map_replicate, List.sum_replicate_nat,
      List.length_replicate, List.map_const', List.length_range] at hlen
    have hMB : M = B := by
      have hcancel := Nat.eq_of_mul_eq_mul_left hA (Nat.eq_of_mul_eq_mul_left hP hlen)
      have hpos : 0 < N * (B * Q) := Nat.mul_pos hN (Nat.mul_pos hB hQ)
      have : B * (N * (B * Q)) = M * (N * (B * Q)) := by rw [hcancel]; ring
      exact (Nat.eq_of_mul_eq_mul_right hpos this).symm
    have hB2 : 2 ≤ B := by
      rcases Nat.lt_or_ge B 2 with hlt | hge
      · exact absurd (show B = 1 by omega) (hone (by omega))
      · exact hge
    -- the element after the first `Q` is the second of the inner loop, which comes later on the
    -- other side
    have hleft : List.replicate (N * (B * Q)) (g 0 0) <+: (List.replicate P ((List.range A).flatMap fun a =>
        (List.range B).flatMap fun b => List.replicate (N * (B * Q)) (g a b))).flatten :=
      ((isPrefix_flatMap_range hB fun b => List.replicate (N * (B * Q)) (g 0 b)).trans
        (isPrefix_flatMap_range hA fun a =>
          (List.range B).flatMap fun b => List.replicate (N * (B * Q)) (g a b))).trans (isPrefix_flatten_replicate hP _)
    have hinner : List.replicate Q (g 0 0) ++ [g 0 1] <+: (List.range B).flatMap fun b =>
      List.replicate Q (g 0 b) := by
      obtain ⟨B, rfl⟩ := Nat.exists_eq_add_of_le hB2
      obtain ⟨Q, rfl⟩ := Nat.exists_eq_add_of_lt hQ
      rw [Nat.add_comm 2, List.range_succ_eq_map, List.range_succ_eq_map, List.flatMap_cons,
        List.map_cons, List.flatMap_cons, Nat.zero_add, List.replicate_succ (a := g 0 (Nat.succ 0)),
        List.cons_append, List.prefix_append_right_inj]
      exact ⟨_, rfl⟩
    have hright := ((hinner.trans (isPrefix_flatten_replicate (Nat.mul_pos (hMB ▸ hB) hN) _)).trans
      (isPrefix_flatMap_range hA fun a =>
        (List.replicate (M * N) ((List.range B).flatMap fun b => List.replicate Q (g a b))).flatten)).trans
          (isPrefix_flatten_replicate hP _)
    rw [← h] at hright
    obtain ⟨rest, hrest⟩ := hleft
    obtain ⟨rest', hrest'⟩ := hright
    have hlt : Q < N * (B * Q) := by nlinarith [Nat.mul_le_mul_right Q hB2, Nat.le_mul_of_pos_left (B * Q) hN]
    have hget := congrArg (fun l => l[Q]?) (hrest.trans hrest'.symm)
    beta_reduce at hget
    rw [List.getElem?_append_left (by simpa using hlt), List.getElem?_append_left (by simp),
      List.getElem?_replicate_of_lt hlt, List.getElem?_append_right (by simp)] at hget
    simp only [List.length_replicate, Nat.sub_self, List.getElem?_cons_zero, Option.some.injEq] at hget
    exact hg hB2 hA hget
  · rintro (rfl | rfl | rfl | rfl | rfl | ⟨rfl, rfl⟩)
    · rfl
    · simp
    · simp
    · simp [flatMap_const]
    · simp [flatMap_const]
    · simp

end Octantis.Lib
