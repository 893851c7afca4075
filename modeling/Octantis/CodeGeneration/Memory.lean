import Octantis.CodeGeneration.PrintVhdlFile
import Octantis.Binding.WithoutShifts

/-!
# The memory of the component

The memory has a word for each row, and the word of a row is its name divided by 4:
every access is inside the memory exactly when the names in use have no gap.

## What is proved

* `InMemory.resultAddressVector`, `InMemory.memIndices`: when the rows are inside the
  memory, so are the addresses of the testbench and, when only rows have a time
  (`TimesOfRows`), those of the processes.
* `inMemory_add_one`, `inMemory_add_two`: a row added keeps the accesses inside
  exactly when its name is the next one.
* `timesOfRows_bindStep`: a step that takes the next names gives times to rows only; a
  shift of a row with logic, which gives one to a variable never set, does not.
* `inMemory_iff`: at the end of a run every row is inside the memory exactly when
  every step that added rows found the next name free to use (`NextNames`), and then
  every index printed is inside it too.
* `sum_after_sum_outside`: two sums of loaded rows already leave the memory, as the
  name reserved after the last element of the first is never handed back.
-/

namespace Octantis

open Std Lib PrintVhdlFile

variable {b b' : LiMBinder} {operation : Operation} {specifications : List String}
  {src1 src2 dest row other m : Name} {w : Way} {base : LiMRow} {t : ℤ} {A A' : LiMArray}
  {F : FiniteStateMachine}

/-- Every row of the array is inside the memory. -/
def InMemory (A : LiMArray) : Prop := ∀ n row, A.findRow n = some row → memIndex n < entries A

theorem inMemory_iff_lt : InMemory A ↔ ∀ n, (A.findRow n).isSome → n < 4 * A.getDimensions := by
  unfold InMemory memIndex entries
  constructor
  · intro h n hn
    obtain ⟨row, hrow⟩ := Option.isSome_iff_exists.mp hn
    have := h n row hrow
    lia
  · intro h n row hrow
    have := h n (Option.isSome_of_eq_some hrow)
    lia

/-- The result rows of the testbench are inside the memory too. -/
theorem InMemory.resultAddressVector (h : InMemory A) : ∀ i ∈ resultAddressVector A, i < entries A := by
  intro i hi
  obtain ⟨n, hn, rfl⟩ := List.mem_map.mp hi
  obtain ⟨⟨n, row⟩, hrow, rfl⟩ := List.mem_map.mp hn
  have hmem := (List.mem_filter.mp hrow).1
  rw [ExtTreeMap.mem_toList_iff_getElem?_eq_some] at hmem
  exact h n row hmem

/-- Only rows of the array have a time. -/
def TimesOfRows (A : LiMArray) (F : FiniteStateMachine) : Prop :=
  ∀ n, (F.getTime n).isSome → (A.findRow n).isSome

/-- The rows of the times are inside the memory too, when only rows have a time. -/
theorem InMemory.memIndices (h : InMemory A) (hr : TimesOfRows A F) (pending : F.FSM = ∅) :
    ∀ i ∈ memIndices F.transform, i < entries A := by
  intro i hi
  obtain ⟨n, hn, rfl⟩ := List.mem_map.mp hi
  have hread : n ∈ readRows F.transform := by
    rcases List.mem_append.mp hn with hn | hn
    · obtain ⟨entry, hentry, hn⟩ := List.mem_flatMap.mp hn
      split at hn
      · cases hn
      · exact List.mem_flatMap.mpr ⟨entry, hentry, hn⟩
    · exact hn
  obtain ⟨⟨t, rows⟩, hentry, hn⟩ := List.mem_flatMap.mp hread
  rw [ExtTreeMap.mem_toList_iff_getElem?_eq_some] at hentry
  have htime := (FiniteStateMachine.mem_transform pending).mp ⟨rows, hentry, hn⟩
  obtain ⟨row, hrow⟩ := Option.isSome_iff_exists.mp (hr n (Option.isSome_of_eq_some htime))
  exact h n row hrow

/-- A row added keeps every row inside the memory exactly when it has the next name. -/
theorem inMemory_add_one (keys : ∀ n, (A'.findRow n).isSome ↔ (A.findRow n).isSome ∨ n = m)
    (size : A'.getDimensions = A.getDimensions + 1) (above : ∀ n, (A.findRow n).isSome → n < m)
    (aligned : 4 ∣ m) (counted : 4 * A.getDimensions ≤ m) :
    InMemory A' ↔ InMemory A ∧ m = 4 * A.getDimensions := by
  simp only [inMemory_iff_lt, size, keys]
  constructor
  · intro h
    have hm : m = 4 * A.getDimensions := by
      have := h m (.inr rfl)
      lia
    exact ⟨fun n hn => hm ▸ above n hn, hm⟩
  · rintro ⟨h, hm⟩ n (hn | rfl)
    · have := h n hn
      lia
    · lia

/-- Two rows added keep every row inside the memory exactly when they have the next names. -/
theorem inMemory_add_two {m' : Name}
    (keys : ∀ n, (A'.findRow n).isSome ↔ (A.findRow n).isSome ∨ n = m ∨ n = m')
    (size : A'.getDimensions = A.getDimensions + 2) (above : ∀ n, (A.findRow n).isSome → n < m)
    (aligned : 4 ∣ m ∧ 4 ∣ m') (counted : 4 * A.getDimensions ≤ m) (lt : m + 4 ≤ m') :
    InMemory A' ↔ InMemory A ∧ m = 4 * A.getDimensions ∧ m' = m + 4 := by
  simp only [inMemory_iff_lt, size, keys]
  constructor
  · intro h
    have hm' := h m' (.inr (.inr rfl))
    have hm : m = 4 * A.getDimensions := by lia
    exact ⟨fun n hn => hm ▸ above n hn, hm, by lia⟩
  · rintro ⟨h, hm, hm'⟩ n (hn | rfl | rfl)
    · have := h n hn
      lia
    · lia
    · lia

/-- The rows after a mapping. -/
theorem Realizes.keys (h : Realizes b operation specifications src1 src2 dest w row other base t A F)
    (n : Name) :
    (A.findRow n).isSome ↔
      (b.MemArray.findRow n).isSome ∨ n = dest ∨ (w = .copy ∧ n = b.zeroAddr) := by
  constructor
  · intro hn
    obtain ⟨new, hnew⟩ := Option.isSome_iff_exists.mp hn
    exact h.rows_of_findRow hnew
  · have hrow := h.site.row_eq
    rw [h.rows]
    rintro (hn | rfl | ⟨rfl, rfl⟩)
    · split
      · rfl
      split
      · rfl
      · exact hn
    · simp
    · rw [if_pos rfl] at hrow
      split
      · rfl
      · simp [hrow]

/-! ### The names of a step -/

/-- The number of rows. -/
def BinderState.size (s : BinderState) : ℕ := s.binder.MemArray.getDimensions

/-- Every row has taken a name of its own, below the next one. -/
def BinderState.Counted (s : BinderState) : Prop := 4 * s.size ≤ s.tmpDestAddr.getD s.binder.zeroAddr

/-- The names that a step takes for the rows it adds are the next ones, 4 times the number of rows:
no name was taken before and left unused. -/
def NextNames (s : BinderState) : BindingAction → Prop
  | .load _ _ | .accumulate _ _ _ _ => s.binder.zeroAddr = 4 * s.size
  | .element operation _ _ src1 src2 _ =>
    s.tmpDestAddr = some (4 * s.size) ∧
      -- a copy row takes a second name; a shift that needs one leaves its first unused
      (operation.isShift = true → s.binder.MemArray.isLiMRowOfThisType src1 .load = some true) ∧
      (operation.isShift = false → (s.binder.site true operation src1 src2).map (·.1) = some .copy →
        s.binder.zeroAddr = 4 * s.size + 4)
  | .enter _ | .leave => True

instance (s : BinderState) : (a : BindingAction) → Decidable (NextNames s a)
  | .load _ _ | .accumulate _ _ _ _ => inferInstanceAs (Decidable (s.binder.zeroAddr = 4 * s.size))
  | .element _ _ _ _ _ _ => inferInstanceAs (Decidable (_ ∧ _ ∧ _))
  | .enter _ | .leave => .isTrue trivial

/-- What a run of pairs does to the names and to the rows: if it adds a row, every row stays inside
the memory exactly when the next name was the next index. -/
structure PairNames (b b' : LiMBinder) : Prop where
  counted : 4 * b'.MemArray.getDimensions ≤ b'.zeroAddr
  size_le : b.MemArray.getDimensions ≤ b'.MemArray.getDimensions
  same : b'.MemArray.getDimensions = b.MemArray.getDimensions → b'.zeroAddr = b.zeroAddr
  dense : b.zeroAddr = 4 * b.MemArray.getDimensions → b'.zeroAddr = 4 * b'.MemArray.getDimensions
  inMemory : InMemory b'.MemArray ↔ InMemory b.MemArray ∧
    (b'.MemArray.getDimensions ≠ b.MemArray.getDimensions → b.zeroAddr = 4 * b.MemArray.getDimensions)

/-- A pair takes the next name, or the next two. -/
theorem names_bindPair {row1 row2 tmpName : Name} (hb : b.WellFormed)
    (hc : 4 * b.MemArray.getDimensions ≤ b.zeroAddr)
    (h : b.bindPair operation specifications row1 row2 = some (b', tmpName)) :
    b.MemArray.getDimensions < b'.MemArray.getDimensions ∧
      4 * b'.MemArray.getDimensions ≤ b'.zeroAddr ∧
      (b.zeroAddr = 4 * b.MemArray.getDimensions → b'.zeroAddr = 4 * b'.MemArray.getDimensions) ∧
      (InMemory b'.MemArray ↔ InMemory b.MemArray ∧ b.zeroAddr = 4 * b.MemArray.getDimensions) := by
  obtain ⟨w, row, other, base, t, -, htmp, hr, hb'⟩ :=
    LiMBinder.bindPair_realizes hb.freshZero hb.freshNext h
  have hzero : b'.zeroAddr = tmpName + 4 := by rw [hb']
  have hsize := hr.size
  have habove : ∀ n, (b.MemArray.findRow n).isSome → n < b.zeroAddr := by
    intro n hn
    obtain ⟨old, hold⟩ := Option.isSome_iff_exists.mp hn
    exact (hb.named.rows n old hold).1
  have halign := hb.named.aligned
  by_cases hw : w = .copy
  · rw [if_pos hw] at hsize htmp
    refine ⟨by lia, by lia, fun hz => by lia, ?_⟩
    have hkeys : ∀ n, (b'.MemArray.findRow n).isSome ↔
        (b.MemArray.findRow n).isSome ∨ n = b.zeroAddr ∨ n = tmpName := by
      intro n
      rw [hr.keys]
      simp only [hw, true_and, or_comm (a := n = tmpName)]
    rw [inMemory_add_two hkeys hsize habove ⟨halign, by lia⟩ hc (by lia), htmp]
    simp
  · rw [if_neg hw] at hsize htmp
    have htmp : tmpName = b.zeroAddr := htmp
    refine ⟨by lia, by lia, fun hz => by lia, ?_⟩
    refine inMemory_add_one (fun n => ?_) hsize habove halign hc
    rw [hr.keys]
    simp [hw, htmp]

/-- A run of pairs takes the next names. -/
theorem names_pairs {pairs : List (Name × Name)} (hb : b.WellFormed) (hop : operation ≠ .load)
    (hc : 4 * b.MemArray.getDimensions ≤ b.zeroAddr)
    (h : run (LiMBinder.pairStep operation specifications) b pairs = some b') : PairNames b b' := by
  refine (run_invariant (P := fun b' => b'.WellFormed ∧ PairNames b b') (Q := fun _ => True)
    ⟨hb, hc, Nat.le_refl _, fun _ => rfl, id, by simp⟩ ?_ (fun _ _ => trivial) h).2
  rintro b₁ pair b₂ - ⟨hb₁, hn⟩ hstep
  obtain ⟨⟨b₂, tmpName⟩, hpair, rfl⟩ := Option.map_eq_some_iff.mp hstep
  obtain ⟨hlt, hcounted, hdense, hiff⟩ := names_bindPair hb₁ hn.counted hpair
  have hle := hn.size_le
  refine ⟨(LiMBinder.wellFormed_bindPair hb₁ hop hpair).1, hcounted, by lia, fun hsame => by lia,
    fun hz => hdense (hn.dense hz), ?_⟩
  rw [hiff, hn.inMemory]
  have hne : b₂.MemArray.getDimensions ≠ b.MemArray.getDimensions := by lia
  constructor
  · rintro ⟨⟨hin, hz⟩, hz₁⟩
    refine ⟨hin, fun _ => ?_⟩
    by_cases hsame : b₁.MemArray.getDimensions = b.MemArray.getDimensions
    · rw [← hn.same hsame, hz₁, hsame]
    · exact hz hsame
  · rintro ⟨hin, hz⟩
    exact ⟨⟨hin, fun _ => hz hne⟩, hn.dense (hz hne)⟩

/-- A step that adds no row keeps every row where it was. -/
theorem inMemory_of_eq {P : Prop} (h : A' = A) :
    InMemory A' ↔ InMemory A ∧ (A'.getDimensions ≠ A.getDimensions → P) := by
  rw [h]
  simp

/-- The element of an operation takes the name reserved, and the next one for a copy row. -/
theorem names_bindElement {s s' : BinderState} {destReg : Reg} {junk : Indeterminate}
    (hs : s.WellFormed) (hc : s.Counted)
    (h : s.bindElement operation specifications destReg src1 src2 junk = some s') :
    s'.Counted ∧ (InMemory s'.binder.MemArray ↔ InMemory s.binder.MemArray ∧
      (s'.size ≠ s.size → NextNames s (.element operation specifications destReg src1 src2 junk))) := by
  obtain ⟨dest, hdest, h⟩ := Option.bind_eq_some_iff.mp h
  obtain ⟨b', hb', h⟩ := Option.bind_eq_some_iff.mp h
  cases h
  obtain ⟨hn, hle, ha⟩ := hs.named_of_reserved hdest
  rw [BinderState.Counted, hdest] at hc
  have hc : 4 * s.binder.MemArray.getDimensions ≤ dest := hc
  have fresh : s.binder.MemArray.findRow dest = none := hn.fresh (Nat.le_refl _)
  have freshZero : s.binder.MemArray.findRow s.binder.zeroAddr = none := hn.fresh (by lia)
  have habove : ∀ n, (s.binder.MemArray.findRow n).isSome → n < dest := by
    intro n hn'
    obtain ⟨old, hold⟩ := Option.isSome_iff_exists.mp hn'
    exact (hn.rows n old hold).1
  have hnext : NextNames s (.element operation specifications destReg src1 src2 junk) ↔
      dest = 4 * s.binder.MemArray.getDimensions ∧
        (operation.isShift = true → s.binder.MemArray.isLiMRowOfThisType src1 .load = some true) ∧
        (operation.isShift = false → (s.binder.site true operation src1 src2).map (·.1) = some .copy →
          s.binder.zeroAddr = 4 * s.binder.MemArray.getDimensions + 4) := by
    rw [NextNames, hdest, Option.some.injEq]
    rfl
  rw [hnext]
  rcases LiMBinder.performBinding_cases hb' with
    ⟨d, -, -, rfl⟩ | ⟨d, op, -, -, -, rfl⟩ | ⟨-, hshift, hmap⟩ | ⟨-, hshift, hmap⟩
  · rw [LiMBinder.addNewItemInRefPos_eq]
    refine ⟨?_, inMemory_of_eq rfl⟩
    show 4 * s.binder.MemArray.getDimensions ≤ s.binder.zeroAddr - 4
    lia
  · refine ⟨?_, inMemory_of_eq rfl⟩
    show 4 * s.binder.MemArray.getDimensions ≤ s.binder.zeroAddr
    lia
  · cases LiMBinder.mapShift_cases (b := s.binder.addNewItem destReg dest) hs.loads fresh freshZero hmap with
    | @convert old logic found load rows size times rest =>
      have hsize : b'.MemArray.getDimensions = s.binder.MemArray.getDimensions + 1 := size
      have hzero : b'.zeroAddr = s.binder.zeroAddr := by
        rw [rest]
        rfl
      have found : s.binder.MemArray.findRow src1 = some old := found
      have hkeys : ∀ n, (b'.MemArray.findRow n).isSome ↔
          (s.binder.MemArray.findRow n).isSome ∨ n = dest := by
        intro n
        rw [rows]
        by_cases hd : n = dest
        · rw [if_pos hd]
          simp [hd]
        by_cases h1 : n = src1
        · rw [if_neg hd, if_pos h1, h1, found]
          simp
        · rw [if_neg hd, if_neg h1]
          exact (or_iff_left hd).symm
      have hload : s.binder.MemArray.isLiMRowOfThisType src1 .load = some true := by
        simp [LiMArray.isLiMRowOfThisType, found, load]
      refine ⟨?_, (inMemory_add_one hkeys hsize habove hn.aligned hc).trans ?_⟩
      · show 4 * b'.MemArray.getDimensions ≤ b'.zeroAddr
        lia
      · simp [hload, hshift, BinderState.size, hsize]
    | copy logic rows size times rest =>
      -- the copy row takes the second name, and the first stays unused
      have hsize : b'.MemArray.getDimensions = s.binder.MemArray.getDimensions + 1 := size
      have hzero : b'.zeroAddr = s.binder.zeroAddr + 4 := by
        rw [rest]
        rfl
      have hkeys : ∀ n, (b'.MemArray.findRow n).isSome ↔
          (s.binder.MemArray.findRow n).isSome ∨ n = s.binder.zeroAddr := by
        intro n
        have rows := rows n
        rw [rows]
        by_cases hz : n = s.binder.zeroAddr
        · have hz' : n = (s.binder.addNewItem destReg dest).zeroAddr := hz
          rw [if_pos hz']
          simp [hz]
        · have hz' : ¬ n = (s.binder.addNewItem destReg dest).zeroAddr := hz
          rw [if_neg hz']
          exact (or_iff_left hz).symm
      refine ⟨?_, (inMemory_add_one hkeys hsize (fun n hn => ?_) ha (by lia)).trans ?_⟩
      · show 4 * b'.MemArray.getDimensions ≤ b'.zeroAddr
        lia
      · have := habove n hn
        lia
      · refine iff_of_false (fun h => ?_) (fun h => ?_)
        · have := h.2
          lia
        · obtain ⟨-, hload, -⟩ := h.2 (by
            show b'.MemArray.getDimensions ≠ s.binder.MemArray.getDimensions
            lia)
          have logic : s.binder.MemArray.isLiMRowOfThisType src1 .load = some false := logic
          rw [logic] at hload
          cases hload hshift
  · obtain ⟨w, row, other, base, t, hsite, hreal, hrest⟩ :=
      LiMBinder.mapOperation_realizes (b := s.binder.addNewItem destReg dest) fresh freshZero
        (show dest ≠ s.binder.zeroAddr by lia) hmap
    have hzero : b'.zeroAddr = s.binder.zeroAddr + if w = .copy then 4 else 0 := by
      rw [hrest]
      rfl
    have hsite : s.binder.site true operation src1 src2 = some (w, row, other) := hsite
    have hsize : b'.MemArray.getDimensions =
        s.binder.MemArray.getDimensions + if w = .copy then 2 else 1 := hreal.size
    have hkeys : ∀ n, (b'.MemArray.findRow n).isSome ↔
        (s.binder.MemArray.findRow n).isSome ∨ n = dest ∨ (w = .copy ∧ n = s.binder.zeroAddr) := hreal.keys
    by_cases hw : w = .copy
    · rw [if_pos hw] at hsize hzero
      simp only [hw, true_and] at hkeys
      refine ⟨?_, (inMemory_add_two hkeys hsize habove ⟨hn.aligned, ha⟩ hc hle).trans ?_⟩
      · show 4 * b'.MemArray.getDimensions ≤ b'.zeroAddr
        lia
      · refine and_congr_right fun _ => ⟨fun h _ => ⟨h.1, by simp [hshift], fun _ _ => by lia⟩, ?_⟩
        intro h
        obtain ⟨hd, -, hcopy⟩ := h (by
          show b'.MemArray.getDimensions ≠ s.binder.MemArray.getDimensions
          lia)
        have := hcopy hshift (by rw [hsite, hw]; rfl)
        exact ⟨hd, by lia⟩
    · rw [if_neg hw] at hsize hzero
      simp only [hw, false_and, or_false] at hkeys
      refine ⟨?_, (inMemory_add_one hkeys hsize habove hn.aligned hc).trans ?_⟩
      · show 4 * b'.MemArray.getDimensions ≤ b'.zeroAddr
        lia
      · refine and_congr_right fun _ => ⟨fun h _ => ⟨h, by simp [hshift], fun _ hcopy => ?_⟩, ?_⟩
        · rw [hsite, Option.map_some, Option.some.injEq] at hcopy
          exact absurd hcopy hw
        · intro h
          exact (h (by
            show b'.MemArray.getDimensions ≠ s.binder.MemArray.getDimensions
            lia)).1

/-- **The step rule of the names**: a step that adds rows keeps every row inside the memory exactly
when it takes the next names. -/
theorem names_bindStep {s s' : BinderState} {a : BindingAction} (hs : s.WellFormed) (hc : s.Counted)
    (h : bindStep s a = some s') :
    s'.Counted ∧ (InMemory s'.binder.MemArray ↔
      InMemory s.binder.MemArray ∧ (s'.size ≠ s.size → NextNames s a)) := by
  cases a with
  | load destReg ti =>
    obtain ⟨hnone, h⟩ := Option.ite_none_right_eq_some.mp h
    have hnone := Option.isNone_iff_eq_none.mp hnone
    have hb := hs.binder hnone
    cases h
    rw [BinderState.Counted, hnone] at hc
    have hc : 4 * s.binder.MemArray.getDimensions ≤ s.binder.zeroAddr := hc
    have hsize : (s.binder.bindLoad destReg ti).MemArray.getDimensions =
        s.binder.MemArray.getDimensions + 1 := LiMArray.getDimensions_insertRow hb.freshZero _
    have hkeys : ∀ n, ((s.binder.bindLoad destReg ti).MemArray.findRow n).isSome ↔
        (s.binder.MemArray.findRow n).isSome ∨ n = s.binder.zeroAddr := by
      intro n
      rw [LiMBinder.findRow_bindLoad hb.named]
      split
      · next hn => simp [hn]
      · next hn => exact (or_iff_left hn).symm
    refine ⟨?_, (inMemory_add_one hkeys hsize (fun n hn => ?_) hb.named.aligned hc).trans ?_⟩
    · rw [BinderState.Counted, hnone]
      show 4 * (s.binder.bindLoad destReg ti).MemArray.getDimensions ≤ s.binder.zeroAddr + 4
      lia
    · obtain ⟨row, hrow⟩ := Option.isSome_iff_exists.mp hn
      exact (hb.named.rows n row hrow).1
    · refine and_congr_right fun _ => ⟨fun h _ => h, fun h => h (by
        show (s.binder.bindLoad destReg ti).MemArray.getDimensions ≠ s.binder.MemArray.getDimensions
        lia)⟩
  | enter constants =>
    obtain ⟨hnone, h⟩ := Option.ite_none_right_eq_some.mp h
    have hnone := Option.isNone_iff_eq_none.mp hnone
    cases h
    rw [BinderState.Counted, hnone] at hc
    exact ⟨hc, inMemory_of_eq rfl⟩
  | leave =>
    obtain ⟨hsome, h⟩ := Option.ite_none_right_eq_some.mp h
    obtain ⟨t, ht⟩ := Option.isSome_iff_exists.mp hsome
    cases h
    obtain ⟨-, hle, -⟩ := hs.named_of_reserved ht
    rw [BinderState.Counted, ht] at hc
    refine ⟨?_, inMemory_of_eq rfl⟩
    have hc : 4 * s.binder.MemArray.getDimensions ≤ t := hc
    show 4 * s.binder.MemArray.getDimensions ≤ s.binder.zeroAddr
    lia
  | element operation specifications destReg src1 src2 junk =>
    obtain ⟨-, h⟩ := Option.ite_none_right_eq_some.mp h
    exact names_bindElement hs hc h
  | accumulate operation specifications destReg accumulationList =>
    obtain ⟨hguard, h⟩ := Option.ite_none_right_eq_some.mp h
    rw [Bool.and_eq_true] at hguard
    have hop := Operation.ne_load_of_isBound hguard.2
    have hnone := Option.isNone_iff_eq_none.mp hguard.1
    have hb := hs.binder hnone
    obtain ⟨b', hb', h⟩ := Option.bind_eq_some_iff.mp h
    cases h
    rw [BinderState.Counted, hnone] at hc
    obtain ⟨pairs, b₁, row, hrun, -, rfl⟩ := LiMBinder.performAccBinding_run hb hop hb'
    have hnames := names_pairs hb hop hc hrun
    exact ⟨hnames.counted, hnames.inMemory⟩

/-! ### The times of the rows -/

theorem FiniteStateMachine.isSome_getTime_addNewInstruction {t : ℤ} {m n : Name}
    (h : ((F.addNewInstruction t m).getTime n).isSome) : n = m ∨ (F.getTime n).isSome := by
  rw [getTime_addNewInstruction] at h
  split at h
  · next hm => exact .inl hm.1.symm
  · exact .inr h

/-- A shift gives times to the shifting row and to its destination. -/
theorem LiMBinder.isSome_getTime_insertShift {tSrc1 realConstant : ℤ} {m₁ m₂ n : Name}
    (h : ((insertShift F tSrc1 realConstant m₁ m₂).getTime n).isSome) :
    n = m₁ ∨ n = m₂ ∨ (F.getTime n).isSome := by
  rw [insertShift] at h
  rcases FiniteStateMachine.isSome_getTime_addNewInstruction h with hn | h
  · exact .inr (.inl hn)
  generalize realConstant.toNat = k at h
  induction k with
  | zero => exact .inr (.inr h)
  | succ k ih =>
    rw [List.range_succ, List.foldl_append] at h
    rcases FiniteStateMachine.isSome_getTime_addNewInstruction h with hn | h
    · exact .inl hn
    · exact ih h

/-- A mapping gives times to its destination and to its row. -/
theorem LiMBinder.isSome_getTime_scheduleDest {n : Name}
    (h : ((scheduleDest F w row dest t).getTime n).isSome) :
    n = dest ∨ n = row ∨ (F.getTime n).isSome := by
  cases w with
  | convert | mux =>
    rcases FiniteStateMachine.isSome_getTime_addNewInstruction h with hn | h
    · exact .inl hn
    · exact .inr (.inr h)
  | copy =>
    rcases FiniteStateMachine.isSome_getTime_addNewInstruction h with hn | h
    · exact .inl hn
    · rcases FiniteStateMachine.isSome_getTime_addNewInstruction h with hn | h
      · exact .inr (.inl hn)
      · exact .inr (.inr h)

/-- The row of a mapping is in the array after it. -/
theorem Realizes.isSome_row (h : Realizes b operation specifications src1 src2 dest w row other base t A F) :
    (A.findRow row).isSome := by
  rw [h.rows]
  split
  · rfl
  · rw [if_pos rfl]
    rfl

/-- A mapping gives times to rows only. -/
theorem Realizes.timesOfRows
    (h : Realizes b operation specifications src1 src2 dest w row other base t A F)
    (hr : TimesOfRows b.MemArray b.FSMLim) : TimesOfRows A F := by
  intro n hn
  rw [h.times] at hn
  rcases LiMBinder.isSome_getTime_scheduleDest hn with rfl | rfl | hn
  · exact (h.keys _).mpr (.inr (.inl rfl))
  · exact h.isSome_row
  · exact (h.keys n).mpr (.inl (hr n hn))

/-- A shift of a load row gives times to rows only. -/
theorem LiMBinder.timesOfRows_mapShift {junk : Indeterminate} (hl : b.LoadRows)
    (fresh : b.MemArray.findRow dest = none) (freshZero : b.MemArray.findRow b.zeroAddr = none)
    (hload : b.MemArray.isLiMRowOfThisType src1 .load = some true)
    (hr : TimesOfRows b.MemArray b.FSMLim)
    (h : b.mapShift operation specifications src1 src2 dest junk = some b') :
    TimesOfRows b'.MemArray b'.FSMLim := by
  have hkept : ∀ n, (b.MemArray.findRow n).isSome ∨ n = dest → (b'.MemArray.findRow n).isSome := by
    intro n hn
    cases mapShift_cases hl fresh freshZero h with
    | convert logic found load rows =>
      rw [rows]
      split
      · rfl
      split
      · rfl
      · next hd _ => exact hn.resolve_right hd
    | copy logic =>
      rw [hload] at logic
      cases logic
  intro n hn
  obtain ⟨isLoad, hisLoad, h⟩ := Option.bind_eq_some_iff.mp h
  rw [hload] at hisLoad
  cases hisLoad
  obtain ⟨array, -, h⟩ := Option.bind_eq_some_iff.mp h
  obtain ⟨k, -, h⟩ := Option.bind_eq_some_iff.mp h
  obtain ⟨tSrc1, htime, h⟩ := Option.bind_eq_some_iff.mp h
  cases h
  rcases isSome_getTime_insertShift hn with rfl | rfl | hn
  · exact hkept _ (.inl (hr _ (Option.isSome_of_eq_some htime)))
  · exact hkept _ (.inr rfl)
  · exact hkept n (.inl (hr n hn))

/-- Only rows have a time after a step that, if it adds rows, takes the next names. -/
theorem timesOfRows_bindStep {s s' : BinderState} {a : BindingAction} (hs : s.WellFormed)
    (hnext : s'.size ≠ s.size → NextNames s a) (hr : TimesOfRows s.binder.MemArray s.binder.FSMLim)
    (h : bindStep s a = some s') : TimesOfRows s'.binder.MemArray s'.binder.FSMLim := by
  cases a with
  | load destReg ti =>
    obtain ⟨hb, rfl⟩ := bindStep_load hs h
    intro n hn
    show ((s.binder.bindLoad destReg ti).MemArray.findRow n).isSome
    rw [LiMBinder.findRow_bindLoad hb.named]
    split
    · rfl
    · next hz => exact hr n ((FiniteStateMachine.isSome_getTime_addNewInstruction hn).resolve_left hz)
  | enter | leave =>
    obtain ⟨-, h⟩ := Option.ite_none_right_eq_some.mp h
    cases h
    exact hr
  | element operation specifications destReg src1 src2 junk =>
    obtain ⟨hop, dest, b', htmp, hn, hle, -, hb', rfl⟩ := bindStep_element hs h
    have fresh := hn.fresh (Nat.le_refl dest)
    have freshZero := hn.fresh (show dest ≤ s.binder.zeroAddr by lia)
    rcases LiMBinder.performBinding_cases hb' with
      ⟨d, -, -, rfl⟩ | ⟨d, op, -, -, -, rfl⟩ | ⟨-, hshift, hmap⟩ | ⟨-, hshift, hmap⟩
    · rw [LiMBinder.addNewItemInRefPos_eq]
      exact hr
    · exact hr
    · have hsize : b'.MemArray.getDimensions = s.binder.MemArray.getDimensions + 1 := by
        cases LiMBinder.mapShift_cases (b := s.binder.addNewItem destReg dest) hs.loads fresh freshZero
          hmap with
        | convert _ _ _ _ size | copy _ _ size => exact size
      obtain ⟨-, hload, -⟩ := hnext (by
        show b'.MemArray.getDimensions ≠ s.binder.MemArray.getDimensions
        lia)
      have hr' := LiMBinder.timesOfRows_mapShift (b := s.binder.addNewItem destReg dest) hs.loads fresh
        freshZero (hload hshift) hr hmap
      exact hr'
    · obtain ⟨w, row, other, base, t, -, hreal, -⟩ :=
        LiMBinder.mapOperation_realizes (b := s.binder.addNewItem destReg dest) fresh freshZero
          (show dest ≠ s.binder.zeroAddr by lia) hmap
      exact hreal.timesOfRows hr
  | accumulate operation specifications destReg accumulationList =>
    obtain ⟨hop, hb, b', hb', rfl⟩ := bindStep_accumulate hs h
    obtain ⟨pairs, b₁, row, hrun, -, rfl⟩ := LiMBinder.performAccBinding_run hb hop hb'
    show TimesOfRows b₁.MemArray b₁.FSMLim
    refine (run_invariant (P := fun b => b.WellFormed ∧ TimesOfRows b.MemArray b.FSMLim)
      (Q := fun _ => True) ⟨hb, hr⟩ ?_ (fun _ _ => trivial) hrun).2
    rintro b₁ pair b₂ - ⟨hb₁, hr₁⟩ hstep
    obtain ⟨⟨b₂, tmpName⟩, hpair, rfl⟩ := Option.map_eq_some_iff.mp hstep
    obtain ⟨w, row, other, base, t, -, -, hreal, -⟩ :=
      LiMBinder.bindPair_realizes hb₁.freshZero hb₁.freshNext hpair
    exact ⟨(LiMBinder.wellFormed_bindPair hb₁ hop hpair).1, hreal.timesOfRows hr₁⟩

/-- Only rows have a time at the end of a run whose steps took the next names. -/
theorem timesOfRows_of_reaches {par : ℤ} {optTarget : String} {actions : List BindingAction}
    {s : BinderState} (h : Reaches par optTarget actions s)
    (hnext : ∀ t ∈ history par optTarget actions, t.post.size ≠ t.pre.size → NextNames t.pre t.act) :
    TimesOfRows s.binder.MemArray s.binder.FSMLim := by
  refine (run_transitions (P := fun tr s => s.WellFormed ∧
    ((∀ t ∈ tr, t.post.size ≠ t.pre.size → NextNames t.pre t.act) →
      TimesOfRows s.binder.MemArray s.binder.FSMLim)) (Q := fun _ => True)
    ⟨BinderState.wellFormed_init par optTarget, ?_⟩ ?_ (fun _ _ => trivial) h).2 hnext
  · intro _ n hn
    simp [BinderState.init, LiMBinder.init] at hn
  · rintro tr s a s' - ⟨hs, hr⟩ hstep
    refine ⟨(wellFormed_bindStep hs hstep).1, fun hall => ?_⟩
    simp only [List.mem_append, List.mem_singleton, or_imp, forall_and, forall_eq] at hall
    exact timesOfRows_bindStep hs hall.2 (hr hall.1) hstep

/-- At the end of a run every row is inside the memory exactly when each step that added rows took
the next names. -/
theorem inMemory_of_reaches_iff {par : ℤ} {optTarget : String} {actions : List BindingAction}
    {s : BinderState} (h : Reaches par optTarget actions s) :
    InMemory s.binder.MemArray ↔
      ∀ t ∈ history par optTarget actions, t.post.size ≠ t.pre.size → NextNames t.pre t.act := by
  refine (run_transitions (P := fun tr s => s.WellFormed ∧ s.Counted ∧ (InMemory s.binder.MemArray ↔
    ∀ t ∈ tr, t.post.size ≠ t.pre.size → NextNames t.pre t.act)) (Q := fun _ => True)
    ⟨BinderState.wellFormed_init par optTarget, ?_, ?_⟩ ?_ (fun _ _ => trivial) h).2.2
  · simp [BinderState.Counted, BinderState.size, BinderState.init, LiMBinder.init, LiMArray.getDimensions,
      LiMArray.empty]
  · refine iff_of_true ?_ (by simp)
    intro n row hn
    simp [BinderState.init, LiMBinder.init] at hn
  · rintro tr s a s' - ⟨hs, hc, hiff⟩ hstep
    obtain ⟨hc', hiff'⟩ := names_bindStep hs hc hstep
    refine ⟨(wellFormed_bindStep hs hstep).1, hc', ?_⟩
    rw [hiff', hiff]
    simp only [List.mem_append, List.mem_singleton, or_imp, forall_and, forall_eq]

/-- **The memory of a run**: every row is inside the memory at the end exactly when each step that
added rows found no name taken and left unused; and then so is every index `Mem(…)` of the processes
and every address of the testbench. -/
theorem inMemory_iff {par : ℤ} {optTarget : String} {actions : List BindingAction} {s : BinderState}
    (h : Reaches par optTarget actions s) :
    (InMemory s.binder.MemArray ↔
      ∀ t ∈ history par optTarget actions, t.post.size ≠ t.pre.size → NextNames t.pre t.act) ∧
    (InMemory s.binder.MemArray →
      (∀ i ∈ memIndices s.binder.FSMLim.transform, i < entries s.binder.MemArray) ∧
      ∀ i ∈ resultAddressVector s.binder.MemArray, i < entries s.binder.MemArray) := by
  have hiff := inMemory_of_reaches_iff h
  refine ⟨hiff, fun hin => ⟨?_, hin.resultAddressVector⟩⟩
  exact hin.memIndices (timesOfRows_of_reaches h (hiff.mp hin)) (pending_of_reaches h)

/-- Two rows are loaded and added. -/
def oneSum : List BindingAction :=
  [.load 1 0, .load 2 0, .enter 0, .element .add [] 3 0 4 ⟨1, 0, 0⟩, .leave]

theorem oneSum_isSome : (run bindStep (.init 8 "") oneSum).isSome := by decide +kernel

/-- The rows of one sum are inside the memory. -/
theorem inMemory_iff_oneSum : ∃ s, Reaches 8 "" oneSum s ∧ InMemory s.binder.MemArray ∧
    ∀ i ∈ memIndices s.binder.FSMLim.transform, i < entries s.binder.MemArray := by
  obtain ⟨hiff, hindices⟩ := inMemory_iff (Option.some_get oneSum_isSome).symm
  have hin := hiff.mpr (by decide +kernel)
  exact ⟨_, (Option.some_get oneSum_isSome).symm, hin, (hindices hin).1⟩

/-- A second sum is bound after the first. -/
def twoSums : List BindingAction := oneSum ++ [.enter 0, .element .add [] 4 0 8 ⟨1, 0, 0⟩, .leave]

theorem twoSums_isSome : (run bindStep (.init 8 "") twoSums).isSome := by decide +kernel

/-- The result of the second sum, row 16, is outside a memory of 4 words. -/
theorem sum_after_sum_outside : ∃ s, Reaches 8 "" twoSums s ∧ ¬ InMemory s.binder.MemArray := by
  refine ⟨_, (Option.some_get twoSums_isSome).symm, fun h => ?_⟩
  have hrow : ((run bindStep (.init 8 "") twoSums).get twoSums_isSome).binder.MemArray.findRow 16 =
      some (resultRow 8 8) := by decide +kernel
  have hin := h 16 _ hrow
  revert hin
  decide +kernel

end Octantis
