import Octantis.Binding.Extension

/-!
# The reachable states

Every step of the binder keeps the names, the load rows and the destinations in
order (`BinderState.WellFormed`) and extends the state, shifts included; so does
every run. An accumulation is a run of pairs over the same rules.

## What is proved

* `performAccBinding_invariant`: the rule of an accumulation, from what one pair keeps;
  `performAccBinding_run`: it is a run of pairs, and records a row.
* `wellFormed_bindStep`: the step rule; `wellFormed_of_reaches`: the run rule.
-/

namespace Octantis

open Std Lib

variable {b b' : LiMBinder} {operation : Operation} {specifications : List String}
  {src1 src2 dest row other : Name} {w : Way} {base : LiMRow} {t : ℤ}

namespace Realizes

variable {A : LiMArray} {F : FiniteStateMachine}
  (h : Realizes b operation specifications src1 src2 dest w row other base t A F)
include h

/-- Every row of the array was there, or is the result row or the copy row. -/
theorem rows_of_findRow {n : Name} {new : LiMRow} (hn : A.findRow n = some new) :
    (b.MemArray.findRow n).isSome ∨ n = dest ∨ (w = .copy ∧ n = b.zeroAddr) := by
  rw [h.rows] at hn
  split at hn
  · next hd => exact .inr (.inl hd)
  split at hn
  · next hr =>
    have hrow := h.site.row_eq
    split at hrow
    · next hw => exact .inr (.inr ⟨hw, hr.trans hrow⟩)
    · exact .inl (hr ▸ hrow.2)
  · exact .inl (Option.isSome_of_eq_some hn)

/-- The load rows of the array: the result row, and those that were there. -/
theorem loadRows (hop : operation ≠ .load) (hl : b.LoadRows) {n : Name} {new : LiMRow}
    (hn : A.findRow n = some new) (hload : new.rowType = .load) :
    new.additionalLogic = [] ∧ new.inputConnections.length = 1 := by
  rw [h.rows] at hn
  split at hn
  · cases hn
    exact ⟨rfl, rfl⟩
  split at hn
  · cases hn
    rw [LiMRow.connect_rowType, h.site.rowType] at hload
    exact absurd hload hop
  · exact hl n new hn hload

/-- The result row is fed by a row with the operation. -/
theorem feedingType (hb : b'.MemArray = A) :
    b'.feedingType dest = some operation := by
  simp only [LiMBinder.feedingType, hb, h.findRow_dest, resultRow, Option.bind_eq_bind, Option.bind_some,
    List.head?_cons, h.findRow_row, LiMRow.connect_rowType, h.site.rowType]
  rfl

end Realizes

/-- What an entry after `insertIfNew` can be. -/
theorem getElem?_insertIfNew_eq_some {α : Type} {m : ExtTreeMap ℕ α} {k n : ℕ} {v w : α}
    (h : (m.insertIfNew k v)[n]? = some w) : m[n]? = some w ∨ k = n ∧ v = w := by
  rw [ExtTreeMap.getElem?_insertIfNew] at h
  split at h
  · next hk => exact .inr ⟨Nat.compare_eq_eq.mp hk.1, Option.some.inj h⟩
  · exact .inl h

theorem exists_getElem?_insertIfNew {α : Type} (m : ExtTreeMap ℕ α) (k : ℕ) (v : α) :
    ∃ w, (m.insertIfNew k v)[k]? = some w := by
  rw [ExtTreeMap.getElem?_insertIfNew]
  split
  · exact ⟨v, rfl⟩
  · next hk =>
    rw [← Option.isSome_iff_exists, ← ExtTreeMap.mem_iff_isSome_getElem?]
    by_contra hnot
    exact hk ⟨Nat.compare_eq_eq.mpr rfl, hnot⟩

namespace LiMBinder

theorem Extends.findRow_isSome (he : b.Extends b') {n : Name} (h : (b.MemArray.findRow n).isSome) :
    (b'.MemArray.findRow n).isSome := by
  obtain ⟨row, hrow⟩ := Option.isSome_iff_exists.mp h
  obtain ⟨row', hrow', -⟩ := he.rows n row hrow
  exact Option.isSome_of_eq_some hrow'

theorem LastDests.of_extends (h : b.LastDests) (he : b.Extends b')
    (hsame : b'.lastDestMap = b.lastDestMap) : b'.LastDests := by
  intro n d hd
  obtain ⟨op, hop, hf, ht⟩ := h n d (hsame ▸ hd)
  obtain ⟨t, ht⟩ := Option.isSome_iff_exists.mp ht
  exact ⟨op, hop, he.feedingType hop hf, Option.isSome_of_eq_some (he.times d t ht)⟩

/-! ### A pair of an accumulation -/

/-- The binder between two pairs: names, load rows and destinations are in order. -/
structure WellFormed (b : LiMBinder) : Prop where
  named : b.Named b.zeroAddr
  loads : b.LoadRows
  dests : b.LastDests

theorem WellFormed.freshZero (h : b.WellFormed) : b.MemArray.findRow b.zeroAddr = none :=
  h.named.fresh (Nat.le_refl _)

theorem WellFormed.freshNext (h : b.WellFormed) : b.MemArray.findRow (b.zeroAddr + 4) = none :=
  h.named.fresh (Nat.le_add_right _ _)

/-- A pair keeps the binder in order, extends it, and binds a row. -/
theorem wellFormed_bindPair {row1 row2 tmpName : Name} (hb : b.WellFormed) (hop : operation ≠ .load)
    (h : b.bindPair operation specifications row1 row2 = some (b', tmpName)) :
    b'.WellFormed ∧ b.Extends b' ∧ (b'.MemArray.findRow tmpName).isSome := by
  obtain ⟨w, row, other, base, t, -, htmp, hr, hb'⟩ := bindPair_realizes hb.freshZero hb.freshNext h
  have halign : 4 ∣ tmpName := by
    have := hb.named.aligned
    rw [htmp]
    split <;> lia
  have hzero : b'.zeroAddr = tmpName + 4 := by rw [hb']
  have hle : b.zeroAddr ≤ tmpName := by rw [htmp]; exact Nat.le_add_right _ _
  have hext : b.Extends b' := by
    refine ⟨hr.rows_extend hop, ?_, ?_, ?_⟩
    · intro n t ht
      rw [hr.times]
      exact getTime_scheduleDest_of_some ht _ _ _ _
    · intro n d hd
      rw [hb']
      exact hd
    · intro n ns hn
      rw [hb']
      simp only
      split
      · exact hn
      · exact getElem?_insertIfNew_of_some hn
  refine ⟨⟨?_, fun n new => hr.loadRows hop hb.loads, ?_⟩, hext, ?_⟩
  · refine Named.of_rows (b := b) (hb.named.mono ?_ ?_) ?_ (by rw [hb'])
    · rw [hzero]
      lia
    · rw [hzero]
      lia
    · intro n new hn
      rcases hr.rows_of_findRow hn with hold | rfl | ⟨hw, rfl⟩
      · exact .inl hold
      · exact .inr ⟨by rw [hzero]; lia, halign⟩
      · exact .inr ⟨by rw [hzero]; lia, hb.named.aligned⟩
  · exact hb.dests.of_extends hext (by rw [hb'])
  · rw [hr.findRow_dest]
    rfl

/-- One pair, as a step. -/
def pairStep (operation : Operation) (specifications : List String) (b : LiMBinder)
    (pair : Name × Name) : Option LiMBinder :=
  (b.bindPair operation specifications pair.1 pair.2).map (·.1)

/-- A run of pairs keeps the binder in order and extends it. -/
theorem wellFormed_pairs {pairs : List (Name × Name)} (hb : b.WellFormed) (hop : operation ≠ .load)
    (h : run (pairStep operation specifications) b pairs = some b') : b'.WellFormed ∧ b.Extends b' := by
  refine run_invariant (P := fun b' => b'.WellFormed ∧ b.Extends b') (Q := fun _ => True)
    ⟨hb, .refl b⟩ ?_ (fun _ _ => trivial) h
  rintro b₁ pair b₂ - ⟨hb₁, he₁⟩ hstep
  obtain ⟨⟨b₂, tmpName⟩, hpair, rfl⟩ := Option.map_eq_some_iff.mp hstep
  obtain ⟨hb₂, he₂, -⟩ := wellFormed_bindPair hb₁ hop hpair
  exact ⟨hb₂, he₁.trans he₂⟩

/-- A run of pairs records nothing for the registers and the operands. -/
theorem frame_pairs {pairs : List (Name × Name)} (hb : b.WellFormed) (hop : operation ≠ .load)
    (h : run (pairStep operation specifications) b pairs = some b') :
    b'.arrayNamesMap = b.arrayNamesMap ∧ b'.lastDestMap = b.lastDestMap ∧ b'.optTarget = b.optTarget := by
  refine (run_invariant (P := fun b' => b'.WellFormed ∧ b'.arrayNamesMap = b.arrayNamesMap ∧
    b'.lastDestMap = b.lastDestMap ∧ b'.optTarget = b.optTarget) (Q := fun _ => True)
    ⟨hb, rfl, rfl, rfl⟩ ?_ (fun _ _ => trivial) h).2
  rintro b₁ pair b₂ - ⟨hb₁, hframe⟩ hstep
  obtain ⟨⟨b₂, tmpName⟩, hpair, rfl⟩ := Option.map_eq_some_iff.mp hstep
  obtain ⟨w, row, other, base, t, -, -, -, hrest⟩ :=
    bindPair_realizes hb₁.freshZero hb₁.freshNext hpair
  refine ⟨(wellFormed_bindPair hb₁ hop hpair).1, ?_⟩
  rw [hrest]
  exact hframe

/-! ### The levels of an accumulation -/

theorem alternate_perm : ∀ l₁ l₂ : List Name, (alternate l₁ l₂).Perm (l₁ ++ l₂)
  | [], [] => .refl _
  | [], _ :: _ => .refl _
  | _ :: _, [] => by simp [alternate]
  | load :: loads, add :: adds => by
    refine .cons load (.trans (.cons add (alternate_perm loads adds)) ?_)
    exact List.perm_middle.symm

/-- The types of the rows of a level are defined exactly when they are rows. -/
theorem addTypes_eq_some {rows : List Name} {typed : List (Name × Bool)}
    (h : b.addTypes rows = some typed) :
    typed.map (·.1) = rows ∧ ∀ m ∈ rows, (b.MemArray.findRow m).isSome := by
  induction rows generalizing typed with
  | nil =>
    cases h
    exact ⟨rfl, by simp⟩
  | cons m rows ih =>
    obtain ⟨isAdd, hadd, h⟩ := Option.bind_eq_some_iff.mp h
    obtain ⟨rest, hrest, h⟩ := Option.bind_eq_some_iff.mp h
    obtain ⟨row, hrow, -⟩ := Option.bind_eq_some_iff.mp hadd
    obtain ⟨hmap, hall⟩ := ih hrest
    cases h
    refine ⟨by simp [hmap], ?_⟩
    intro m' hm'
    rcases List.mem_cons.mp hm' with rfl | hm'
    · exact Option.isSome_of_eq_some hrow
    · exact hall m' hm'

/-- The order of a level is one of its rows. -/
theorem orderRows_eq_some {rows ordered : List Name} (h : b.orderRows rows = some ordered) :
    ordered.Perm rows ∧ ∀ m ∈ rows, (b.MemArray.findRow m).isSome := by
  obtain ⟨typed, htyped, h⟩ := Option.bind_eq_some_iff.mp h
  obtain ⟨hmap, hall⟩ := addTypes_eq_some htyped
  cases h
  refine ⟨(alternate_perm _ _).trans ?_, hall⟩
  rw [← List.map_append]
  refine List.Perm.trans (List.Perm.map _ ?_) (.of_eq hmap)
  exact (List.perm_append_comm).trans (List.filter_append_perm (fun row : Name × Bool => row.2) typed)

/-- **The rule of a level**: what a pair of rows keeps, the pairs of a level keep; what remains are
rows. -/
theorem bindPairs_invariant {P : LiMBinder → Prop} (hop : operation ≠ .load)
    (keep : ∀ b row1 row2 b' tmpName, b.WellFormed → P b → (b.MemArray.findRow row1).isSome →
      (b.MemArray.findRow row2).isSome →
      b.bindPair operation specifications row1 row2 = some (b', tmpName) → P b') :
    ∀ {rows results : List Name} {b b' : LiMBinder}, b.WellFormed → P b →
      (∀ m ∈ rows, (b.MemArray.findRow m).isSome) →
      b.bindPairs operation specifications rows = some (b', results) →
      P b' ∧ b'.WellFormed ∧ b.Extends b' ∧ ∀ m ∈ results, (b'.MemArray.findRow m).isSome
  | [], _, b, _, hb, hP, _, h => by
    cases h
    exact ⟨hP, hb, .refl b, by simp⟩
  | [_], _, b, _, hb, hP, hrows, h => by
    cases h
    exact ⟨hP, hb, .refl b, hrows⟩
  | row1 :: row2 :: rows, results, b, b', hb, hP, hrows, h => by
    obtain ⟨⟨b₁, tmpName⟩, h₁, h⟩ := Option.bind_eq_some_iff.mp h
    obtain ⟨⟨b₂, rest⟩, h₂, h⟩ := Option.bind_eq_some_iff.mp h
    cases h
    obtain ⟨hb₁, he₁, htmp⟩ := wellFormed_bindPair hb hop h₁
    have hP₁ := keep b row1 row2 b₁ tmpName hb hP (hrows row1 (by simp)) (hrows row2 (by simp)) h₁
    have hkeep : ∀ m ∈ rows, (b₁.MemArray.findRow m).isSome := fun m hm =>
      he₁.findRow_isSome (hrows m (by simp [hm]))
    obtain ⟨hP₂, hb₂, he₂, hres⟩ := bindPairs_invariant hop keep hb₁ hP₁ hkeep h₂
    refine ⟨hP₂, hb₂, he₁.trans he₂, ?_⟩
    intro m hm
    rcases List.mem_cons.mp hm with rfl | hm
    · exact he₂.findRow_isSome htmp
    · exact hres m hm

/-- The rule of the levels; the row recorded at the end is one of the array. -/
theorem bindLevels_invariant {P : LiMBinder → Prop} {destReg : Reg} {lists : ExtTreeMap ℕ (List Name)}
    (hop : operation ≠ .load)
    (keep : ∀ b row1 row2 b' tmpName, b.WellFormed → P b → (b.MemArray.findRow row1).isSome →
      (b.MemArray.findRow row2).isSome →
      b.bindPair operation specifications row1 row2 = some (b', tmpName) → P b')
    {fuel i : ℕ} {b b' : LiMBinder} {currTimeAccList : List Name} (hb : b.WellFormed) (hP : P b)
    (hcurr : ∀ m ∈ currTimeAccList, (b.MemArray.findRow m).isSome)
    (h : bindLevels operation specifications destReg lists fuel i b currTimeAccList = some b') :
    ∃ b₁ row, P b₁ ∧ (b₁.MemArray.findRow row).isSome ∧ b' = b₁.addNewItem destReg row := by
  induction fuel generalizing i b currTimeAccList with
  | zero =>
    obtain ⟨row, hrow, h⟩ := Option.bind_eq_some_iff.mp h
    cases h
    exact ⟨b, row, hP, hcurr row (List.mem_of_head? hrow), rfl⟩
  | succ fuel ih =>
    obtain ⟨level, -, h⟩ := Option.bind_eq_some_iff.mp h
    obtain ⟨rows, hrows, h⟩ := Option.bind_eq_some_iff.mp h
    obtain ⟨⟨b₁, results⟩, h₁, h⟩ := Option.bind_eq_some_iff.mp h
    obtain ⟨hperm, hall⟩ := orderRows_eq_some hrows
    obtain ⟨hP₁, hb₁, -, hres⟩ :=
      bindPairs_invariant hop keep hb hP (fun m hm => hall m (hperm.mem_iff.mp hm)) h₁
    exact ih hb₁ hP₁ hres h

/-- **The rule of an accumulation**: what a pair of rows keeps holds at its end, when it records one
row of the array. -/
theorem performAccBinding_invariant {P : LiMBinder → Prop} {destReg : Reg} {accumulationList : List Name}
    (hop : operation ≠ .load)
    (keep : ∀ b row1 row2 b' tmpName, b.WellFormed → P b → (b.MemArray.findRow row1).isSome →
      (b.MemArray.findRow row2).isSome →
      b.bindPair operation specifications row1 row2 = some (b', tmpName) → P b')
    (hb : b.WellFormed) (hP : P b)
    (h : b.performAccBinding accumulationList operation specifications destReg = some b') :
    ∃ b₁ row, P b₁ ∧ (b₁.MemArray.findRow row).isSome ∧ b' = b₁.addNewItem destReg row := by
  rw [performAccBinding] at h
  split at h
  · cases h
  · exact bindLevels_invariant hop keep hb hP (by simp) h

/-- **An accumulation is a run of pairs**, and records one row of the array. -/
theorem performAccBinding_run {destReg : Reg} {accumulationList : List Name}
    (hb : b.WellFormed) (hop : operation ≠ .load)
    (h : b.performAccBinding accumulationList operation specifications destReg = some b') :
    ∃ pairs b₁ row, run (pairStep operation specifications) b pairs = some b₁ ∧
      (b₁.MemArray.findRow row).isSome ∧ b' = b₁.addNewItem destReg row := by
  obtain ⟨b₁, row, ⟨pairs, hrun⟩, hrow, rfl⟩ := performAccBinding_invariant
    (P := fun b' => ∃ pairs, run (pairStep operation specifications) b pairs = some b') hop
    (fun b₁ row1 row2 b₂ tmpName _ ⟨pairs, hrun⟩ _ _ hpair =>
      ⟨pairs ++ [(row1, row2)], by rw [run_snoc hrun, pairStep, hpair]; rfl⟩)
    hb ⟨[], rfl⟩ h
  exact ⟨pairs, b₁, row, hrun, hrow, rfl⟩

end LiMBinder

/-! ### One element -/

namespace LiMBinder

/-- The rows of a register. -/
def rowsOf (b : LiMBinder) (reg : Reg) : List Name := b.arrayNamesMap[reg]?.getD []

/-- A register without an entry has no rows. -/
theorem rowsOf_of_none {b : LiMBinder} {reg : Reg} (h : b.findInANM reg = none) : b.rowsOf reg = [] :=
  congrArg (Option.getD · []) h

theorem rowsOf_addNewItem (b : LiMBinder) (origSrc reg : Reg) (n : Name) :
    (b.addNewItem origSrc n).rowsOf reg =
      if reg = origSrc then b.rowsOf origSrc ++ [n] else b.rowsOf reg := by
  simp only [rowsOf, getElem?_addNewItem]
  split <;> rfl

theorem Named.mem_rowsOf {bound n : Name} (h : b.Named bound) {reg : Reg} (hn : n ∈ b.rowsOf reg) :
    n < bound := by
  unfold rowsOf at hn
  cases hr : b.arrayNamesMap[reg]? with
  | none => simp [hr] at hn
  | some ns => exact h.names reg ns hr n (by simpa [hr] using hn)

/-- Replacing a name changes the names of the registers only. -/
theorem addNewItemInRefPos_eq (b : LiMBinder) (origSrc : Reg) (dest genName : Name) :
    b.addNewItemInRefPos origSrc dest genName =
      { b with arrayNamesMap := (b.addNewItemInRefPos origSrc dest genName).arrayNamesMap } := by
  unfold addNewItemInRefPos
  split <;> rfl

/-- A reused row takes the place of the name of the element. -/
theorem arrayNamesMap_reuse {destReg : Reg} {d : Name} (hdest : dest ∉ b.rowsOf destReg) (hd : d ≠ dest)
    (reg : Reg) :
    ((b.addNewItem destReg dest).addNewItemInRefPos destReg dest d).arrayNamesMap[reg]? =
      if reg = destReg then some (b.rowsOf destReg ++ [d]) else b.arrayNamesMap[reg]? := by
  have hall : ∀ n ∈ b.rowsOf destReg, decide (n ≠ dest) = true := by
    intro n hn
    simp only [decide_eq_true_eq]
    rintro rfl
    exact hdest hn
  have htake : (b.rowsOf destReg ++ [dest]).takeWhile (· ≠ dest) = b.rowsOf destReg := by
    rw [List.takeWhile_append_of_pos hall]
    simp
  have hdrop : (b.rowsOf destReg ++ [dest]).dropWhile (· ≠ dest) = [dest] := by
    rw [List.dropWhile_append_of_pos hall]
    simp
  have hfilter : (b.rowsOf destReg).filter (· ≠ dest) = b.rowsOf destReg := List.filter_eq_self.mpr hall
  have hget : (b.addNewItem destReg dest).arrayNamesMap[destReg]? =
      some (b.rowsOf destReg ++ [dest]) := by
    rw [getElem?_addNewItem, if_pos rfl]
    rfl
  rw [addNewItemInRefPos, hget]
  simp only
  rw [htake, hdrop, List.filter_append, hfilter, List.filter_cons_of_pos (by simpa using hd),
    List.filter_cons_of_neg (by simp), List.filter_nil, ExtTreeMap.getElem?_insert]
  simp only [Nat.compare_eq_eq, eq_comm (a := destReg)]
  by_cases hreg : reg = destReg
  · rw [if_pos hreg, if_pos hreg]
  · rw [if_neg hreg, if_neg hreg, getElem?_addNewItem, if_neg hreg]

theorem Extends.of_eq (hA : b'.MemArray = b.MemArray) (hF : b'.FSMLim = b.FSMLim)
    (hd : b'.lastDestMap = b.lastDestMap) (hs : b'.addMap = b.addMap) : b.Extends b' where
  rows _ row h := ⟨row, hA ▸ h, .refl row⟩
  times _ _ h := hF ▸ h
  dests _ _ h := hd ▸ h
  sums _ _ h := hs ▸ h

theorem addNewItem_extends (b : LiMBinder) (reg : Reg) (n : Name) : b.Extends (b.addNewItem reg n) :=
  .of_eq rfl rfl rfl rfl

/-- A row that is fed is a row. -/
theorem findRow_of_feedingType {d : Name} {op : Operation} (h : b.feedingType d = some op) :
    (b.MemArray.findRow d).isSome := by
  obtain ⟨row, hrow, -⟩ := Option.bind_eq_some_iff.mp h
  exact Option.isSome_of_eq_some hrow

/-- A row with logic is named before the names that are not in use. -/
theorem Named.lt_of_feedingType {bound d : Name} {op : Operation} (h : b.Named bound)
    (hf : b.feedingType d = some op) : d < bound := by
  obtain ⟨row, hrow⟩ := Option.isSome_iff_exists.mp (findRow_of_feedingType hf)
  exact (h.rows d row hrow).1

/-- The name of an element is new: a row that is reused replaces it and nothing else. -/
theorem Named.arrayNamesMap_reuse {d : Name} {op : Operation} (h : b.Named dest)
    (hf : b.feedingType d = some op) (destReg reg : Reg) :
    ((b.addNewItem destReg dest).addNewItemInRefPos destReg dest d).arrayNamesMap[reg]? =
      if reg = destReg then some (b.rowsOf destReg ++ [d]) else b.arrayNamesMap[reg]? :=
  LiMBinder.arrayNamesMap_reuse (fun hm => absurd (h.mem_rowsOf hm) (Nat.lt_irrefl _))
    (Nat.ne_of_lt (h.lt_of_feedingType hf)) reg

/-- **The binding of one element** keeps the binder in order and extends it. -/
theorem wellFormed_performBinding {destReg : Reg} {junk : Indeterminate} (hn : b.Named dest)
    (hle : dest + 4 ≤ b.zeroAddr) (ha : 4 ∣ b.zeroAddr) (hl : b.LoadRows) (hd : b.LastDests)
    (hop : operation ≠ .load)
    (h : (b.addNewItem destReg dest).performBinding operation specifications destReg src1 src2 dest
      junk = some b') :
    b'.WellFormed ∧ b.Extends b' := by
  have fresh : b.MemArray.findRow dest = none := hn.fresh (Nat.le_refl _)
  have freshZero : b.MemArray.findRow b.zeroAddr = none := hn.fresh (by lia)
  have hnamed : (b.addNewItem destReg dest).Named b.zeroAddr :=
    (hn.mono (by lia) ha).addNewItem (by lia) destReg
  rcases performBinding_cases h with
    ⟨d, -, hf, rfl⟩ | ⟨d, op, -, -, -, rfl⟩ | ⟨-, -, hshift⟩ | ⟨-, -, hmap⟩
  · -- the name of the element is handed back, and every name in use is below it
    have hdlt := hn.lt_of_feedingType hf
    have hnames := hn.arrayNamesMap_reuse hf destReg
    rw [addNewItemInRefPos_eq]
    refine ⟨⟨⟨fun n row h => ?_, fun reg ns hns m hm => ?_, ?_⟩, hl, hd⟩, .of_eq rfl rfl rfl rfl⟩
    · show n < b.zeroAddr - 4 ∧ 4 ∣ n
      have := hn.rows n row h
      exact ⟨by lia, this.2⟩
    · show m < b.zeroAddr - 4
      have hlt : m < dest := by
        simp only [adjustName] at hns
        rw [hnames] at hns
        split at hns
        · rw [Option.some.injEq] at hns
          rw [← hns, List.mem_append, List.mem_singleton] at hm
          rcases hm with hm | rfl
          · exact hn.mem_rowsOf hm
          · exact hdlt
        · exact hn.names reg ns hns m hm
      lia
    · show 4 ∣ b.zeroAddr - 4
      lia
  · exact ⟨⟨hnamed, hl, hd⟩, .of_eq rfl rfl rfl rfl⟩
  · have hshift := mapShift_cases (b := b.addNewItem destReg dest) hl fresh freshZero hshift
    have he := (addNewItem_extends b destReg dest).trans (hshift.extends_of hop fresh freshZero)
    obtain ⟨hzero, hnames, hdests⟩ := hshift.frame
    have hzero : b'.zeroAddr = b.zeroAddr ∨ b'.zeroAddr = b.zeroAddr + 4 := hzero
    refine ⟨⟨?_, hshift.loadRows hop hl, hd.of_extends he hdests⟩, he⟩
    refine Named.of_rows (hnamed.mono (by lia) (by lia)) (fun n new hn' => ?_) hnames
    rcases hshift.rows_of_findRow hn' with hold | rfl | ⟨hz, rfl⟩
    · exact .inl hold
    · exact .inr ⟨by lia, hn.aligned⟩
    · have hz : b'.zeroAddr = b.zeroAddr + 4 := hz
      exact .inr ⟨by rw [hz]; exact Nat.lt_add_of_pos_right (by decide), ha⟩
  · obtain ⟨w, row, other, base, t, -, hr, hb'⟩ :=
      mapOperation_realizes (b := b.addNewItem destReg dest) fresh freshZero
        (by show dest ≠ b.zeroAddr; lia) hmap
    have hzero : b'.zeroAddr = b.zeroAddr + if w = .copy then 4 else 0 := by
      rw [hb']
      rfl
    have he : b.Extends b' := by
      refine ⟨hr.rows_extend hop, fun n t ht => ?_, fun n d hd => ?_, fun n ns hn => ?_⟩
      · rw [hr.times]
        exact getTime_scheduleDest_of_some ht _ _ _ _
      · rw [hb']
        exact getElem?_insertIfNew_of_some (getElem?_insertIfNew_of_some hd)
      · rw [hb']
        exact hn
    refine ⟨⟨?_, fun n new => hr.loadRows hop hl, ?_⟩, he⟩
    · refine Named.of_rows (hnamed.mono (by lia) (by split at hzero <;> lia)) (fun n new hn' => ?_)
        (by rw [hb'])
      rcases hr.rows_of_findRow hn' with hold | rfl | ⟨hw, rfl⟩
      · exact .inl hold
      · exact .inr ⟨by lia, hn.aligned⟩
      · rw [if_pos hw] at hzero
        exact .inr ⟨by rw [hzero]; exact Nat.lt_add_of_pos_right (by decide), ha⟩
    · -- a destination recorded is an old one, or the result row
      intro n d hd'
      have hcases : d = dest ∨ b.lastDestMap[n]? = some d := by
        rw [hb'] at hd'
        rcases getElem?_insertIfNew_eq_some hd' with hd' | hd'
        · rcases getElem?_insertIfNew_eq_some hd' with hd' | hd'
          · exact .inr hd'
          · exact .inl hd'.2.symm
        · exact .inl hd'.2.symm
      rcases hcases with rfl | hold
      · refine ⟨operation, hop, hr.feedingType rfl, ?_⟩
        rw [hr.times]
        exact getTime_scheduleDest_self _ _ _ _ _
      · obtain ⟨op, hop', hf, ht⟩ := hd n d hold
        obtain ⟨t, ht⟩ := Option.isSome_iff_exists.mp ht
        exact ⟨op, hop', he.feedingType hop' hf, Option.isSome_of_eq_some (he.times d t ht)⟩

end LiMBinder

/-! ### The steps of the binder -/

/-- The row of a load. -/
theorem LiMBinder.findRow_bindLoad (hb : b.Named b.zeroAddr) (destReg : Reg) (ti : ℤ) (n : Name) :
    (b.bindLoad destReg ti).MemArray.findRow n =
      if n = b.zeroAddr then some ⟨.load, b.par, [noInput], [.none], []⟩
      else b.MemArray.findRow n := by
  have hfresh : b.MemArray.findRow b.zeroAddr = none := hb.fresh (Nat.le_refl _)
  exact LiMArray.findRow_insertRow_of_none hfresh _ n

/-- A load keeps the binder in order and extends it. -/
theorem LiMBinder.wellFormed_bindLoad (hb : b.WellFormed) (destReg : Reg) (ti : ℤ) :
    (b.bindLoad destReg ti).WellFormed ∧ b.Extends (b.bindLoad destReg ti) := by
  have hrows := findRow_bindLoad hb.named destReg ti
  have he : b.Extends (b.bindLoad destReg ti) := by
    refine ⟨fun n row hrow => ⟨row, ?_, .refl row⟩, fun n t ht => ?_, fun n d hd => hd, fun n ns hn => hn⟩
    · rw [hrows, if_neg, hrow]
      rintro rfl
      rw [hb.freshZero] at hrow
      cases hrow
    · exact FiniteStateMachine.getTime_addNewInstruction_of_some ht
  have hnamed : b.Named (b.zeroAddr + 4) := hb.named.mono (by lia) (by have := hb.named.aligned; lia)
  refine ⟨⟨?_, fun n row hrow hload => ?_, hb.dests.of_extends he rfl⟩, he⟩
  · refine Named.of_rows (hnamed.addNewItem (by lia) destReg) (fun n row hrow => ?_) rfl
    rw [hrows] at hrow
    split at hrow
    · next hn => exact .inr ⟨hn ▸ Nat.lt_add_of_pos_right (by decide), hn ▸ hb.named.aligned⟩
    · exact .inl (Option.isSome_of_eq_some hrow)
  · rw [hrows] at hrow
    split at hrow
    · cases hrow
      exact ⟨rfl, rfl⟩
    · exact hb.loads n row hrow hload

/-- A binder in order, and the names after it. -/
theorem LiMBinder.WellFormed.state (hb : b.WellFormed) : BinderState.WellFormed ⟨b, none⟩ :=
  ⟨hb.named, hb.loads, hb.dests⟩

theorem BinderState.WellFormed.binder {s : BinderState} (hs : s.WellFormed) (h : s.tmpDestAddr = none) :
    s.binder.WellFormed := by
  have hnamed := hs.named
  rw [Named, h] at hnamed
  exact ⟨hnamed, hs.loads, hs.dests⟩

/-! ### What a step does -/

section Step

variable {s s' : BinderState} {destReg : Reg}

theorem bindStep_load {ti : ℤ} (hs : s.WellFormed) (h : bindStep s (.load destReg ti) = some s') :
    s.binder.WellFormed ∧ s' = ⟨s.binder.bindLoad destReg ti, none⟩ := by
  obtain ⟨hnone, h⟩ := Option.ite_none_right_eq_some.mp h
  have hnone := Option.isNone_iff_eq_none.mp hnone
  rw [hnone] at h
  exact ⟨hs.binder hnone, (Option.some.inj h).symm⟩

/-- An element is bound to the name reserved, and the next name is reserved. -/
theorem bindStep_element {junk : Indeterminate} (hs : s.WellFormed)
    (h : bindStep s (.element operation specifications destReg src1 src2 junk) = some s') :
    operation ≠ .load ∧ ∃ dest b', s.tmpDestAddr = some dest ∧ s.binder.Named dest ∧
      dest + 4 ≤ s.binder.zeroAddr ∧ 4 ∣ s.binder.zeroAddr ∧
      (s.binder.addNewItem destReg dest).performBinding operation specifications destReg src1 src2 dest junk =
        some b' ∧ s' = ⟨b'.getNewName.2, some b'.getNewName.1⟩ := by
  obtain ⟨hop, h⟩ := Option.ite_none_right_eq_some.mp h
  obtain ⟨dest, htmp, h⟩ := Option.bind_eq_some_iff.mp h
  obtain ⟨b', hb', h⟩ := Option.bind_eq_some_iff.mp h
  obtain ⟨hn, hle, ha⟩ := hs.named_of_reserved htmp
  exact ⟨Operation.ne_load_of_isBound hop, dest, b', htmp, hn, hle, ha, hb', (Option.some.inj h).symm⟩

theorem bindStep_accumulate {accumulationList : List Name} (hs : s.WellFormed)
    (h : bindStep s (.accumulate operation specifications destReg accumulationList) = some s') :
    operation ≠ .load ∧ s.binder.WellFormed ∧
      ∃ b', s.binder.performAccBinding accumulationList operation specifications destReg = some b' ∧
        s' = ⟨b', none⟩ := by
  obtain ⟨hguard, h⟩ := Option.ite_none_right_eq_some.mp h
  rw [Bool.and_eq_true] at hguard
  obtain ⟨b', hb', h⟩ := Option.bind_eq_some_iff.mp h
  exact ⟨Operation.ne_load_of_isBound hguard.2, hs.binder (Option.isNone_iff_eq_none.mp hguard.1), b', hb',
    (Option.some.inj h).symm⟩

end Step

/-- **The step rule**: every step keeps the state well formed and extends it. -/
theorem wellFormed_bindStep {s s' : BinderState} {a : BindingAction} (hs : s.WellFormed)
    (h : bindStep s a = some s') : s'.WellFormed ∧ s.binder.Extends s'.binder := by
  cases a with
  | load destReg ti =>
    obtain ⟨hb, rfl⟩ := bindStep_load hs h
    obtain ⟨hb', he⟩ := LiMBinder.wellFormed_bindLoad hb destReg ti
    exact ⟨hb'.state, he⟩
  | enter constants =>
    obtain ⟨hnone, h⟩ := Option.ite_none_right_eq_some.mp h
    have hnone := Option.isNone_iff_eq_none.mp hnone
    have hb := hs.binder hnone
    cases h
    refine ⟨⟨⟨⟨hb.named.rows, hb.named.names, hb.named.aligned⟩, ?_, ?_⟩, hb.loads, hb.dests⟩,
      .of_eq rfl rfl rfl rfl⟩
    · show s.binder.zeroAddr + 4 ≤ s.binder.zeroAddr + 4 + 4 * constants
      lia
    · have := hb.named.aligned
      show 4 ∣ s.binder.zeroAddr + 4 + 4 * constants
      lia
  | element operation specifications destReg src1 src2 junk =>
    obtain ⟨hop, dest, b', htmp, hn, hle, ha, hb', rfl⟩ := bindStep_element hs h
    obtain ⟨hb', he⟩ := LiMBinder.wellFormed_performBinding hn hle ha hs.loads hs.dests
      hop hb'
    refine ⟨⟨⟨⟨hb'.named.rows, hb'.named.names, hb'.named.aligned⟩, Nat.le_refl _, ?_⟩, hb'.loads,
      hb'.dests⟩, he.trans (.of_eq rfl rfl rfl rfl)⟩
    have := hb'.named.aligned
    show 4 ∣ b'.zeroAddr + 4
    lia
  | leave =>
    obtain ⟨hsome, h⟩ := Option.ite_none_right_eq_some.mp h
    obtain ⟨t, ht⟩ := Option.isSome_iff_exists.mp hsome
    cases h
    obtain ⟨hn, hle, ha⟩ := hs.named_of_reserved ht
    exact ⟨⟨hn.mono (by lia) ha, hs.loads, hs.dests⟩, .refl _⟩
  | accumulate operation specifications destReg accumulationList =>
    obtain ⟨hop, hb, b', hb', rfl⟩ := bindStep_accumulate hs h
    obtain ⟨pairs, b₁, row, hrun, hrow, rfl⟩ := LiMBinder.performAccBinding_run hb hop hb'
    obtain ⟨hb₁, he⟩ := LiMBinder.wellFormed_pairs hb hop hrun
    obtain ⟨row', hrow⟩ := Option.isSome_iff_exists.mp hrow
    refine ⟨⟨hb₁.named.addNewItem (hb₁.named.rows row row' hrow).1 destReg, hb₁.loads, ?_⟩,
      he.trans (LiMBinder.addNewItem_extends _ _ _)⟩
    exact hb₁.dests.of_extends (LiMBinder.addNewItem_extends _ _ _) rfl

theorem BinderState.wellFormed_init (par : ℤ) (optTarget : String) : (init par optTarget).WellFormed where
  named := ⟨by simp [init, LiMBinder.init], by simp [init, LiMBinder.init], Nat.dvd_zero 4⟩
  loads := by
    intro n row h
    simp [init, LiMBinder.init] at h
  dests := by
    intro n d h
    simp [init, LiMBinder.init] at h

/-- **The run rule**: every reachable state is well formed. -/
theorem wellFormed_of_reaches {par : ℤ} {optTarget : String} {actions : List BindingAction}
    {s : BinderState} (h : Reaches par optTarget actions s) : s.WellFormed :=
  run_invariant (Q := fun _ => True) (BinderState.wellFormed_init par optTarget)
    (fun _ _ _ _ hs hstep => (wellFormed_bindStep hs hstep).1) (fun _ _ => trivial) h

/-! ### The lists of the times -/

/-- A mapping leaves the lists of the times to `transform`. -/
theorem Realizes.FSM_eq (h : Realizes b operation specifications src1 src2 dest w row other base t A F) :
    F.FSM = b.FSMLim.FSM := by
  rw [h.times]
  cases w <;> rfl

theorem LiMBinder.FSM_insertShift (F : FiniteStateMachine) (tSrc1 realConstant : ℤ) (m₁ m₂ : Name) :
    (insertShift F tSrc1 realConstant m₁ m₂).FSM = F.FSM := by
  show (List.foldl _ F _).FSM = F.FSM
  induction realConstant.toNat with
  | zero => rfl
  | succ k ih =>
    rw [List.range_succ, List.foldl_append]
    exact ih

theorem LiMBinder.FSM_mapShift {junk : Indeterminate}
    (h : b.mapShift operation specifications src1 src2 dest junk = some b') :
    b'.FSMLim.FSM = b.FSMLim.FSM := by
  obtain ⟨isLoad, -, h⟩ := Option.bind_eq_some_iff.mp h
  cases isLoad with
  | true =>
    obtain ⟨array, -, h⟩ := Option.bind_eq_some_iff.mp h
    obtain ⟨k, -, h⟩ := Option.bind_eq_some_iff.mp h
    obtain ⟨tSrc1, -, h⟩ := Option.bind_eq_some_iff.mp h
    cases h
    exact FSM_insertShift _ _ _ _ _
  | false =>
    obtain ⟨array, -, h⟩ := Option.bind_eq_some_iff.mp h
    obtain ⟨k, -, h⟩ := Option.bind_eq_some_iff.mp h
    cases h
    exact FSM_insertShift _ _ _ _ _

/-- No step fills the lists of the times. -/
theorem FSM_bindStep {s s' : BinderState} {a : BindingAction} (hs : s.WellFormed)
    (h : bindStep s a = some s') : s'.binder.FSMLim.FSM = s.binder.FSMLim.FSM := by
  cases a with
  | load | enter | leave =>
    obtain ⟨-, h⟩ := Option.ite_none_right_eq_some.mp h
    cases h
    rfl
  | element operation specifications destReg src1 src2 junk =>
    obtain ⟨-, dest, b', htmp, hn, hle, -, hb', rfl⟩ := bindStep_element hs h
    rcases LiMBinder.performBinding_cases hb' with
      ⟨d, -, -, rfl⟩ | ⟨d, op, -, -, -, rfl⟩ | ⟨-, -, hshift⟩ | ⟨-, -, hmap⟩
    · rw [LiMBinder.addNewItemInRefPos_eq]
      rfl
    · rfl
    · have hF := LiMBinder.FSM_mapShift hshift
      exact hF
    · obtain ⟨w, row, other, base, t, -, hreal, -⟩ :=
        LiMBinder.mapOperation_realizes (b := s.binder.addNewItem destReg dest) (hn.fresh (Nat.le_refl _))
          (hn.fresh (show dest ≤ s.binder.zeroAddr by lia)) (show dest ≠ s.binder.zeroAddr by lia) hmap
      exact hreal.FSM_eq
  | accumulate operation specifications destReg accumulationList =>
    obtain ⟨hop, hb, b', hb', rfl⟩ := bindStep_accumulate hs h
    obtain ⟨pairs, b₁, row, hrun, -, rfl⟩ := LiMBinder.performAccBinding_run hb hop hb'
    show b₁.FSMLim.FSM = s.binder.FSMLim.FSM
    refine (run_invariant (P := fun b => b.WellFormed ∧ b.FSMLim.FSM = s.binder.FSMLim.FSM)
      (Q := fun _ => True) ⟨hb, rfl⟩ ?_ (fun _ _ => trivial) hrun).2
    rintro b₁ pair b₂ - ⟨hb₁, hF⟩ hstep
    obtain ⟨⟨b₂, tmpName⟩, hpair, rfl⟩ := Option.map_eq_some_iff.mp hstep
    obtain ⟨w, row, other, base, t, -, -, hreal, -⟩ :=
      LiMBinder.bindPair_realizes hb₁.freshZero hb₁.freshNext hpair
    exact ⟨(LiMBinder.wellFormed_bindPair hb₁ hop hpair).1, hreal.FSM_eq.trans hF⟩

/-- The lists of the times are empty in every state reached: `transform` fills them. -/
theorem pending_of_reaches {par : ℤ} {optTarget : String} {actions : List BindingAction}
    {s : BinderState} (h : Reaches par optTarget actions s) : s.binder.FSMLim.FSM = ∅ := by
  refine (run_invariant (P := fun s => s.WellFormed ∧ s.binder.FSMLim.FSM = ∅) (Q := fun _ => True)
    ⟨BinderState.wellFormed_init par optTarget, rfl⟩ ?_ (fun _ _ => trivial) h).2
  rintro s a s' - ⟨hs, hF⟩ hstep
  exact ⟨(wellFormed_bindStep hs hstep).1, (FSM_bindStep hs hstep).trans hF⟩

end Octantis
