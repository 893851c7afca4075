import Octantis.Binding.Reachable

/-!
# What feeds a row

A result row has the result of the logic of one row, whose first logic input is the
one it was given with its logic (`FedBy`); a copy row has another row as its memory
input (`CopyOf`). Neither changes once the row is there.

## What is proved

* `fedBy_bindPair`: what feeds the result row of a pair of an accumulation.
* `derived_performAccBinding`: the rows that an accumulation adds are of older ones.
-/

namespace Octantis

open Std Lib

variable {b b' : LiMBinder} {operation : Operation} {specifications : List String}
  {src1 src2 dest row other : Name} {w : Way} {base : LiMRow} {t : ℤ}

/-- Row `n` has the result of the logic of row `r`, whose first logic input, the one it was given at
its creation, is row `x`. -/
def LiMBinder.FedBy (b : LiMBinder) (n r x : Name) : Prop :=
  ∃ row rRow, b.MemArray.findRow n = some row ∧ row.inputConnectionsType.head? = some .OLiM ∧
    row.inputConnections.head? = some r ∧ b.MemArray.findRow r = some rRow ∧
    rRow.logicInputs.head? = some x

instance (b : LiMBinder) (n r x : Name) : Decidable (b.FedBy n r x) :=
  decidable_of_iff
    (((b.MemArray.findRow n).any fun row => row.inputConnectionsType.head? = some .OLiM ∧
        row.inputConnections.head? = some r) ∧
      (b.MemArray.findRow r).any fun rRow => rRow.logicInputs.head? = some x)
    (by
      unfold LiMBinder.FedBy
      cases b.MemArray.findRow n <;> cases b.MemArray.findRow r <;> simp [and_assoc])

/-- Row `n` is a copy of row `m`. -/
def LiMBinder.CopyOf (b : LiMBinder) (n m : Name) : Prop :=
  ∃ row, b.MemArray.findRow n = some row ∧ row.inputConnectionsType.head? = some .OC ∧
    row.inputConnections.head? = some m

namespace LiMBinder

theorem way_of_site_false {src1 src2 : Name}
    (h : b.site false operation src1 src2 = some (w, row, other)) : w ≠ .mux := by
  unfold site at h
  obtain ⟨row2, -, h⟩ := Option.bind_eq_some_iff.mp h
  split at h
  · cases h
    decide
  obtain ⟨row1, -, h⟩ := Option.bind_eq_some_iff.mp h
  split at h
  · cases h
    decide
  · simp at h
    rw [← h.1]
    decide

/-- A row that is new to a state is new to the states before. -/
theorem Extends.findRow_none (he : b.Extends b') {n : Name} (h : b'.MemArray.findRow n = none) :
    b.MemArray.findRow n = none := by
  cases hr : b.MemArray.findRow n with
  | none => rfl
  | some row =>
    obtain ⟨row', hrow', -⟩ := he.rows n row hr
    rw [h] at hrow'
    cases hrow'

/-- What feeds a row is kept. -/
theorem FedBy.mono {n r x : Name} (h : b.FedBy n r x) (he : b.Extends b') : b'.FedBy n r x := by
  obtain ⟨row, rRow, hrow, htype, hr, hrRow, hx⟩ := h
  obtain ⟨row', hrow', hext⟩ := he.rows n row hrow
  obtain ⟨rRow', hrRow', hrext⟩ := he.rows r rRow hrRow
  refine ⟨row', rRow', hrow', hext.head?_types htype, hext.head? hr, hrRow', ?_⟩
  rw [LiMRow.logicInputs, List.head?_tail] at hx ⊢
  exact hrext.getElem? hx

theorem CopyOf.mono {n m : Name} (h : b.CopyOf n m) (he : b.Extends b') : b'.CopyOf n m := by
  obtain ⟨row, hrow, htype, hm⟩ := h
  obtain ⟨row', hrow', hext⟩ := he.rows n row hrow
  exact ⟨row', hrow', hext.head?_types htype, hext.head? hm⟩

/-- **What feeds the result row of a pair**: one of the rows with the other as logic input, and then
the pair is recorded, or a copy of the first with the second as logic input. -/
theorem fedBy_bindPair {row1 row2 tmpName : Name} (hb : b.WellFormed)
    (h : b.bindPair operation specifications row1 row2 = some (b', tmpName)) :
    ∃ r x, b'.FedBy tmpName r x ∧
      ((r = row1 ∧ x = row2 ∨ r = row2 ∧ x = row1) ∧ tmpName = b.zeroAddr ∧
          b'.addMap = b.addMap.insertIfNew tmpName [row1, row2] ∨
        r = b.zeroAddr ∧ x = row2 ∧ tmpName = b.zeroAddr + 4 ∧ b'.addMap = b.addMap ∧
          b'.CopyOf r row1) := by
  obtain ⟨w, row, other, base, t, hsite, htmp, hr, hb'⟩ :=
    bindPair_realizes hb.freshZero hb.freshNext h
  have hfed : ∀ x, (base.connect other .OC).inputConnections[1]? = some x → b'.FedBy tmpName row x := by
    intro x hx
    refine ⟨_, _, hr.findRow_dest, rfl, rfl, hr.findRow_row, ?_⟩
    rw [LiMRow.logicInputs, List.head?_tail, hx]
  cases hr.site with
  | @convert _ _ old operands found convertible =>
    have hlen := (hb.loads row old found (LiMRow.rowType_of_convertible convertible)).2
    have hlen : (old.withLogic operation specifications).inputConnections.length = 1 := hlen
    refine ⟨row, other, hfed other ?_, .inl ⟨?_, ?_, by rw [hb']; rfl⟩⟩
    · rw [LiMRow.connect_of_length_one hlen, List.getElem?_append_right (by omega), hlen]
      rfl
    · rcases operands with ⟨rfl, rfl⟩ | ⟨rfl, rfl⟩
      · exact .inr ⟨rfl, rfl⟩
      · exact .inl ⟨rfl, rfl⟩
    · rw [htmp]
      rfl
  | mux => exact absurd rfl (way_of_site_false hsite)
  | copy =>
    refine ⟨b.zeroAddr, row2, hfed row2 rfl, .inr ⟨rfl, rfl, htmp, by rw [hb']; rfl, ?_⟩⟩
    exact ⟨_, hr.findRow_row, rfl, rfl⟩

theorem WellFormed.lt_zeroAddr (hb : b.WellFormed) {n : Name} (h : (b.MemArray.findRow n).isSome) :
    n < b.zeroAddr := by
  obtain ⟨row, hrow⟩ := Option.isSome_iff_exists.mp h
  exact (hb.named.rows n row hrow).1

/-! ### Older rows -/

theorem FedBy.unique {n r x r' x' : Name} (h : b.FedBy n r x) (h' : b.FedBy n r' x') : r = r' ∧ x = x' := by
  obtain ⟨row, rRow, hrow, -, hr, hrRow, hx⟩ := h
  obtain ⟨row', rRow', hrow', -, hr', hrRow', hx'⟩ := h'
  rw [hrow, Option.some.injEq] at hrow'
  subst hrow'
  rw [hr, Option.some.injEq] at hr'
  subst hr'
  rw [hrRow, Option.some.injEq] at hrRow'
  subst hrRow'
  rw [hx, Option.some.injEq] at hx'
  exact ⟨rfl, hx'⟩

theorem CopyOf.unique {n m m' : Name} (h : b.CopyOf n m) (h' : b.CopyOf n m') : m = m' := by
  obtain ⟨row, hrow, -, hm⟩ := h
  obtain ⟨row', hrow', -, hm'⟩ := h'
  rw [hrow, Option.some.injEq] at hrow'
  subst hrow'
  rw [hm, Option.some.injEq] at hm'
  exact hm'

theorem FedBy.isSome {n r x : Name} (h : b.FedBy n r x) : (b.MemArray.findRow n).isSome := by
  obtain ⟨row, rRow, hrow, -⟩ := h
  exact Option.isSome_of_eq_some hrow

theorem CopyOf.isSome {n m : Name} (h : b.CopyOf n m) : (b.MemArray.findRow n).isSome := by
  obtain ⟨row, hrow, -⟩ := h
  exact Option.isSome_of_eq_some hrow

theorem FedBy.not_copyOf {n r x m : Name} (h : b.FedBy n r x) : ¬ b.CopyOf n m := by
  rintro ⟨row', hrow', htype', -⟩
  obtain ⟨row, rRow, hrow, htype, -⟩ := h
  rw [hrow, Option.some.injEq] at hrow'
  subst hrow'
  rw [htype] at htype'
  cases htype'

/-- A result row or a copy row, of rows that are older. -/
def Derived (b : LiMBinder) (n : Name) : Prop :=
  (∃ r x, b.FedBy n r x ∧ r < n ∧ x < n) ∨ ∃ m, b.CopyOf n m ∧ m < n

theorem Derived.mono {n : Name} (h : b.Derived n) (he : b.Extends b') : b'.Derived n := by
  rcases h with ⟨r, x, hfed, hlt⟩ | ⟨m, hcopy, hlt⟩
  · exact .inl ⟨r, x, hfed.mono he, hlt⟩
  · exact .inr ⟨m, hcopy.mono he, hlt⟩

/-- The rows that a pair of rows adds are derived from older ones. -/
theorem derived_bindPair {row1 row2 tmpName : Name} (hb : b.WellFormed)
    (h1 : (b.MemArray.findRow row1).isSome) (h2 : (b.MemArray.findRow row2).isSome)
    (h : b.bindPair operation specifications row1 row2 = some (b', tmpName)) {n : Name}
    (hnone : b.MemArray.findRow n = none) (hn : (b'.MemArray.findRow n).isSome) : b'.Derived n := by
  have hlt1 := hb.lt_zeroAddr h1
  have hlt2 := hb.lt_zeroAddr h2
  obtain ⟨r, x, hfed, hsrc⟩ := fedBy_bindPair hb h
  obtain ⟨w, row, other, base, t, -, htmp, hr, -⟩ := bindPair_realizes hb.freshZero hb.freshNext h
  obtain ⟨new, hnew⟩ := Option.isSome_iff_exists.mp hn
  rcases hr.rows_of_findRow hnew with hold | rfl | ⟨rfl, rfl⟩
  · rw [hnone] at hold
    cases hold
  · refine .inl ⟨r, x, hfed, ?_⟩
    rcases hsrc with ⟨⟨rfl, rfl⟩ | ⟨rfl, rfl⟩, hzero, -⟩ | ⟨rfl, rfl, hzero, -⟩
    · exact ⟨by lia, by lia⟩
    · exact ⟨by lia, by lia⟩
    · exact ⟨by lia, by lia⟩
  · rw [if_pos rfl] at htmp
    rcases hsrc with ⟨-, hzero, -⟩ | ⟨rfl, -, -, -, hcopy⟩
    · lia
    · exact .inr ⟨row1, hcopy, hlt1⟩

/-- The rows that an accumulation adds are derived from older ones. -/
theorem derived_performAccBinding {destReg : Reg} {l : List Name} (hb : b.WellFormed)
    (hop : operation ≠ .load)
    (h : b.performAccBinding l operation specifications destReg = some b') :
    b.Extends b' ∧ ∀ n, b.MemArray.findRow n = none → (b'.MemArray.findRow n).isSome → b'.Derived n := by
  have hinit : b.Extends b ∧
      ∀ n, b.MemArray.findRow n = none → (b.MemArray.findRow n).isSome → b.Derived n := by
    refine ⟨.refl b, fun n hnone hn => ?_⟩
    rw [hnone] at hn
    cases hn
  obtain ⟨b₁, row, ⟨he, hall⟩, -, rfl⟩ := performAccBinding_invariant (P := fun b' => b.Extends b' ∧
    ∀ n, b.MemArray.findRow n = none → (b'.MemArray.findRow n).isSome → b'.Derived n) hop
    (fun b₁ row1 row2 b₂ tmpName hb₁ ⟨he₁, hall⟩ h1 h2 hpair => by
      obtain ⟨-, he₂, -⟩ := wellFormed_bindPair hb₁ hop hpair
      refine ⟨he₁.trans he₂, fun n hnone hn => ?_⟩
      cases hold : b₁.MemArray.findRow n with
      | none => exact derived_bindPair hb₁ h1 h2 hpair hold hn
      | some row => exact (hall n hnone (Option.isSome_of_eq_some hold)).mono he₂) hb hinit h
  exact ⟨he.trans (addNewItem_extends _ _ _), hall⟩

end LiMBinder

end Octantis
