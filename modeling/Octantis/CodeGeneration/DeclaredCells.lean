import Std.Data.String.ToInt
import Octantis.Binding.Shape
import Octantis.CodeGeneration.DexInstructions
import Octantis.CodeGeneration.OrderedRuns

/-!
# The cells of the instructions

The instructions name cells by the rows that `namesMap` has. Once `printLiM` has printed the rows, each of
them is there, with its place; so the sections are made, and what they name is declared.

## The model

`CellUse.Declared` is about every bit of a line. `DexInstruction.Describes` is what an instruction says of
its time.

## What is proved

* `placed_of_printLiM`: the place and the name of every row;
* `Sections.Sound`: what the sections of a row are, by one lemma for each of their templates;
* `instructions_of_reaches`: the instructions of every run without shifts whose array is printed.

## Honest scope

The bits of a `range` are the ones from the first to the last, as in the loops of the code.
-/

namespace Octantis

open Std Lib

namespace PrintDexFile

/-- The bits that a line covers. -/
def Bits.Has : Bits → ℤ → Prop
  | .all, i => 0 ≤ i ∧ i ≤ par - 1
  | .carry, i => 0 ≤ i ∧ i ≤ par - 2
  | .last, i => i = par - 1
  | .first, i => i = 0
  | .below n, i => 0 ≤ i ∧ i < n

theorem Bits.first_all (i : ℤ) (hi : Bits.first.Has i) : Bits.all.Has i := by
  obtain rfl : i = 0 := hi
  exact ⟨Int.le_refl 0, by decide⟩

/-- The loop over the cells of a mux has all bits. -/
theorem Bits.all_below (i : ℤ) (hi : Bits.all.Has i) : (Bits.below 32).Has i :=
  ⟨hi.1, Int.lt_of_le_of_lt hi.2 (by decide)⟩

/-- The row at a place. -/
def LiMArray.At (A : LiMArray) (k : ℕ) (n : Name) (row : LiMRow) : Prop :=
  A.limArray.keys[k]? = some n ∧ A.findRow n = some row

/-- The cells of a line are declared: its row has them, at each of its bits. -/
def CellUse.Declared (A : LiMArray) (use : CellUse) : Prop :=
  ∃ n row, LiMArray.At A use.rowIndex n row ∧
    ∀ i, use.bits.Has i → ∃ cell ∈ ("Memory", .all) :: cells row, cell.1 = use.name ∧ cell.2.Has i

variable {A : LiMArray} {F : FiniteStateMachine} {namesMap namesMap' : NamesMap} {currentRow k : ℕ}
  {rowName source last n m : Name} {row logic : LiMRow} {name : String}

theorem ok_of_bind {α β : Type} {x : Except Stop α} {f : α → Except Stop β} {b : β} (h : x >>= f = .ok b) :
    ∃ a, x = .ok a ∧ f a = .ok b := by
  cases x with
  | error stop => cases h
  | ok a => exact ⟨a, rfl, h⟩

/-! ### The place of a row -/

/-- The name that a row is entered with. -/
def cellName (row : LiMRow) : String :=
  match LimOperations row.rowType with
  | some .bitwise => if 2 < row.inputConnections.length then row.rowType.text ++ "Mux" else row.rowType.text
  | some .arith => if 2 < row.inputConnections.length then "AddMux" else "Add"
  | some .null | none => "Memory"

theorem addDataRow_ok (h : addDataRow namesMap currentRow rowName source = .ok namesMap') :
    namesMap' = insertNamesMap namesMap rowName "Memory" currentRow := by
  unfold addDataRow at h
  split at h
  · obtain ⟨entry, -, h⟩ := ok_of_bind h
    exact (Except.ok.inj h).symm
  · exact (Except.ok.inj h).symm

theorem printCells_ok (h : printCells namesMap name currentRow rowName source = .ok namesMap') :
    namesMap' = insertNamesMap namesMap rowName name currentRow := by
  obtain ⟨entry, -, h⟩ := ok_of_bind h
  exact (Except.ok.inj h).symm

theorem printCellsMux2to1_ok (h : printCellsMux2to1 namesMap name currentRow rowName source last = .ok namesMap') :
    namesMap' = insertNamesMap namesMap rowName name currentRow := by
  obtain ⟨entry, -, h⟩ := ok_of_bind h
  obtain ⟨entry', -, h⟩ := ok_of_bind h
  exact (Except.ok.inj h).symm

/-- A row is entered with its name. -/
theorem identifyLIMRowAndPrint_ok (htyped : row.Typed)
    (h : identifyLIMRowAndPrint namesMap currentRow rowName row = .ok namesMap') :
    namesMap' = insertNamesMap namesMap rowName (cellName row) currentRow := by
  unfold identifyLIMRowAndPrint at h
  unfold cellName
  by_cases hload : row.rowType = .load
  · rw [hload] at h ⊢
    obtain ⟨source, -, h⟩ := ok_of_bind h
    split at h
    · exact addDataRow_ok h
    · exact addDataRow_ok h
  · rcases limOperations_of_typed htyped hload with htype | htype
    · rw [htype] at h ⊢
      obtain ⟨source, -, h⟩ := ok_of_bind h
      simp only [decide_eq_true_eq] at h ⊢
      split at h
      · next hmux =>
        obtain ⟨last, -, h⟩ := ok_of_bind h
        rw [if_pos hmux]
        exact printCellsMux2to1_ok h
      · next hmux =>
        rw [if_neg (htyped hload).2] at h
        rw [if_neg hmux]
        exact printCells_ok h
    · rw [htype] at h ⊢
      obtain ⟨source, -, h⟩ := ok_of_bind h
      simp only [decide_eq_true_eq] at h ⊢
      split at h
      · next hmux =>
        obtain ⟨last, -, h⟩ := ok_of_bind h
        rw [if_pos hmux]
        exact printCellsMux2to1_ok h
      · next hmux =>
        rw [if_neg hmux]
        exact printCells_ok h

/-- The rows are entered with their places. -/
theorem getElem?_printRows {rows : List (Name × LiMRow)} (htyped : ∀ r ∈ rows, r.2.Typed)
    (hnodup : (rows.map (·.1)).Nodup) (hfresh : ∀ r ∈ rows, r.1 ∉ namesMap)
    (h : printRows rows currentRow namesMap = .ok namesMap') :
    (∀ n, n ∈ namesMap → namesMap'[n]? = namesMap[n]?) ∧
      ∀ (i : ℕ) (r : Name × LiMRow), rows[i]? = some r → namesMap'[r.1]? = some ⟨cellName r.2, currentRow + i⟩ := by
  induction rows generalizing currentRow namesMap with
  | nil =>
    obtain rfl := Except.ok.inj h
    exact ⟨fun _ _ => rfl, fun i r hr => by simp at hr⟩
  | cons r rows ih =>
    obtain ⟨namesMap₁, h₁, h⟩ := printRows_cons h
    obtain rfl := identifyLIMRowAndPrint_ok (htyped r List.mem_cons_self) h₁
    obtain ⟨hnot, hnodup⟩ := List.nodup_cons.mp (List.map_cons ▸ hnodup)
    have hfresh₁ : ∀ r' ∈ rows, r'.1 ∉ insertNamesMap namesMap r.1 (cellName r.2) currentRow := by
      intro r' hr' hmem
      rcases mem_insertNamesMap.mp hmem with heq | hmem
      · exact hnot (List.mem_map.mpr ⟨r', hr', heq⟩)
      · exact hfresh r' (List.mem_cons_of_mem _ hr') hmem
    obtain ⟨hkept, hentered⟩ := ih (fun r' hr' => htyped r' (List.mem_cons_of_mem _ hr')) hnodup hfresh₁ h
    refine ⟨fun n hn => ?_, fun i r' hr' => ?_⟩
    · rw [hkept n (mem_insertNamesMap.mpr (.inr hn)), insertNamesMap, ExtTreeMap.getElem?_insertIfNew, if_neg]
      rintro ⟨heq, hout⟩
      exact hout (Nat.compare_eq_eq.mp heq ▸ hn)
    · cases i with
      | zero =>
        obtain rfl := Option.some.inj (List.getElem?_cons_zero ▸ hr')
        rw [hkept _ (mem_insertNamesMap.mpr (.inl rfl)), insertNamesMap, ExtTreeMap.getElem?_insertIfNew, if_pos]
        · rfl
        · exact ⟨Nat.compare_eq_eq.mpr rfl, hfresh _ List.mem_cons_self⟩
      | succ i =>
        have hplace := hentered i r' (List.getElem?_cons_succ ▸ hr')
        rwa [show currentRow + (i + 1) = currentRow + 1 + i by lia]

/-- The name that a row is looked up with. -/
def shownName (row : LiMRow) : String :=
  if row.rowType ≠ .load ∧ 2 < row.inputConnections.length then "Mux" else cellName row

/-- No operation has a mux in its text. -/
theorem not_mux_text (operation : Operation) : ¬ "Mux".toList <:+: operation.text.toList := by
  cases operation <;> decide

theorem cellName_load (h : row.rowType = .load) : cellName row = "Memory" := by
  unfold cellName
  rw [h]
  rfl

theorem cellName_bitwise (h : LimOperations row.rowType = some .bitwise) :
    cellName row = if 2 < row.inputConnections.length then row.rowType.text ++ "Mux" else row.rowType.text := by
  unfold cellName
  rw [h]

theorem cellName_arith (h : LimOperations row.rowType = some .arith) :
    cellName row = if 2 < row.inputConnections.length then "AddMux" else "Add" := by
  unfold cellName
  rw [h]

theorem mux_cellName (htyped : row.Typed) :
    "Mux".toList <:+: (cellName row).toList ↔ row.rowType ≠ .load ∧ 2 < row.inputConnections.length := by
  by_cases hload : row.rowType = .load
  · rw [cellName_load hload]
    exact iff_of_false (by decide) fun h => h.1 hload
  · by_cases hmux : 2 < row.inputConnections.length
    · refine iff_of_true ?_ ⟨hload, hmux⟩
      rcases limOperations_of_typed htyped hload with htype | htype
      · rw [cellName_bitwise htype, if_pos hmux, String.toList_append]
        exact (List.suffix_append _ _).isInfix
      · rw [cellName_arith htype, if_pos hmux]
        decide
    · refine iff_of_false ?_ fun h => hmux h.2
      rcases limOperations_of_typed htyped hload with htype | htype
      · rw [cellName_bitwise htype, if_neg hmux]
        exact not_mux_text _
      · rw [cellName_arith htype, if_neg hmux]
        decide

theorem getName_cellName (htyped : row.Typed) (h : namesMap[n]? = some ⟨cellName row, k⟩) :
    getNameAndIndexOfSourceRow namesMap n = .ok ⟨shownName row, k⟩ := by
  unfold getNameAndIndexOfSourceRow shownName
  rw [h]
  simp only [mux_cellName htyped]

/-- The place of a row, and the name that it is looked up with. -/
def Placed (A : LiMArray) (namesMap : NamesMap) (n : Name) (row : LiMRow) (k : ℕ) : Prop :=
  LiMArray.At A k n row ∧ getNameAndIndexOfSourceRow namesMap n = .ok ⟨shownName row, k⟩

/-- **A row is looked up** once the rows are printed: its place is that of its name. -/
theorem placed_of_printLiM (htyped : ∀ n row, A.findRow n = some row → row.Typed)
    (hprint : printLiM A = .ok namesMap) (hrow : A.findRow n = some row) :
    ∃ k, Placed A namesMap n row k := by
  have hentry := ExtTreeMap.mem_toList_iff_getElem?_eq_some.mpr hrow
  obtain ⟨k, hk⟩ := List.mem_iff_getElem?.mp hentry
  have hnodup : (A.limArray.toList.map (·.1)).Nodup := by
    rw [ExtTreeMap.map_fst_toList_eq_keys]
    exact ExtTreeMap.nodup_keys
  have hplace := (getElem?_printRows (fun r hr => htyped r.1 r.2 (ExtTreeMap.mem_toList_iff_getElem?_eq_some.mp hr)) hnodup
    (fun _ _ => ExtTreeMap.not_mem_empty) hprint).2 k _ hk
  refine ⟨k, ⟨?_, hrow⟩, getName_cellName (htyped n row hrow) ?_⟩
  · rw [← ExtTreeMap.map_fst_toList_eq_keys, List.getElem?_map, hk]
    rfl
  · rwa [Nat.zero_add] at hplace

/-! ### The sections of a row -/

/-- `Memory(k)` is written. -/
def write (k : ℕ) (bits : Bits) : CellUse := ⟨"Memory", k, bits, .write⟩

/-- `Memory(k)` is read. -/
def read (k : ℕ) (bits : Bits) : CellUse := ⟨"Memory", k, bits, .read⟩

/-- A line that neither reads nor writes. -/
def CellUse.Inner (use : CellUse) : Prop := use.access ≠ .read ∧ use.access ≠ .write

/-- A path: it begins where a row that takes power is read, and ends where row `k` is written. -/
def IsPath (power : List CellUse) (k : ℕ) (path : List CellUse) : Prop :=
  ∃ m middle, path = read m .first :: (middle ++ [write k .first]) ∧ read m .all ∈ power ∧ ∀ use ∈ middle, use.Inner

theorem IsPath.mono {power power' path : List CellUse} (h : IsPath power k path) (hmem : ∀ use ∈ power, use ∈ power') :
    IsPath power' k path := by
  obtain ⟨m, middle, heq, hread, hinner⟩ := h
  exact ⟨m, middle, heq, hmem _ hread, hinner⟩

/-- The sections of a row at place `k`. -/
structure Sections.Sound (k : ℕ) (s : Sections) : Prop where
  write : write k .all ∈ s.power
  only : ∀ use ∈ s.power, use.access = .write → use = PrintDexFile.write k .all
  path : ∀ path ∈ s.path, IsPath s.power k path

/-- What the sections of all rows have in common: the memory cells of the row with the logic are read, and
those of the others, which may go by a mux. -/
def template (k inside : ℕ) (outside : List ℕ) (power path mux : List CellUse) : Sections where
  power := read inside .all :: (outside.map (read · .all) ++ power ++ [write k .all])
  path := (read inside .first :: (path ++ [write k .first])) ::
    outside.map fun m => read m .first :: ((mux ++ path) ++ [write k .first])

section Template

variable {inside : ℕ} {outside : List ℕ} {power path mux : List CellUse}

theorem sound_template (hpower : ∀ use ∈ power, use.Inner) (hpath : ∀ use ∈ path, use.Inner) (hmux : ∀ use ∈ mux, use.Inner) :
    (template k inside outside power path mux).Sound k := by
  refine ⟨by simp [template], fun use huse haccess => ?_, fun p hp => ?_⟩
  · simp only [template, List.mem_cons, List.mem_append, List.mem_map, List.not_mem_nil, or_false] at huse
    rcases huse with rfl | (⟨m, -, rfl⟩ | huse) | rfl
    · cases haccess
    · cases haccess
    · exact absurd haccess (hpower use huse).2
    · rfl
  · simp only [template, List.mem_cons, List.mem_map] at hp
    rcases hp with rfl | ⟨m, hm, rfl⟩
    · exact ⟨inside, path, rfl, List.mem_cons_self, hpath⟩
    · refine ⟨m, mux ++ path, rfl, ?_, fun use huse => (List.mem_append.mp huse).elim (hmux use) (hpath use)⟩
      simp only [template, List.mem_cons, List.mem_append, List.mem_map]
      exact .inr (.inl (.inl ⟨m, hm, rfl⟩))

/-- The memory cells of a row are declared. -/
theorem declared_memory (hat : LiMArray.At A k n row) {use : CellUse} (hrow : use.rowIndex = k)
    (hname : use.name = "Memory") (hbits : use.bits = .all ∨ use.bits = .first) : use.Declared A := by
  refine ⟨n, row, hrow ▸ hat, fun i hi => ⟨_, List.mem_cons_self, hname.symm, ?_⟩⟩
  rcases hbits with hbits | hbits
  · rwa [hbits] at hi
  · rw [hbits] at hi
    exact Bits.first_all i hi

theorem declared_template (hwrite : LiMArray.At A k n row) (hinside : LiMArray.At A inside source logic)
    (houtside : ∀ m ∈ outside, ∃ n row, LiMArray.At A m n row)
    (huses : ∀ use ∈ power ++ path ++ mux, use.Declared A) :
    ∀ use ∈ (template k inside outside power path mux).power ++ (template k inside outside power path mux).path.flatten,
      use.Declared A := by
  have hmemory : ∀ use : CellUse, use.name = "Memory" → (use.bits = .all ∨ use.bits = .first) →
      (use.rowIndex = k ∨ use.rowIndex = inside ∨ use.rowIndex ∈ outside) → use.Declared A := by
    rintro use hname hbits (hrow | hrow | hrow)
    · exact declared_memory hwrite hrow hname hbits
    · exact declared_memory hinside hrow hname hbits
    · obtain ⟨n, row, hat⟩ := houtside _ hrow
      exact declared_memory hat rfl hname hbits
  intro use huse
  have hcases : use ∈ power ++ path ++ mux ∨ (use.name = "Memory" ∧ (use.bits = .all ∨ use.bits = .first) ∧
      (use.rowIndex = k ∨ use.rowIndex = inside ∨ use.rowIndex ∈ outside)) := by
    simp only [template, List.mem_append, List.mem_cons, List.mem_map, List.mem_flatten, List.not_mem_nil, or_false] at huse ⊢
    rcases huse with (rfl | (⟨m, hm, rfl⟩ | huse) | rfl) | ⟨p, rfl | ⟨m, hm, rfl⟩, huse⟩
    · exact .inr ⟨rfl, .inl rfl, .inr (.inl rfl)⟩
    · exact .inr ⟨rfl, .inl rfl, .inr (.inr hm)⟩
    · exact .inl (.inl (.inl huse))
    · exact .inr ⟨rfl, .inl rfl, .inl rfl⟩
    · simp only [List.mem_cons, List.mem_append, List.not_mem_nil, or_false] at huse
      rcases huse with rfl | huse | rfl
      · exact .inr ⟨rfl, .inr rfl, .inr (.inl rfl)⟩
      · exact .inl (.inl (.inr huse))
      · exact .inr ⟨rfl, .inr rfl, .inl rfl⟩
    · simp only [List.mem_cons, List.mem_append, List.not_mem_nil, or_false] at huse
      rcases huse with rfl | (huse | huse) | rfl
      · exact .inr ⟨rfl, .inr rfl, .inr (.inr hm)⟩
      · exact .inl (.inr huse)
      · exact .inl (.inl (.inr huse))
      · exact .inr ⟨rfl, .inr rfl, .inl rfl⟩
  rcases hcases with huse | ⟨hname, hbits, hrow⟩
  · exact huses use huse
  · exact hmemory use hname hbits hrow

/-- The cells of the logic are declared. -/
theorem declared_cell (hat : LiMArray.At A inside n logic) {bits bits' : Bits} (access : Access) (hcell : (name, bits') ∈ cells logic)
    (hbits : ∀ i, bits.Has i → bits'.Has i) : (⟨name, inside, bits, access⟩ : CellUse).Declared A :=
  ⟨n, logic, hat, fun i hi => ⟨_, List.mem_cons_of_mem _ hcell, rfl, hbits i hi⟩⟩

end Template

/-- The logic inputs of a row are rows. -/
theorem exists_logicInputs (hshape : Shaped A logic) (hlogic : logic.rowType ≠ .load) :
    ∃ second last, logic.inputConnections[1]? = some second ∧ logic.inputConnections.getLast? = some last ∧
      (A.findRow second).isSome ∧ (A.findRow last).isSome := by
  have hrest := hshape.rest
  rcases hconn : logic.inputConnections with _ | ⟨first, _ | ⟨second, others⟩⟩
  · have hlen := hshape.logic hlogic
    rw [hconn] at hlen
    simp at hlen
  · have hlen := hshape.logic hlogic
    rw [hconn] at hlen
    simp at hlen
  · rw [LiMRow.logicInputs, hconn, List.tail_cons] at hrest
    have hne : second :: others ≠ [] := List.cons_ne_nil _ _
    refine ⟨second, (second :: others).getLast hne, rfl, ?_, hrest _ List.mem_cons_self, hrest _ (List.getLast_mem hne)⟩
    rw [List.getLast?_cons_cons]
    exact List.getLast?_eq_some_getLast hne

/-- What the sections of some rows say: each of the rows that has a memory input is written, and no other
one; a path begins where a row is read that takes power, and ends where one is written; what is named is
declared. -/
structure Sections.Describes (A : LiMArray) (rows : List Name) (s : Sections) : Prop where
  write : ∀ use ∈ s.power, use.access = .write → ∃ k, use = write k .all
  written : ∀ k, PrintDexFile.write k .all ∈ s.power ↔
    ∃ n ∈ rows, ∃ row, LiMArray.At A k n row ∧ row.inputConnections.head? ≠ some noInput
  path : ∀ path ∈ s.path, ∃ k, PrintDexFile.write k .all ∈ s.power ∧ IsPath s.power k path
  declared : ∀ use ∈ s.power ++ s.path.flatten, use.Declared A

theorem Sections.Describes.append {rows rows' : List Name} {s s' : Sections} (h : s.Describes A rows)
    (h' : s'.Describes A rows') :
    (⟨s.power ++ s'.power, s.path ++ s'.path⟩ : Sections).Describes A (rows ++ rows') := by
  refine ⟨fun use huse => (List.mem_append.mp huse).elim (h.write use) (h'.write use), fun k => ?_, fun path hpath => ?_,
    fun use huse => ?_⟩
  · simp only [List.mem_append, h.written, h'.written, or_and_right, exists_or]
  · rcases List.mem_append.mp hpath with hpath | hpath
    · obtain ⟨k, hk, hpath⟩ := h.path path hpath
      exact ⟨k, List.mem_append_left _ hk, hpath.mono fun use => List.mem_append_left _⟩
    · obtain ⟨k, hk, hpath⟩ := h'.path path hpath
      exact ⟨k, List.mem_append_right _ hk, hpath.mono fun use => List.mem_append_right _⟩
  · have hcases : use ∈ s.power ++ s.path.flatten ∨ use ∈ s'.power ++ s'.path.flatten := by
      simp only [List.flatten_append, List.mem_append] at huse ⊢
      tauto
    exact hcases.elim (h.declared use) (h'.declared use)

/-- The sections are made: they are those of place `k`, and what they name is declared. -/
def SectionsOk (A : LiMArray) (k : ℕ) (result : Except Stop Sections) : Prop :=
  ∃ s, result = .ok s ∧ s.Sound k ∧ ∀ use ∈ s.power ++ s.path.flatten, use.Declared A

section Logic

variable {inside k₁ k₂ : ℕ} {second : Name} {row₁ row₂ : LiMRow} (hat : LiMArray.At A k n row)
  (h : Placed A namesMap source logic inside) (h₁ : Placed A namesMap second row₁ k₁) (h₂ : Placed A namesMap last row₂ k₂)
include hat h

theorem sectionsOk_template (outside : List ℕ) (power path mux : List CellUse) {result : Except Stop Sections}
    (hresult : result = .ok (template k inside outside power path mux)) (houtside : ∀ m ∈ outside, ∃ n row, LiMArray.At A m n row)
    (hinner : ∀ use ∈ power ++ path ++ mux, use.Inner)
    (huses : ∀ use ∈ power ++ path ++ mux, use.Declared A) : SectionsOk A k result := by
  simp only [List.mem_append, or_imp, forall_and] at hinner
  obtain ⟨⟨hpower, hpath⟩, hmux⟩ := hinner
  exact ⟨_, hresult, sound_template hpower hpath hmux, declared_template hat h.1 houtside huses⟩

include h₁

theorem sectionsOk_bitwise (htype : LimOperations logic.rowType = some .bitwise) (hmux : ¬ 2 < logic.inputConnections.length)
    (hswitch : logic.rowType ≠ .switch) : SectionsOk A k (printBITWISEPowerPath namesMap k source second) := by
  have hname : shownName logic = logic.rowType.text := by
    rw [shownName, if_neg fun h => hmux h.2, cellName_bitwise htype, if_neg hmux]
  have hmem : (logic.rowType.text, Bits.all) ∈ cells logic := by simp [cells, htype, hmux, hswitch]
  refine sectionsOk_template hat h [k₁] [⟨logic.rowType.text, inside, .all, .none⟩]
    [⟨logic.rowType.text, inside, .first, .none⟩] [] ?_ ?_ ?_ ?_
  · unfold printBITWISEPowerPath
    rw [h.2, h₁.2, hname]
    rfl
  · simpa using ⟨second, row₁, h₁.1⟩
  · simp [CellUse.Inner]
  · simp only [List.cons_append, List.nil_append, List.forall_mem_cons, List.not_mem_nil, false_implies, implies_true, and_true]
    exact ⟨declared_cell h.1 .none hmem fun _ hi => hi, declared_cell h.1 .none hmem Bits.first_all⟩

theorem sectionsOk_arith (htype : LimOperations logic.rowType = some .arith) (hmux : ¬ 2 < logic.inputConnections.length) :
    SectionsOk A k (printADDPowerPath namesMap k source second) := by
  have hcells : cells logic = [("Fa", .carry), ("Ha", .last)] := by simp [cells, htype, hmux]
  have hFa : ("Fa", Bits.carry) ∈ cells logic := by simp [hcells]
  have hHa : ("Ha", Bits.last) ∈ cells logic := by simp [hcells]
  refine sectionsOk_template hat h [k₁] [⟨"Fa", inside, .carry, .none⟩, ⟨"Ha", inside, .last, .none⟩]
    [⟨"Fa", inside, .carry, .contamination⟩, ⟨"Ha", inside, .last, .none⟩] [] ?_ ?_ ?_ ?_
  · unfold printADDPowerPath
    rw [h.2, h₁.2]
    rfl
  · simpa using ⟨second, row₁, h₁.1⟩
  · simp [CellUse.Inner]
  · have hcarry := fun access => declared_cell h.1 access hFa fun _ hi => hi
    have hlast := declared_cell h.1 .none hHa fun _ hi => hi
    simp only [List.cons_append, List.nil_append, List.forall_mem_cons, List.not_mem_nil, false_implies, implies_true, and_true]
    exact ⟨hcarry _, hlast, hcarry _, hlast⟩

include h₂

theorem sectionsOk_bitwiseMux (htype : LimOperations logic.rowType = some .bitwise)
    (hmux : 2 < logic.inputConnections.length) :
    SectionsOk A k (printBITWISEMux2to1PowerPath namesMap k source second last) := by
  have hload : logic.rowType ≠ .load := by
    intro hload
    rw [hload] at htype
    cases htype
  -- the row is looked up as its mux
  have hname : shownName logic = "Mux" := if_pos ⟨hload, hmux⟩
  have hmem : ("Mux", Bits.below 32) ∈ cells logic := by simp [cells, htype, hmux]
  refine sectionsOk_template hat h [k₁, k₂] [⟨"Mux", inside, .all, .none⟩, ⟨"Mux", inside, .all, .none⟩]
    [⟨"Mux", inside, .first, .none⟩] [⟨"Mux", inside, .first, .none⟩] ?_ ?_ ?_ ?_
  · unfold printBITWISEMux2to1PowerPath
    rw [h.2, h₁.2, h₂.2, hname]
    rfl
  · simpa using ⟨⟨second, row₁, h₁.1⟩, last, row₂, h₂.1⟩
  · simp [CellUse.Inner]
  · have hall := declared_cell h.1 .none hmem Bits.all_below
    have hfirst := declared_cell h.1 .none hmem fun i hi => Bits.all_below i (Bits.first_all i hi)
    simp only [List.cons_append, List.nil_append, List.forall_mem_cons, List.not_mem_nil, false_implies, implies_true, and_true]
    exact ⟨hall, hall, hfirst, hfirst⟩

theorem sectionsOk_arithMux (htype : LimOperations logic.rowType = some .arith) (hmux : 2 < logic.inputConnections.length) :
    SectionsOk A k (printADDMux2to1PowerPath namesMap k source second last) := by
  have hcells : cells logic = [("Fa", .carry), ("Ha", .last), ("Mux", .all)] := by simp [cells, htype, hmux]
  have hFa : ("Fa", Bits.carry) ∈ cells logic := by simp [hcells]
  have hHa : ("Ha", Bits.last) ∈ cells logic := by simp [hcells]
  have hMux : ("Mux", Bits.all) ∈ cells logic := by simp [hcells]
  refine sectionsOk_template hat h [k₁, k₂]
    [⟨"Fa", inside, .carry, .none⟩, ⟨"Ha", inside, .last, .none⟩, ⟨"Mux", inside, .all, .none⟩]
    [⟨"Fa", inside, .carry, .contamination⟩, ⟨"Ha", inside, .last, .none⟩] [⟨"Mux", inside, .first, .none⟩] ?_ ?_ ?_ ?_
  · unfold printADDMux2to1PowerPath
    rw [h.2, h₁.2, h₂.2]
    rfl
  · simpa using ⟨⟨second, row₁, h₁.1⟩, last, row₂, h₂.1⟩
  · simp [CellUse.Inner]
  · have hcarry := fun access => declared_cell h.1 access hFa fun _ hi => hi
    have hlast := declared_cell h.1 .none hHa fun _ hi => hi
    have hall := declared_cell h.1 .none hMux fun _ hi => hi
    have hfirst := declared_cell h.1 .none hMux Bits.first_all
    simp only [List.cons_append, List.nil_append, List.forall_mem_cons, List.not_mem_nil, false_implies, implies_true, and_true]
    exact ⟨hcarry _, hlast, hall, hcarry _, hlast, hfirst⟩

end Logic

section Rows

variable (htyped : ∀ n row, A.findRow n = some row → row.Typed) (hshaped : ∀ n row, A.findRow n = some row → Shaped A row)
  (hplaced : ∀ n row, A.findRow n = some row → ∃ k, Placed A namesMap n row k)
include htyped hshaped hplaced

/-- The sections of a row, by the type of its memory input. -/
theorem sectionsOk_printLogicPowerPath (hat : LiMArray.At A k n row) (hlogic : A.findRow source = some logic) :
    SectionsOk A k (printLogicPowerPath namesMap k source logic) := by
  obtain ⟨inside, hinside⟩ := hplaced source logic hlogic
  unfold printLogicPowerPath
  by_cases hload : logic.rowType = .load
  · rw [hload]
    refine sectionsOk_template hat hinside [] [] [] [] ?_ (by simp) (by simp) (by simp)
    simp only [LimOperations, hinside.2]
    rfl
  · obtain ⟨second, last, hsecond, hlast, hsome₁, hsome₂⟩ := exists_logicInputs (hshaped source logic hlogic) hload
    obtain ⟨row₁, hrow₁⟩ := Option.isSome_iff_exists.mp hsome₁
    obtain ⟨row₂, hrow₂⟩ := Option.isSome_iff_exists.mp hsome₂
    obtain ⟨k₁, h₁⟩ := hplaced second row₁ hrow₁
    obtain ⟨k₂, h₂⟩ := hplaced last row₂ hrow₂
    have hswitch := (htyped source logic hlogic hload).2
    rw [hsecond, hlast]
    rcases limOperations_of_typed (htyped source logic hlogic) hload with htype | htype
    · rw [htype]
      by_cases hmux : 2 < logic.inputConnections.length
      · simp only [if_pos hmux]
        exact sectionsOk_bitwiseMux hat hinside h₁ h₂ htype hmux
      · simp only [if_neg hmux, if_neg hswitch]
        exact sectionsOk_bitwise hat hinside h₁ htype hmux hswitch
    · rw [htype]
      by_cases hmux : 2 < logic.inputConnections.length
      · simp only [if_pos hmux]
        exact sectionsOk_arithMux hat hinside h₁ h₂ htype hmux
      · simp only [if_neg hmux]
        exact sectionsOk_arith hat hinside h₁ htype hmux

/-- **The sections of a row** that has a memory input. -/
theorem sectionsOk_printPowerPathSection (hrow : A.findRow n = some row) (hsource : row.inputConnections.head? = some source)
    (hne : source ≠ noInput) :
    ∃ k, LiMArray.At A k n row ∧ SectionsOk A k (printPowerPathSection namesMap A n source) := by
  obtain ⟨k, hat, hname⟩ := hplaced n row hrow
  have hin : (A.findRow source).isSome := by
    obtain ⟨m, hm, hcases⟩ := (hshaped n row hrow).head
    obtain rfl := Option.some.inj (hm.symm.trans hsource)
    exact hcases.resolve_left fun h => hne h.1
  obtain ⟨logic, hlogic⟩ := Option.isSome_iff_exists.mp hin
  refine ⟨k, hat, ?_⟩
  unfold printPowerPathSection
  rw [hname, hlogic]
  exact sectionsOk_printLogicPowerPath htyped hshaped hplaced hat hlogic

/-- The sections of a row of a time. -/
theorem rowSections_ok (hrow : A.findRow n = some row) :
    ∃ s, rowSections namesMap A n = .ok s ∧ s.Describes A [n] := by
  obtain ⟨source, hsource, -⟩ := (hshaped n row hrow).head
  have heq : rowSections namesMap A n =
      if source ≠ noInput then printPowerPathSection namesMap A n source else .ok ⟨[], []⟩ := by
    unfold rowSections
    rw [hrow]
    show (element row.inputConnections.head? >>= _) = _
    rw [hsource]
    rfl
  rw [heq]
  by_cases hne : source = noInput
  · refine ⟨⟨[], []⟩, if_neg (not_not.mpr hne), by simp, fun k => iff_of_false (by simp) ?_, by simp, by simp⟩
    rintro ⟨m, hm, row', hat, hhead⟩
    rw [List.mem_singleton.mp hm] at hat
    obtain rfl := Option.some.inj (hat.2.symm.trans hrow)
    exact hhead (hne ▸ hsource)
  · obtain ⟨k₀, hat, s, hs, hsound, hdeclared⟩ := sectionsOk_printPowerPathSection htyped hshaped hplaced hrow hsource hne
    rw [if_pos hne]
    refine ⟨s, hs, fun use huse haccess => ⟨k₀, hsound.only use huse haccess⟩, fun k => ⟨fun hk => ?_, ?_⟩,
      fun path hpath => ⟨k₀, hsound.write, hsound.path path hpath⟩, hdeclared⟩
    · obtain rfl : k = k₀ := congrArg CellUse.rowIndex (hsound.only _ hk rfl)
      refine ⟨n, List.mem_singleton_self n, row, hat, ?_⟩
      rw [hsource]
      exact fun h => hne (Option.some.inj h)
    · rintro ⟨m, hm, row', hat', -⟩
      rw [List.mem_singleton.mp hm] at hat'
      -- a name has one place
      have hnodup : A.limArray.keys.Nodup := ExtTreeMap.nodup_keys
      obtain ⟨hlt, hget⟩ := List.getElem?_eq_some_iff.mp hat'.1
      obtain ⟨hlt₀, hget₀⟩ := List.getElem?_eq_some_iff.mp hat.1
      rw [hnodup.getElem_inj_iff.mp (hget.trans hget₀.symm)]
      exact hsound.write

/-- **The sections of the rows of a time.** -/
theorem powerPathSection_ok (rows : List Name) (hrows : ∀ n ∈ rows, (A.findRow n).isSome) :
    ∃ s, powerPathSection namesMap A rows = .ok s ∧ s.Describes A rows := by
  induction rows with
  | nil => exact ⟨⟨[], []⟩, rfl, by simp, by simp, by simp, by simp⟩
  | cons n rows ih =>
    obtain ⟨rest, hrest, hdescribes'⟩ := ih fun n hn => hrows n (List.mem_cons_of_mem _ hn)
    obtain ⟨row, hrow⟩ := Option.isSome_iff_exists.mp (hrows n List.mem_cons_self)
    obtain ⟨s, hs, hdescribes⟩ := rowSections_ok htyped hshaped hplaced hrow
    refine ⟨_, ?_, hdescribes.append hdescribes'⟩
    unfold powerPathSection
    rw [hs, hrest]
    rfl

end Rows

/-! ### The names of the instructions -/

/-- A character that a time may have. -/
def isTimeChar (c : Char) : Bool := c.isDigit || c == '-'

theorem isTimeChar_of_mem_toString {t : ℤ} {c : Char} (h : c ∈ (toString t).toList) : isTimeChar c = true := by
  have hdigit : ∀ n : ℕ, c ∈ (Nat.repr n).toList → isTimeChar c = true := by
    intro n hc
    rw [Nat.toList_repr] at hc
    rw [isTimeChar, Nat.isDigit_of_mem_toDigits (by decide) (by decide) hc, Bool.true_or]
  cases t with
  | ofNat n => exact hdigit n h
  | negSucc n =>
    have hsplit : c ∈ ("-" ++ Nat.repr (n + 1)).toList := h
    rw [String.toList_append, List.mem_append] at hsplit
    rcases hsplit with hminus | hrest
    · rw [List.mem_singleton.mp hminus]
      rfl
    · exact hdigit _ hrest

/-- The operations are letters. -/
theorem exists_getLast_text (operation : Operation) :
    ∃ c, operation.text.toList.getLast? = some c ∧ isTimeChar c = false := by
  cases operation <;> exact ⟨_, rfl, rfl⟩

/-- The name ends in the type of a row and the time. -/
theorem instrNameLoop_ok {t : ℤ} (rows : List Name) (hrows : ∀ n ∈ rows, (A.findRow n).isSome) (i : ℕ) (start : String) :
    ∃ name, instrNameLoop A t rows i start = .ok name ∧
      (name = start ∧ rows = [] ∨ ∃ before : String, ∃ operation : Operation, name = before ++ (operation.text ++ toString t)) := by
  induction rows generalizing i start with
  | nil => exact ⟨start, rfl, .inl ⟨rfl, rfl⟩⟩
  | cons n rows ih =>
    obtain ⟨row, hrow⟩ := Option.isSome_iff_exists.mp (hrows n List.mem_cons_self)
    obtain ⟨name, hname, hcases⟩ := ih (fun n hn => hrows n (List.mem_cons_of_mem _ hn)) (i + 1)
      ((if i ≠ 0 then start ++ "_" else start) ++ (row.rowType.text ++ toString t))
    refine ⟨name, ?_, .inr ?_⟩
    · unfold instrNameLoop
      rw [hrow]
      exact hname
    · rcases hcases with ⟨rfl, -⟩ | hcases
      · exact ⟨_, row.rowType, rfl⟩
      · exact hcases

/-- **The name of an instruction tells its time.** -/
theorem time_eq_of_name {t t' : ℤ} {before before' : String} {operation operation' : Operation}
    (h : before ++ (operation.text ++ toString t) = before' ++ (operation'.text ++ toString t')) : t = t' := by
  have hread : ∀ (before : String) (operation : Operation) (t : ℤ),
      ((before ++ (operation.text ++ toString t)).toList.reverse.takeWhile isTimeChar).reverse = (toString t).toList := by
    intro before operation t
    obtain ⟨c, hc, hnot⟩ := exists_getLast_text operation
    obtain ⟨text, htext⟩ := List.getLast?_eq_some_iff.mp hc
    rw [String.toList_append, String.toList_append, htext]
    simp only [List.reverse_append, List.reverse_cons, List.nil_append, List.append_assoc, List.cons_append]
    rw [List.takeWhile_append_of_pos, List.takeWhile_cons_of_neg]
    · simp
    · simp [hnot]
    · exact fun c hc => isTimeChar_of_mem_toString (List.mem_reverse.mp hc)
  have heq : (toString t).toList = (toString t').toList := by rw [← hread before operation t, h, hread]
  exact Int.repr_injective (String.toList_inj.mp heq)

/-! ### The instructions -/

/-- What an instruction says of its time. -/
structure DexInstruction.Describes (A : LiMArray) (rows : List Name) (i : DexInstruction) : Prop where
  name : ∃ before : String, ∃ operation : Operation, i.name = before ++ (operation.text ++ toString i.time)
  sections : i.sections.Describes A rows

/-- What is made of every entry of a list, one after another. -/
theorem mapM_ok {α β κ : Type} {f : α → Except Stop β} {P : α → β → Prop} {key : α → κ} {key' : β → κ} {as : List α}
    (h : ∀ a ∈ as, ∃ b, f a = .ok b ∧ key' b = key a ∧ P a b) :
    ∃ bs, as.mapM f = .ok bs ∧ bs.map key' = as.map key ∧ ∀ b ∈ bs, ∃ a ∈ as, key' b = key a ∧ P a b := by
  induction as with
  | nil => exact ⟨[], rfl, rfl, by simp⟩
  | cons a as ih =>
    obtain ⟨b, hb, hkey, hP⟩ := h a List.mem_cons_self
    obtain ⟨bs, hbs, hkeys, hall⟩ := ih fun a ha => h a (List.mem_cons_of_mem _ ha)
    refine ⟨b :: bs, ?_, by rw [List.map_cons, List.map_cons, hkey, hkeys], fun b' hb' => ?_⟩
    · rw [List.mapM_cons, hb, hbs]
      rfl
    · rcases List.mem_cons.mp hb' with rfl | hb'
      · exact ⟨a, List.mem_cons_self, hkey, hP⟩
      · obtain ⟨a', ha', h'⟩ := hall b' hb'
        exact ⟨a', List.mem_cons_of_mem _ ha', h'⟩

/-- **The instructions of a printed array**: there is one for every time but 0 at which some row is written. -/
theorem printInstructions_ok (htyped : ∀ n row, A.findRow n = some row → row.Typed)
    (hshaped : ∀ n row, A.findRow n = some row → Shaped A row) (hregular : Regular A F) (hprint : printLiM A = .ok namesMap) :
    ∃ instructions, printInstructions namesMap A F.transform = .ok instructions ∧
      (instructions.map (·.name)).Nodup ∧
      (∀ t, (∃ i ∈ instructions, i.time = t) ↔ t ≠ 0 ∧ ∃ n, F.getTime n = some t) ∧
      ∀ i ∈ instructions, ∃ rows, (∀ n, n ∈ rows ↔ F.getTime n = some i.time) ∧ i.Describes A rows := by
  have hplaced := fun n row (hrow : A.findRow n = some row) => placed_of_printLiM htyped hprint hrow
  have hentry : ∀ {t : ℤ} {rows : List Name}, (t, rows) ∈ F.transform.FSM.toList →
      rows ≠ [] ∧ ∀ n, n ∈ rows ↔ F.getTime n = some t := by
    intro t rows hmem
    have hrows := ExtTreeMap.mem_toList_iff_getElem?_eq_some.mp hmem
    refine ⟨FiniteStateMachine.ne_nil_of_transform hregular.pending hrows, fun n => ?_⟩
    rw [← FiniteStateMachine.mem_transform hregular.pending, hrows]
    simp
  have hone : ∀ entry ∈ F.transform.FSM.toList, ∃ i, printInstruction namesMap A entry = .ok i ∧
      (i.time = entry.1 ∧ i.Describes A entry.2) := by
    rintro ⟨t, rows⟩ hmem
    obtain ⟨hne, hrows⟩ := hentry hmem
    have hsome : ∀ n ∈ rows, (A.findRow n).isSome := fun n hn =>
      (hregular.timed n).mpr (Option.isSome_of_eq_some ((hrows n).mp hn))
    obtain ⟨name, hname, hends⟩ := instrNameLoop_ok (t := t) rows hsome 0 ""
    obtain ⟨s, hs, hdescribes⟩ := powerPathSection_ok htyped hshaped hplaced rows hsome
    refine ⟨⟨t, name, s⟩, ?_, rfl, hends.resolve_left fun h => hne h.2, hdescribes⟩
    unfold printInstruction instrName
    rw [hname]
    show (powerPathSection namesMap A rows >>= _) = _
    rw [hs]
    rfl
  obtain ⟨all, hall, htimes, hmem⟩ := mapM_ok hone
  rw [ExtTreeMap.map_fst_toList_eq_keys] at htimes
  refine ⟨all.filter (·.time ≠ 0), ?_, ?_, fun t => ?_, fun i hi => ?_⟩
  · unfold printInstructions
    rw [hall]
    rfl
  · have hnodup : (all.map (·.time)).Nodup := htimes ▸ ExtTreeMap.nodup_keys
    have hnames : (all.map (·.name)).Nodup := by
      refine hnodup.of_map.map_on fun i hi j hj heq => List.inj_on_of_nodup_map hnodup hi hj ?_
      obtain ⟨-, -, -, ⟨before, operation, hname⟩, -⟩ := hmem i hi
      obtain ⟨-, -, -, ⟨before', operation', hname'⟩, -⟩ := hmem j hj
      exact time_eq_of_name (hname.symm.trans (heq.trans hname'))
    exact hnames.sublist (List.filter_sublist.map _)
  · have hkey : t ∈ F.transform.FSM.keys ↔ ∃ n, F.getTime n = some t := by
      constructor
      · intro ht
        obtain ⟨rows, hrows⟩ := Option.isSome_iff_exists.mp (ExtTreeMap.isSome_getElem?_iff_mem.mpr (ExtTreeMap.mem_keys.mp ht))
        obtain ⟨hne, htime⟩ := hentry (ExtTreeMap.mem_toList_iff_getElem?_eq_some.mpr hrows)
        obtain ⟨n, hn⟩ := List.exists_mem_of_ne_nil _ hne
        exact ⟨n, (htime n).mp hn⟩
      · rintro ⟨n, hn⟩
        obtain ⟨rows, hrows, -⟩ := (FiniteStateMachine.mem_transform hregular.pending).mpr hn
        exact ExtTreeMap.mem_keys.mpr (ExtTreeMap.isSome_getElem?_iff_mem.mp (Option.isSome_of_eq_some hrows))
    rw [← hkey, ← htimes, List.mem_map]
    constructor
    · rintro ⟨i, hi, rfl⟩
      obtain ⟨hin, hne⟩ := List.mem_filter.mp hi
      exact ⟨of_decide_eq_true hne, i, hin, rfl⟩
    · rintro ⟨hne, i, hin, rfl⟩
      exact ⟨i, List.mem_filter.mpr ⟨hin, decide_eq_true hne⟩, rfl⟩
  · obtain ⟨entry, hin, htime, hdescribes⟩ := hmem i (List.mem_of_mem_filter hi)
    exact ⟨entry.2, htime ▸ (hentry hin).2, hdescribes⟩

end PrintDexFile

open PrintDexFile in
/-- **The instructions of a run** without shifts, once its rows are printed. There is one for every time but 0
at which some row is written, each with a name of its own. It writes the rows of its time that have a memory
input, and no other one; every path begins at a row that it reads and ends at a row that it writes; and all
cells that it names, at each bit, are declared for the row they are named with. -/
theorem instructions_of_reaches {par : ℤ} {optTarget : String} {actions : List BindingAction} {s : BinderState}
    {namesMap : NamesMap} (hshift : ∀ a ∈ actions, a.noShift) (hswitch : ∀ a ∈ actions, a.noSwitch)
    (h : Reaches par optTarget actions s) (hprint : printLiM s.binder.MemArray = .ok namesMap) :
    ∃ instructions, printInstructions namesMap s.binder.MemArray s.binder.FSMLim.transform = .ok instructions ∧
      (instructions.map (·.name)).Nodup ∧
      (∀ t, (∃ i ∈ instructions, i.time = t) ↔ t ≠ 0 ∧ ∃ n, s.binder.FSMLim.getTime n = some t) ∧
      ∀ i ∈ instructions, ∃ rows, (∀ n, n ∈ rows ↔ s.binder.FSMLim.getTime n = some i.time) ∧
        i.Describes s.binder.MemArray rows :=
  printInstructions_ok (typed_of_reaches hswitch h) (fun _ _ hrow => shaped_of_findRow hshift h hrow)
    (regular_of_reaches hshift h) hprint

open PrintDexFile in
/-- The sum and the accumulation have two instructions. -/
theorem instructions_of_reaches_orderedRows : ∃ s namesMap instructions, Reaches 8 "Accumulation" orderedRows s ∧
    printLiM s.binder.MemArray = .ok namesMap ∧
    printInstructions namesMap s.binder.MemArray s.binder.FSMLim.transform = .ok instructions ∧
    (instructions.map (·.name)).Nodup := by
  obtain ⟨s, hs⟩ := Option.isSome_iff_exists.mp orderedRows_isSome
  have hstop : ((run bindStep (.init 8 "Accumulation") orderedRows).all fun s =>
      decide (stopOf s.binder.MemArray = none)) = true := by decide +kernel
  rw [hs] at hstop
  obtain ⟨namesMap, hprint⟩ := stopOf_eq_none_iff.mp (of_decide_eq_true hstop)
  obtain ⟨instructions, hinstructions, hnames, -⟩ := instructions_of_reaches (by decide) (by decide) hs hprint
  exact ⟨s, namesMap, instructions, hs, hprint, hinstructions, hnames⟩

end Octantis
