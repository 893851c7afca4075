import Octantis.Analysis.CollectInfo
import Octantis.Analysis.LoopInfoTable
import Octantis.Utils.AccessPattern

/-!
# The pointers into arrays

What `parseLoopBody` finds out about the subscripts of a pointer and `setPointerInfo`
about the elements that the pointer goes over.

## The model

A subscript is the tree of the instructions that compute it from the iterators; an
operator on two constants is a constant, as LLVM folds it. A subscript that the collector
has no branch for leaves the index info of an earlier pointer in `tmpPointerStruct`, which
is an argument (`previous`).

The fields that the third part of `setPointerInfo` sets are one record (`Extent`); a
pointer for which no branch sets them has none. Their values are integers, which are
not checked for the range of `int`, and a `float` that the source rounds up is exact.
-/

namespace Octantis

open Lib

/-- `indexInfoStruct`. `operation` is 0 or the opcode of an addition. -/
structure IndexInfo where
  /-- The iterators. -/
  iterators : List Reg
  /-- The constant added to them. -/
  constant : ℤ
  /-- The index is the result of an addition. -/
  isAdd : Bool
  deriving DecidableEq, Repr

/-- An index without information. -/
def IndexInfo.empty : IndexInfo := ⟨[], 0, false⟩

/-- The subsets, spacings, offsets and stops of a `pointerInfoStruct`. -/
structure Extent where
  /-- The rows of a subset. -/
  setRows : ℤ
  /-- The columns of a subset. -/
  setCols : ℤ
  /-- The horizontal spacing in a subset. -/
  spacingInSubsetX : ℤ
  /-- The vertical spacing in a subset. -/
  spacingInSubsetY : ℤ
  /-- The horizontal spacing of the subsets. -/
  spacingX : ℤ
  /-- The vertical spacing of the subsets. -/
  spacingY : ℤ
  /-- The horizontal offset. -/
  offsetX : ℤ
  /-- The vertical offset. -/
  offsetY : ℤ
  /-- The horizontal stop. -/
  stopX : ℤ
  /-- The vertical stop. -/
  stopY : ℤ
  /-- The number of subsets. -/
  numberOfSubsets : ℤ
  /-- The number of elements of a subset. -/
  numberOfSubsetsElements : ℤ
  deriving DecidableEq, Repr

/-- `pointerInfoStruct`. -/
structure PointerInfoStruct where
  /-- The iterator of the innermost loop around the pointer. -/
  loopIterator : Reg
  /-- The rows of the array. -/
  arrayRows : ℤ
  /-- Its columns. -/
  arrayCols : ℤ
  /-- The fields of the third part of `setPointerInfo`. -/
  extent : Option Extent
  /-- The access pattern. -/
  pointerAccessPattern : AccessPattern
  deriving DecidableEq, Repr

/-- A subscript, as the instructions compute it. -/
inductive Subscript where
  /-- A constant. -/
  | constant (value : ℤ)
  /-- A loop iterator. -/
  | iterator (register : Reg)
  /-- An `Add`. -/
  | add (a b : Subscript)
  /-- A `Sub`. -/
  | sub (a b : Subscript)
  /-- A `Mul` by a constant. -/
  | mul (factor : ℤ) (a : Subscript)
  deriving DecidableEq, Repr

namespace Subscript

/-- The value of a subscript, from those of the iterators. -/
def eval (env : Reg → ℤ) : Subscript → ℤ
  | constant value => value
  | iterator register => env register
  | add a b => a.eval env + b.eval env
  | sub a b => a.eval env - b.eval env
  | mul factor a => factor * a.eval env

/-- The iterators in a subscript. -/
def iterators : Subscript → List Reg
  | constant _ => []
  | iterator register => [register]
  | add a b | sub a b => a.iterators ++ b.iterators
  | mul _ a => a.iterators

/-- The constant that a subscript without iterators is folded to. -/
def folded : Subscript → Option ℤ
  | constant value => some value
  | iterator _ => none
  | add a b => a.folded.bind fun x => b.folded.map fun y => x + y
  | sub a b => a.folded.bind fun x => b.folded.map fun y => x - y
  | mul factor a => a.folded.map fun x => factor * x

/-- The index info of a subscript that the collector recognises: a constant, an iterator, or the sum
of an iterator and another or a constant. Of the two loads of `i + i` only the last is the alias of
the iterator. -/
def indexInfo (e : Subscript) : Option IndexInfo :=
  match e.folded with
  | some value => some ⟨[], value, false⟩
  | none =>
    match e with
    | iterator it => some ⟨[it], 0, false⟩
    | add (iterator it) (iterator it') => if it = it' then none else some ⟨[it, it'], 0, true⟩
    | add (iterator it) b => b.folded.map fun value => ⟨[it], value, true⟩
    | _ => none

/-- The constant that a subscript is folded to is its value. -/
theorem eval_of_folded {e : Subscript} {value : ℤ} (h : e.folded = some value) (env : Reg → ℤ) :
    e.eval env = value := by
  induction e generalizing value with
  | constant v => exact Option.some.inj h
  | iterator it => cases h
  | add a b iha ihb | sub a b iha ihb =>
    obtain ⟨x, hx, h⟩ := Option.bind_eq_some_iff.mp h
    obtain ⟨y, hy, rfl⟩ := Option.map_eq_some_iff.mp h
    rw [eval, iha hx, ihb hy]
  | mul factor a iha =>
    obtain ⟨x, hx, rfl⟩ := Option.map_eq_some_iff.mp h
    rw [eval, iha hx]

/-- **The value of a subscript** with one iterator. -/
theorem eval_of_indexInfo {e : Subscript} {it : Reg} {c : ℤ} {isAdd : Bool}
    (h : e.indexInfo = some ⟨[it], c, isAdd⟩)
    (env : Reg → ℤ) : e.eval env = env it + c := by
  unfold indexInfo at h
  split at h
  · cases h
  · split at h
    · cases h
      rw [eval, Int.add_zero]
    · split at h <;> cases h
    · next b _ _ =>
      obtain ⟨value, hvalue, h⟩ := Option.map_eq_some_iff.mp h
      cases h
      rw [eval, eval, eval_of_folded hvalue]
    · cases h

end Subscript

namespace CollectInfo

/-- The index info that `parseLoopBody` enters in the table for a pointer with these subscripts,
when `previous` is left in `tmpPointerStruct`. A vector has one index. The pointer into a matrix is
not entered when its second index is not recognised, or when the matrix has one column and is taken
for a vector. -/
def parsePointer (arrayRows : ℤ) (previous : IndexInfo × IndexInfo) : List Subscript → Option (IndexInfo × IndexInfo)
  | [e] => if arrayRows = 1 then some (e.indexInfo.getD previous.1, .empty) else none
  | [e₁, e₂] =>
    if arrayRows = 1 then none
    else e₂.indexInfo.map fun secondIdxInfo => (e₁.indexInfo.getD previous.1, secondIdxInfo)
  | _ => none

/-- The row of the access pattern of an index: the increments of the loops whose iterators it
has. -/
def increments (LIT : LoopInfoTable) (iterationVector iterators : List Reg) : Option (List ℤ) :=
  iterationVector.mapM fun it =>
    if it ∈ iterators then (LIT.getLoopInfo it).map (·.iteratorIncrement) else some 0

/-- The last element in a direction. -/
def stop (offset spacing iterations : ℤ) : ℤ := offset + spacing * (iterations - 1)

/-- `iterations / increment`. -/
def setLength (l : LoopInfo) : Option ℤ :=
  if l.iteratorIncrement = 0 then none else some (l.iterations.tdiv l.iteratorIncrement)

/-- The extent of a pointer into a matrix, with one iterator in each index. -/
def singleExtent (LIT : LoopInfoTable) (first second : IndexInfo) (l1 l3 : LoopInfo) : Option Extent :=
  let offsetX := l3.iteratorInitValue + second.constant
  let offsetY := l1.iteratorInitValue + first.constant
  if l1.isFinalValueConstant && l1.isInitValueConstant && l3.isFinalValueConstant && l3.isInitValueConstant then
    some
      { setRows := -1, setCols := -1, spacingInSubsetX := -1, spacingInSubsetY := -1
        spacingX := l3.iteratorIncrement, spacingY := l1.iteratorIncrement, offsetX, offsetY
        stopX := stop offsetX l3.iteratorIncrement l3.iterations
        stopY := stop offsetY l1.iteratorIncrement l1.iterations
        numberOfSubsets := 1, numberOfSubsetsElements := l1.iterations * l3.iterations }
  else do
    let stopX ← LIT.getLoopInfo l1.variableFinalValue
    let stopY ← LIT.getLoopInfo l3.variableFinalValue
    some
      { setRows := -1, setCols := -1
        spacingInSubsetX := l3.iteratorIncrement, spacingInSubsetY := l1.iteratorIncrement
        spacingX := l3.iteratorIncrement, spacingY := l1.iteratorIncrement, offsetX, offsetY
        stopX := stopX.iterations, stopY := stopY.iterations
        numberOfSubsets := 1, numberOfSubsetsElements := l1.iterations * l3.iterations }

/-- The extent with two iterators in each index. -/
def doubleExtent (first second : IndexInfo) (l1 l2 l3 l4 : LoopInfo) : Option Extent := do
  let offsetX := l3.iteratorInitValue + l4.iteratorInitValue + second.constant
  let offsetY := l1.iteratorInitValue + l2.iteratorInitValue + first.constant
  some
    { setRows := ← setLength l2, setCols := ← setLength l4
      spacingInSubsetX := l4.iteratorIncrement, spacingInSubsetY := l2.iteratorIncrement
      spacingX := l3.iteratorIncrement, spacingY := l1.iteratorIncrement, offsetX, offsetY
      stopX := stop offsetX l3.iteratorIncrement l3.iterations
      stopY := stop offsetY l1.iteratorIncrement l1.iterations
      numberOfSubsets := l1.iterations * l3.iterations, numberOfSubsetsElements := l2.iterations * l4.iterations }

/-- The extent with one iterator in the first index and two in the second. -/
def secondDoubleExtent (first second : IndexInfo) (l1 l3 l4 : LoopInfo) : Option Extent := do
  let offsetX := l3.iteratorInitValue + l4.iteratorInitValue + second.constant
  let offsetY := l1.iteratorInitValue + first.constant
  some
    { setRows := 1, setCols := ← setLength l4
      spacingInSubsetX := l4.iteratorIncrement, spacingInSubsetY := -1
      spacingX := l3.iteratorIncrement, spacingY := l1.iteratorIncrement, offsetX, offsetY
      stopX := stop offsetX l3.iteratorIncrement l3.iterations
      stopY := stop offsetY l1.iteratorIncrement l1.iterations
      numberOfSubsets := l1.iterations * l3.iterations, numberOfSubsetsElements := l4.iterations }

/-- The extent with two iterators in the first index and one in the second, of which the horizontal
offset does not have the initial value. -/
def firstDoubleExtent (first second : IndexInfo) (l1 l2 l3 : LoopInfo) : Option Extent := do
  let offsetX := l1.iteratorInitValue + second.constant
  let offsetY := l1.iteratorInitValue + l2.iteratorInitValue + first.constant
  some
    { setRows := ← setLength l2, setCols := 1
      spacingInSubsetX := -1, spacingInSubsetY := l2.iteratorIncrement
      spacingX := l3.iteratorIncrement, spacingY := l1.iteratorIncrement, offsetX, offsetY
      stopX := stop offsetX l3.iteratorIncrement l3.iterations
      stopY := stop offsetY l1.iteratorIncrement l1.iterations
      numberOfSubsets := l1.iterations * l3.iterations, numberOfSubsetsElements := l2.iterations }

/-- The extent of a pointer into a matrix, by the number of iterators of its two indexes. With two
in the first and one in the second the operation tested is that of the second. -/
def matrixExtent (LIT : LoopInfoTable) (first second : IndexInfo) : Option (Option Extent) :=
  match first.iterators, second.iterators with
  | [it1], [it3] => do
    return some (← singleExtent LIT first second (← LIT.getLoopInfo it1) (← LIT.getLoopInfo it3))
  | [it1, it2], [it3, it4] =>
    if first.isAdd && second.isAdd then do
      return some (← doubleExtent first second (← LIT.getLoopInfo it1) (← LIT.getLoopInfo it2)
        (← LIT.getLoopInfo it3) (← LIT.getLoopInfo it4))
    else return none
  | [it1], [it3, it4] =>
    if second.isAdd then do
      return some (← secondDoubleExtent first second (← LIT.getLoopInfo it1) (← LIT.getLoopInfo it3)
        (← LIT.getLoopInfo it4))
    else return none
  | [it1, it2], [it3] =>
    if second.isAdd then do
      return some (← firstDoubleExtent first second (← LIT.getLoopInfo it1) (← LIT.getLoopInfo it2)
        (← LIT.getLoopInfo it3))
    else return none
  | _, _ => return none

/-- The extent of a pointer into a vector with one iterator. -/
def vectorSingleExtent (first : IndexInfo) (l1 : LoopInfo) : Extent :=
  let offsetX := l1.iteratorInitValue + first.constant
  { setRows := -1, setCols := -1, spacingInSubsetX := -1, spacingInSubsetY := -1
    spacingX := l1.iteratorIncrement, spacingY := 1, offsetX, offsetY := 0
    stopX := stop offsetX l1.iteratorIncrement l1.iterations, stopY := 0
    numberOfSubsets := 1, numberOfSubsetsElements := l1.iterations }

/-- The extent of a pointer into a vector with two iterators. -/
def vectorDoubleExtent (first : IndexInfo) (l1 l2 : LoopInfo) : Option Extent := do
  let offsetX := l1.iteratorInitValue + l2.iteratorInitValue + first.constant
  some
    { setRows := 1, setCols := ← setLength l2
      spacingInSubsetX := l2.iteratorIncrement, spacingInSubsetY := -1
      spacingX := l1.iteratorIncrement, spacingY := -1, offsetX, offsetY := -1
      stopX := stop offsetX l1.iteratorIncrement l1.iterations, stopY := -1
      numberOfSubsets := l1.iterations, numberOfSubsetsElements := l2.iterations }

/-- The extent of a pointer into a vector. -/
def vectorExtent (LIT : LoopInfoTable) (first : IndexInfo) : Option (Option Extent) :=
  match first.iterators with
  | [] => return none
  | [it1] => do return some (vectorSingleExtent first (← LIT.getLoopInfo it1))
  | it1 :: it2 :: rest =>
    if first.isAdd then do
      return some (← vectorDoubleExtent first (← LIT.getLoopInfo it1)
        (← LIT.getLoopInfo ((it2 :: rest).getLastD it2)))
    else return none

/-- `setPointerInfo`, for a pointer in a block, into an array of these rows and columns. -/
def setPointerInfo (LIT : LoopInfoTable) (outside : OutOfRange) (instrLoopBody : Reg) (arrayRows arrayCols : ℤ)
    (first second : IndexInfo) : Option PointerInfoStruct := do
  let loopIterator ← LIT.getLoopIteratorFromLoopBody instrLoopBody
  let iterationVector := LIT.getIterationVector loopIterator
  let indexInfoList := if arrayRows > 1 then [first, second] else [first]
  let rows ← indexInfoList.mapM fun info => increments LIT iterationVector info.iterators
  let accessPattern := AccessPattern.ofIncrements indexInfoList.length iterationVector.length rows.flatten
  let accessPattern ← accessPattern.detectAccessPatternType outside
  let pointerAccessPattern ← accessPattern.detectZeroCols
  let extent ← if arrayRows > 1 then matrixExtent LIT first second else vectorExtent LIT first
  return { loopIterator, arrayRows, arrayCols, extent, pointerAccessPattern }

/-- What `setPointerInfo` sets. -/
theorem setPointerInfo_eq_some {LIT : LoopInfoTable} {outside : OutOfRange} {block : Reg}
    {arrayRows arrayCols : ℤ}
    {first second : IndexInfo} {pis : PointerInfoStruct}
    (h : setPointerInfo LIT outside block arrayRows arrayCols first second = some pis) :
    LIT.getLoopIteratorFromLoopBody block = some pis.loopIterator ∧
      (if arrayRows > 1 then matrixExtent LIT first second else vectorExtent LIT first) =
        some pis.extent ∧
          ∃ (rows : List (List ℤ)) (ap : AccessPattern),
            (if arrayRows > 1 then [first, second] else [first]).mapM
              (fun info => increments LIT (LIT.getIterationVector pis.loopIterator) info.iterators) = some rows ∧
            (AccessPattern.ofIncrements (if arrayRows > 1 then [first, second] else [first]).length
              (LIT.getIterationVector pis.loopIterator).length rows.flatten).detectAccessPatternType outside = some ap ∧
            ap.detectZeroCols = some pis.pointerAccessPattern := by
  obtain ⟨it, hit, h⟩ := Option.bind_eq_some_iff.mp h
  obtain ⟨rows, hrows, h⟩ := Option.bind_eq_some_iff.mp h
  obtain ⟨ap, hap, h⟩ := Option.bind_eq_some_iff.mp h
  obtain ⟨ap', hap', h⟩ := Option.bind_eq_some_iff.mp h
  by_cases hmatrix : arrayRows > 1
  · dsimp only at h
    rw [if_pos hmatrix] at h
    obtain ⟨extent, hextent, h⟩ := Option.bind_eq_some_iff.mp h
    obtain rfl := Option.some.inj h
    exact ⟨hit, (if_pos hmatrix).trans hextent, rows, ap, hrows, hap, hap'⟩
  · dsimp only at h
    rw [if_neg hmatrix] at h
    obtain ⟨extent, hextent, h⟩ := Option.bind_eq_some_iff.mp h
    obtain rfl := Option.some.inj h
    exact ⟨hit, (if_neg hmatrix).trans hextent, rows, ap, hrows, hap, hap'⟩

end CollectInfo

end Octantis
