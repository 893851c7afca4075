import Octantis.Binding.LiMBinder

/-!
# The binding of an accumulation

`performAccBinding`: the rows of an accumulation set are reduced to one, pair by
pair and level by level. With the optimisation target `Accumulation` the set is
first rewritten with the results of earlier accumulations (`reuseLevels`), which
spreads its rows over lists by level; the levels are then bound in order.

## The model

The loops over indices and live iterators are folds and recursions over lists;
what each iteration reads and erases is kept. `currList.remove(*it2)` removes
every row equal to `*it2`, `*it1` included, and the index then moves on in the
shortened list. `ceil(log2(n))` is exact; it is not defined for an empty set.
`std::next` of the end iterator of an empty list is never dereferenced and is
ignored; `front()` of an empty list is `none`.

The switched-off mux branches of the source, which are comments, are not part of
the code.
-/

namespace Octantis

open Std

namespace LiMBinder

/-- Whether an entry of `addMap` adds the two rows. -/
def adds (srcRow1 srcRow2 : Name) (operands : List Name) : Bool :=
  (operands.head? = some srcRow1 || operands.getLast? = some srcRow1) &&
    (operands.head? = some srcRow2 || operands.getLast? = some srcRow2)

/-- The first result row that already adds the two rows. -/
def searchForResult (addMap : ExtTreeMap Name (List Name)) (srcRow1 srcRow2 : Name) : Option Name :=
  (addMap.toList.find? fun entry => adds srcRow1 srcRow2 entry.2).map (·.1)

/-! ### The reuse search -/

/-- The lists of one level of the search. -/
structure Search where
  /-- The rows still in the list. -/
  currList : List Name
  /-- The results found, for the next level. -/
  nextList : List Name
  /-- The rows found in no pair. -/
  remainList : List Name
  /-- A pair was found. -/
  isReduceable : Bool

/-- The first row of the list that makes an available result with `row`, and that result. -/
def findPartner (addMap : ExtTreeMap Name (List Name)) (row : Name) : List Name → Option (Name × Name)
  | [] => none
  | other :: rest =>
    match searchForResult addMap row other with
    | some result => some (other, result)
    | none => findPartner addMap row rest

/-- The iteration of index `k`. -/
def searchIndex (addMap : ExtTreeMap Name (List Name)) (s : Search) (k : ℕ) : Search :=
  match s.currList.drop k with
  | [] => s
  | row :: rest =>
    match findPartner addMap row rest with
    | some (other, result) =>
      { s with
        currList := s.currList.filter (· ≠ other)
        nextList := s.nextList ++ [result]
        isReduceable := true }
    | none => { s with remainList := s.remainList ++ [row] }

/-- One level of the search: the indices up to the size of the list, which shrinks as pairs are
found. -/
def searchLevel (addMap : ExtTreeMap Name (List Name)) (currList : List Name) : Search :=
  (List.range currList.length).foldl (searchIndex addMap) ⟨currList, [], [], false⟩

/-- `while (isReduceable && time < timeLimit)`, with `fuel` the time left: the rows that remain at
each level go to `accumulationListTime`; the results found make the next list. The last list is
inserted too, when it comes from a level with a pair. -/
def reuseLevels (addMap : ExtTreeMap Name (List Name)) :
    ℕ → ℕ → List Name → ExtTreeMap ℕ (List Name) → ℕ × ExtTreeMap ℕ (List Name)
  | 0, time, currList, accumulationListTime => (time, accumulationListTime.insertIfNew time currList)
  | fuel + 1, time, currList, accumulationListTime =>
    let level := searchLevel addMap currList
    let accumulationListTime := accumulationListTime.insertIfNew time level.remainList
    if level.isReduceable then reuseLevels addMap fuel (time + 1) level.nextList accumulationListTime
    else (time + 1, accumulationListTime)

/-- Every even index: its row goes to the end of the list. -/
def reorganize (size : ℕ) (l : List Name) : List Name :=
  (List.range size).foldl
    (fun l i => if i % 2 = 0 then
      match l[i]? with
      | some row => l.eraseIdx i ++ [row]
      | none => l
    else l) l

/-- `ceil(log2(arraySize))`. -/
def ceilLog2 (arraySize : ℕ) : ℕ := if arraySize ≤ 1 then 0 else Nat.log2 (arraySize - 1) + 1

/-- The rows to bind at each level. -/
def accumulationLists (b : LiMBinder) (accumulationList : List Name) : ExtTreeMap ℕ (List Name) :=
  let steps := ceilLog2 accumulationList.length
  let timeLimit := if b.optTarget = "Accumulation" then steps else 0
  let (time, lists) := reuseLevels b.addMap timeLimit 0 accumulationList ∅
  let (time, lists) :=
    if time = 0 then (time + 1, lists.insertIfNew 0 accumulationList) else (time, lists)
  let lists := (List.range' time (steps - time)).foldl (fun lists i => lists.insertIfNew i []) lists
  match lists[0]? with
  | some first =>
    if first.length = accumulationList.length then
      lists.insert 0 (reorganize accumulationList.length first)
    else lists
  | none => lists

/-! ### The mapping of the levels -/

/-- Load rows and add rows alternated, a load row first, then what is left of either. -/
def alternate : List Name → List Name → List Name
  | load :: loads, add :: adds => load :: add :: alternate loads adds
  | loads, [] => loads
  | [], adds => adds

/-- `list::merge`: the rows of the second list smaller than the next one of the first come before
it. -/
def mergeRows : List Name → List Name → List Name
  | [], l₂ => l₂
  | row :: l₁, l₂ => l₂.takeWhile (· < row) ++ row :: mergeRows l₁ (l₂.dropWhile (· < row))

/-- Whether each row is of type add. -/
def addTypes (b : LiMBinder) : List Name → Option (List (Name × Bool))
  | [] => some []
  | row :: rows => do
    let isAdd ← b.MemArray.isLiMRowOfThisType row .add
    return (row, isAdd) :: (← b.addTypes rows)

/-- The rows of a level in the order in which they are paired. -/
def orderRows (b : LiMBinder) (rows : List Name) : Option (List Name) := do
  let typed ← b.addTypes rows
  return alternate ((typed.filter fun row => !row.2).map (·.1)) ((typed.filter (·.2)).map (·.1))

/-- The logic of one pair: the type of the second row or of the first is changed, or a copy row is
generated. -/
def connectPair (b : LiMBinder) (operation : Operation) (specifications : List String)
    (row1 row2 : Name) : Option (LiMBinder × Feed) := do
  let (array, changed) ← b.MemArray.changeLiMRowType row2 operation specifications
  if changed then
    let array ← array.addNewInputConnection row2 row1 .OC
    return ({ b with MemArray := array }, ⟨row2, false, none⟩)
  else
    let (array, changed) ← b.MemArray.changeLiMRowType row1 operation specifications
    if changed then
      let array ← array.addNewInputConnection row1 row2 .OC
      return ({ b with MemArray := array }, ⟨row1, false, none⟩)
    else
      b.copyRow operation specifications row1 row2

/-- The mapping of one pair, and the name of its result row. Only a result with no copy row goes to
`addMap`. -/
def bindPair (b : LiMBinder) (operation : Operation) (specifications : List String)
    (row1 row2 : Name) : Option (LiMBinder × Name) := do
  let (b, feed) ← b.connectPair operation specifications row1 row2
  let (tmpName, b) := b.getNewName
  let fsm ← b.insertDest row1 row2 tmpName feed
  return ({ b with
    MemArray := b.MemArray.addNewResultRow tmpName b.par feed.effInForDestReg .OLiM
    FSMLim := fsm
    addMap := if feed.tCopy.isNone then b.addMap.insertIfNew tmpName [row1, row2] else b.addMap },
    tmpName)

/-- The pairs of a level: each is replaced by its result row; a last single row is kept. -/
def bindPairs (b : LiMBinder) (operation : Operation) (specifications : List String) :
    List Name → Option (LiMBinder × List Name)
  | row1 :: row2 :: rows => do
    let (b, tmpName) ← b.bindPair operation specifications row1 row2
    let (b, results) ← b.bindPairs operation specifications rows
    return (b, tmpName :: results)
  | rows => some (b, rows)

/-- The levels from `i` on, `fuel` of them; the register gets the front of the last list. -/
def bindLevels (operation : Operation) (specifications : List String) (destReg : Reg)
    (lists : ExtTreeMap ℕ (List Name)) :
    ℕ → ℕ → LiMBinder → List Name → Option LiMBinder
  | 0, _, b, currTimeAccList => do
    let row ← currTimeAccList.head?
    return b.addNewItem destReg row
  | fuel + 1, i, b, currTimeAccList => do
    let level ← lists[i]?
    let rows ← b.orderRows (mergeRows currTimeAccList level)
    let (b, results) ← b.bindPairs operation specifications rows
    bindLevels operation specifications destReg lists fuel (i + 1) b results

/-- **The binding of an accumulation set** to one row of `destReg`. -/
def performAccBinding (b : LiMBinder) (accumulationList : List Name) (operation : Operation)
    (specifications : List String) (destReg : Reg) : Option LiMBinder :=
  if accumulationList = [] then none
  else
    bindLevels operation specifications destReg (b.accumulationLists accumulationList)
      (ceilLog2 accumulationList.length) 0 b []

end LiMBinder

end Octantis
