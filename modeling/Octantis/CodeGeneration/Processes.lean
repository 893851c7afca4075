import Octantis.Binding.Shape
import Octantis.Binding.Times
import Octantis.CodeGeneration.PrintProcesses

/-!
# The processes are well formed

The printer derives the indices of the signals `T1`, `T2`, … in five loops, some from the times and
some from their number, and prints the first `if` of the writes at time 1 only.

## The model

`Processes.WellFormed` says what the processes of `n` times should be: their signals are the
declared `T1`, …, `T(2n-2)`, `DONE` follows the last of them, and their conditionals are well
nested.

## What is proved

* `processes_wellFormed_iff`: the processes printed for a state reached are well formed
  exactly when there are at least two times and none below their number is left out.
* `processes_wellFormed_iff_of_noShift`: without shifts, exactly when there are at least two times.

## Honest scope

With one time, when the program only loads, the writes print an `end if` without an `if`,
and `T1` is assigned but not declared (`onlyLoads_malformed`). A shift may leave times out.
-/

namespace Octantis

open Std Lib Lib.Line PrintVhdlFile

namespace PrintVhdlFile

/-! ### The signals used -/

/-- The indices of the signals `Ti` in a condition. -/
def Condition.timers : Condition → List ℤ
  | .control (.T i) => [i]
  | .control .GO | .RST | .EN | .readEdge | .writeEdge | .edge => []

/-- The indices of the signals `Ti` that a statement assigns or reads. -/
def Statement.timers : Statement → List ℤ
  | .tReset i | .tShift i .GO | .doneShift i => [i]
  | .tShift i (.T j) => [i, j]
  | .dataOut | .memReset | .dataIn | .write _ _ | .memRdReset _ | .read _ _ | .doneReset | .select _ _ => []

/-- The statement assigns `DONE`. -/
def Statement.assignsDone : Statement → Bool
  | .doneReset | .doneShift _ => true
  | .dataOut | .memReset | .dataIn | .write _ _ | .memRdReset _ | .read _ _ | .tReset _ | .tShift _ _
  | .select _ _ => false

/-- The indices of the signals `Ti` in some lines. -/
def timersOf (lines : List ProcessLine) : List ℤ :=
  lines.flatMap fun line =>
    ((line.condition.map Condition.timers).getD []) ++ ((line.statement?.map Statement.timers).getD [])

/-- The assignments of `DONE` in some lines. -/
def doneOf (lines : List ProcessLine) : List Statement := (lines.filterMap statement?).filter (·.assignsDone)

namespace Processes

/-- All five processes. -/
def all (P : Processes) : List (List ProcessLine) := [P.rdProc, P.wrtProc, P.goRdProc, P.tProc, P.muxProc]

/-- The processes of `n` times as they should be. -/
structure WellFormed (P : Processes) (n : ℕ) : Prop where
  declared : ∀ i, i ∈ P.timers ↔ 1 ≤ i ∧ i ≤ 2 * (n : ℤ) - 2
  used : ∀ lines ∈ P.all, ∀ i ∈ timersOf lines, i ∈ P.timers
  /-- `DONE` is assigned from the last state, besides its reset. -/
  done : P.all.flatMap doneOf = [.doneReset, .doneShift (2 * (n : ℤ) - 2)]
  nested : ∀ lines ∈ P.all, WellNested lines
  closed : ∀ lines ∈ P.all, lines.countP isIf = lines.countP isEndIf

end Processes

section simp_lemmas

variable (c : Condition) (s : Statement) (ls ls' : List ProcessLine)

@[simp] theorem timersOf_nil : timersOf [] = [] := rfl

@[simp] theorem timersOf_ifThen : timersOf (.ifThen c :: ls) = c.timers ++ timersOf ls := by
  simp [timersOf, condition, statement?]

@[simp] theorem timersOf_elsif : timersOf (.elsif c :: ls) = c.timers ++ timersOf ls := by
  simp [timersOf, condition, statement?]

@[simp] theorem timersOf_otherwise : timersOf (.otherwise :: ls) = timersOf ls := rfl

@[simp] theorem timersOf_endIf : timersOf (.endIf :: ls) = timersOf ls := rfl

@[simp] theorem timersOf_statement : timersOf (.statement s :: ls) = s.timers ++ timersOf ls := by
  simp [timersOf, condition, statement?]

@[simp] theorem timersOf_append : timersOf (ls ++ ls') = timersOf ls ++ timersOf ls' := List.flatMap_append

@[simp] theorem timersOf_statements (ss : List Statement) :
    timersOf (ss.map statement) = ss.flatMap Statement.timers := by
  induction ss with
  | nil => rfl
  | cons s ss ih => rw [List.map_cons, timersOf_statement, ih, List.flatMap_cons]

@[simp] theorem timersOf_map {α : Type} (f : α → Statement) (xs : List α) :
    timersOf (xs.map fun x => statement (f x)) = xs.flatMap fun x => (f x).timers := by
  rw [← List.flatMap_map f, ← timersOf_statements, List.map_map]
  rfl

@[simp] theorem doneOf_nil : doneOf [] = [] := rfl

@[simp] theorem doneOf_ifThen : doneOf (.ifThen c :: ls) = doneOf ls := rfl

@[simp] theorem doneOf_elsif : doneOf (.elsif c :: ls) = doneOf ls := rfl

@[simp] theorem doneOf_otherwise : doneOf (.otherwise :: ls) = doneOf ls := rfl

@[simp] theorem doneOf_endIf : doneOf (.endIf :: ls) = doneOf ls := rfl

@[simp] theorem doneOf_statement :
    doneOf (.statement s :: ls) = if s.assignsDone then s :: doneOf ls else doneOf ls := List.filter_cons

@[simp] theorem doneOf_append : doneOf (ls ++ ls') = doneOf ls ++ doneOf ls' := by simp [doneOf]

@[simp] theorem doneOf_statements (ss : List Statement) :
    doneOf (ss.map statement) = ss.filter (·.assignsDone) := by
  induction ss with
  | nil => rfl
  | cons s ss ih => rw [List.map_cons, doneOf_statement, ih, List.filter_cons]

@[simp] theorem doneOf_map {α : Type} (f : α → Statement) (xs : List α) :
    doneOf (xs.map fun x => statement (f x)) = (xs.map f).filter (·.assignsDone) := by
  rw [← doneOf_statements, List.map_map]
  rfl

end simp_lemmas

theorem mem_timers {n : ℕ} {i : ℤ} : i ∈ timers n ↔ 1 ≤ i ∧ i ≤ 2 * (n : ℤ) - 2 := by
  simp only [timers, List.mem_map, List.mem_range'_1]
  constructor
  · rintro ⟨j, hj, rfl⟩
    omega
  · intro hi
    exact ⟨i.toNat, by omega, by omega⟩

/-! ### The writes -/

variable {A : LiMArray} {par : ℤ} {F : FiniteStateMachine}

/-- The value written to a row. -/
theorem writeValue_cases {seen seen' : List Name} {n : Name} {value : RowValue}
    (h : writeValue A par seen n = some (value, seen')) :
    ∃ row, A.findRow n = some row ∧
      (row.rowType = .sdiv ∧ n ∈ seen ∧ seen' = seen ∧ value = .shifted n par ∨
        row.rowType = .sdiv ∧ n ∉ seen ∧ seen' = seen ++ [n] ∧
          (∃ m, row.inputConnections.head? = some m ∧ value = .out m) ∨
        row.rowType ≠ .sdiv ∧ seen' = seen ∧ ∃ c m, row.inputConnectionsType.head? = some c ∧
          row.inputConnections.head? = some m ∧
          value = if c = .OLiM ∨ c = .none then .out m else .memRd m) := by
  obtain ⟨row, hrow, h⟩ := Option.bind_eq_some_iff.mp h
  obtain ⟨isDiv, hdiv, h⟩ := Option.bind_eq_some_iff.mp h
  rw [LiMArray.isLiMRowOfThisType, hrow, Option.bind_eq_bind, Option.bind_some] at hdiv
  obtain rfl : (row.rowType == .sdiv) = isDiv := Option.some.inj hdiv
  refine ⟨row, hrow, ?_⟩
  split at h
  · next hdiv =>
    have hdiv : row.rowType = .sdiv := by simpa using hdiv
    split at h
    · next hseen =>
      cases h
      exact .inl ⟨hdiv, hseen, rfl, rfl⟩
    · next hseen =>
      obtain ⟨m, hm, h⟩ := Option.bind_eq_some_iff.mp h
      cases h
      exact .inr (.inl ⟨hdiv, hseen, rfl, m, hm, rfl⟩)
  · next hdiv =>
    obtain ⟨c, hc, h⟩ := Option.bind_eq_some_iff.mp h
    obtain ⟨m, hm, h⟩ := Option.bind_eq_some_iff.mp h
    cases h
    exact .inr (.inr ⟨by simpa using hdiv, rfl, c, m, hc, hm, rfl⟩)

/-- Only the row written becomes one that was written. -/
theorem not_mem_of_writeValue {seen seen' : List Name} {n d : Name} {value : RowValue}
    (h : writeValue A par seen n = some (value, seen')) (hd : d ∉ seen) (hne : d ≠ n) : d ∉ seen' := by
  obtain ⟨row, -, ⟨-, -, rfl, -⟩ | ⟨-, -, rfl, -⟩ | ⟨-, rfl, -⟩⟩ := writeValue_cases h
  · exact hd
  · simp [hd, hne]
  · exact hd

/-- Every statement writes a row of the list. -/
theorem exists_of_mem_writeRows {seen seen' : List Name} {rows : List Name} {statements : List Statement}
    (h : writeRows A par seen rows = some (statements, seen')) :
    ∀ s ∈ statements, ∃ n ∈ rows, ∃ seen₁ value seen₂, writeValue A par seen₁ n = some (value, seen₂) ∧
      s = .write (memIndex n) value := by
  induction rows generalizing seen statements with
  | nil =>
    cases h
    simp
  | cons n rows ih =>
    obtain ⟨⟨value, seen₁⟩, hvalue, h⟩ := Option.bind_eq_some_iff.mp h
    obtain ⟨⟨rest, seen₂⟩, hrest, h⟩ := Option.bind_eq_some_iff.mp h
    cases h
    rintro s (_ | ⟨_, hs⟩)
    · exact ⟨n, List.mem_cons_self, _, _, _, hvalue, rfl⟩
    · obtain ⟨m, hm, hs⟩ := ih hrest s hs
      exact ⟨m, List.mem_cons_of_mem _ hm, hs⟩

theorem writeRows_writes {seen seen' : List Name} {rows : List Name} {statements : List Statement}
    (h : writeRows A par seen rows = some (statements, seen')) :
    ∀ s ∈ statements, ∃ word value, s = .write word value := by
  intro s hs
  obtain ⟨n, -, -, value, -, -, rfl⟩ := exists_of_mem_writeRows h s hs
  exact ⟨_, _, rfl⟩

/-- A row of the list is written, and not as one written before. -/
theorem exists_write_of_writeRows {seen seen' : List Name} {rows : List Name} {statements : List Statement}
    {d : Name} (h : writeRows A par seen rows = some (statements, seen')) (hd : d ∉ seen) :
    (d ∈ rows → ∃ seen₁ value seen₂, d ∉ seen₁ ∧ writeValue A par seen₁ d = some (value, seen₂) ∧
      .write (memIndex d) value ∈ statements) ∧ (d ∉ rows → d ∉ seen') := by
  induction rows generalizing seen statements with
  | nil =>
    cases h
    exact ⟨fun hin => absurd hin (List.not_mem_nil), fun _ => hd⟩
  | cons n rows ih =>
    obtain ⟨⟨value, seen₁⟩, hvalue, h⟩ := Option.bind_eq_some_iff.mp h
    obtain ⟨⟨rest, seen₂⟩, hrest, h⟩ := Option.bind_eq_some_iff.mp h
    cases h
    by_cases hdn : d = n
    · subst hdn
      exact ⟨fun _ => ⟨seen, value, seen₁, hd, hvalue, List.mem_cons_self⟩,
        fun hnot => absurd List.mem_cons_self hnot⟩
    · obtain ⟨hin, hout⟩ := ih hrest (not_mem_of_writeValue hvalue hd hdn)
      refine ⟨fun hmem => ?_, fun hnot => hout fun hmem => hnot (List.mem_cons_of_mem _ hmem)⟩
      obtain ⟨s₁, v, s₂, hs₁, hv, hw⟩ := hin ((List.mem_cons.mp hmem).resolve_left hdn)
      exact ⟨s₁, v, s₂, hs₁, hv, List.mem_cons_of_mem _ hw⟩

/-- The writes of one time, and of the times after it. -/
theorem writeTimes_cons {seen rows : List Name} {t : ℤ} {times : List (ℤ × List Name)}
    {lines : List ProcessLine} (ht : t ≠ 0) (h : writeTimes A par seen ((t, rows) :: times) = some lines) :
    ∃ (seen' : List Name) (statements : List Statement) (rest : List ProcessLine),
      writeRows A par seen rows = some (statements, seen') ∧
      writeTimes A par seen' times = some rest ∧
      lines = writeHeader t rows ++ statements.map .statement ++ rest := by
  rw [writeTimes, if_neg ht] at h
  obtain ⟨⟨statements, seen'⟩, hrows, h⟩ := Option.bind_eq_some_iff.mp h
  obtain ⟨rest, hrest, h⟩ := Option.bind_eq_some_iff.mp h
  cases h
  exact ⟨seen', statements, rest, hrows, hrest, rfl⟩

/-- The states in which rows are written. -/
theorem timersOf_writeTimes {seen : List Name} {times : List (ℤ × List Name)} {lines : List ProcessLine}
    (h : writeTimes A par seen times = some lines) :
    timersOf lines = (times.filter fun entry => entry.1 ≠ 0 ∧ entry.2 ≠ []).map fun entry =>
      entry.1 * 2 - 1 := by
  induction times generalizing seen lines with
  | nil =>
    cases h
    rfl
  | cons entry times ih =>
    obtain ⟨t, rows⟩ := entry
    by_cases ht : t = 0
    · rw [writeTimes, if_pos ht] at h
      rw [List.filter_cons_of_neg (by simp [ht]), ih h]
    · obtain ⟨seen', statements, rest, hstatements, hrest, rfl⟩ := writeTimes_cons ht h
      have hnone : statements.flatMap Statement.timers = [] := by
        rw [List.flatMap_eq_nil_iff]
        intro s hs
        obtain ⟨word, value, rfl⟩ := writeRows_writes hstatements s hs
        rfl
      rw [timersOf_append, timersOf_append, timersOf_statements, hnone, ih hrest, List.append_nil]
      cases rows with
      | nil => rw [List.filter_cons_of_neg (by simp)]; rfl
      | cons n rows =>
        rw [List.filter_cons_of_pos (by simp [ht]), List.map_cons, writeHeader]
        split
        · contradiction
        split <;> rfl

theorem doneOf_writeTimes {seen : List Name} {times : List (ℤ × List Name)} {lines : List ProcessLine}
    (h : writeTimes A par seen times = some lines) : doneOf lines = [] := by
  induction times generalizing seen lines with
  | nil =>
    cases h
    rfl
  | cons entry times ih =>
    obtain ⟨t, rows⟩ := entry
    by_cases ht : t = 0
    · rw [writeTimes, if_pos ht] at h
      exact ih h
    · obtain ⟨seen', statements, rest, hstatements, hrest, rfl⟩ := writeTimes_cons ht h
      have hnone : statements.filter (·.assignsDone) = [] := by
        rw [List.filter_eq_nil_iff]
        intro s hs
        obtain ⟨word, value, rfl⟩ := writeRows_writes hstatements s hs
        exact Bool.false_ne_true
      rw [doneOf_append, doneOf_append, doneOf_statements, hnone, ih hrest, writeHeader]
      split
      · rfl
      split <;> rfl

/-- Every statement writes a row of some time. -/
theorem exists_of_mem_writeTimes {seen : List Name} {times : List (ℤ × List Name)} {lines : List ProcessLine}
    (h : writeTimes A par seen times = some lines) {s : Statement} (hs : .statement s ∈ lines) :
    ∃ entry ∈ times, entry.1 ≠ 0 ∧ ∃ n ∈ entry.2, ∃ seen₁ value seen₂,
      writeValue A par seen₁ n = some (value, seen₂) ∧ s = .write (memIndex n) value := by
  induction times generalizing seen lines with
  | nil =>
    cases h
    cases hs
  | cons entry times ih =>
    obtain ⟨t, rows⟩ := entry
    by_cases ht : t = 0
    · rw [writeTimes, if_pos ht] at h
      obtain ⟨entry, hentry, hrest⟩ := ih h hs
      exact ⟨entry, List.mem_cons_of_mem _ hentry, hrest⟩
    · obtain ⟨seen', statements, rest, hstatements, hrest, rfl⟩ := writeTimes_cons ht h
      rcases List.mem_append.mp hs with hs | hs
      · rcases List.mem_append.mp hs with hs | hs
        · rw [writeHeader] at hs
          split at hs
          · cases hs
          split at hs <;> simp at hs
        · obtain ⟨s', hs', heq⟩ := List.mem_map.mp hs
          cases heq
          exact ⟨_, List.mem_cons_self, ht, exists_of_mem_writeRows hstatements s hs'⟩
      · obtain ⟨entry, hentry, hrest⟩ := ih hrest hs
        exact ⟨entry, List.mem_cons_of_mem _ hentry, hrest⟩

/-- A row of some time but 0 is written, and at least once not as one written before. -/
theorem exists_write_of_writeTimes {seen : List Name} {times : List (ℤ × List Name)}
    {lines : List ProcessLine}
    (h : writeTimes A par seen times = some lines) {d : Name} (hd : d ∉ seen) {entry : ℤ × List Name}
    (hentry : entry ∈ times) (ht : entry.1 ≠ 0) (hin : d ∈ entry.2) :
    ∃ seen₁ value seen₂, d ∉ seen₁ ∧ writeValue A par seen₁ d = some (value, seen₂) ∧
      .statement (.write (memIndex d) value) ∈ lines := by
  induction times generalizing seen lines with
  | nil => cases hentry
  | cons first times ih =>
    obtain ⟨t, rows⟩ := first
    by_cases ht' : t = 0
    · rw [writeTimes, if_pos ht'] at h
      refine ih h hd ((List.mem_cons.mp hentry).resolve_left ?_)
      rintro rfl
      exact ht ht'
    · obtain ⟨seen', statements, rest, hstatements, hrest, rfl⟩ := writeTimes_cons ht' h
      obtain ⟨hwritten, hnot⟩ := exists_write_of_writeRows hstatements hd
      by_cases hrows : d ∈ rows
      · obtain ⟨s₁, v, s₂, hs₁, hv, hw⟩ := hwritten hrows
        exact ⟨s₁, v, s₂, hs₁, hv, by simp [hw]⟩
      · have hentry := (List.mem_cons.mp hentry).resolve_left (by rintro rfl; exact hrows hin)
        obtain ⟨s₁, v, s₂, hs₁, hv, hw⟩ := ih hrest (hnot hrows) hentry
        exact ⟨s₁, v, s₂, hs₁, hv, List.mem_append_right _ hw⟩

/-- After time 1 the writes are `elsif` branches. -/
theorem writeTimes_branches {seen : List Name} {times : List (ℤ × List Name)} {lines : List ProcessLine}
    (htimes : ∀ entry ∈ times, 1 < entry.1 ∧ entry.2 ≠ []) (h : writeTimes A par seen times = some lines) :
    ∃ bs, lines = branches bs := by
  induction times generalizing seen lines with
  | nil =>
    cases h
    exact ⟨[], rfl⟩
  | cons entry times ih =>
    obtain ⟨t, rows⟩ := entry
    obtain ⟨ht, hrows⟩ := htimes _ List.mem_cons_self
    obtain ⟨seen', statements, rest, -, hrest, rfl⟩ := writeTimes_cons (by simp at ht; omega) h
    obtain ⟨bs, rfl⟩ := ih (fun entry hentry => htimes entry (List.mem_cons_of_mem _ hentry)) hrest
    refine ⟨(.control (.T (t * 2 - 1)), statements) :: bs, ?_⟩
    simp only at ht hrows
    rw [writeHeader, if_neg (by simpa using hrows), if_neg (by omega)]
    simp [branches]

/-! ### The other processes -/

theorem timersOf_readTime (t : ℤ) (rows : List Name) :
    timersOf (readTime t rows) = if t ≠ 0 ∧ rows ≠ [] then [t * 2] else [] := by
  rw [readTime, timersOf_append, timersOf_map]
  cases rows with
  | nil => simp
  | cons n rows => by_cases ht : t = 0 <;> simp [ht, Condition.timers, Statement.timers]

theorem mem_timersOf_goRdProc {i : ℤ} : i ∈ timersOf (goRdProc A F) ↔
    ∃ t rows, (t, rows) ∈ F.FSM.toList ∧ t ≠ 0 ∧ rows ≠ [] ∧ i = t * 2 := by
  have hfsm : i ∈ timersOf (F.FSM.toList.flatMap fun entry => readTime entry.1 entry.2) ↔
      ∃ t rows, (t, rows) ∈ F.FSM.toList ∧ t ≠ 0 ∧ rows ≠ [] ∧ i = t * 2 := by
    rw [timersOf, List.flatMap_assoc, List.mem_flatMap]
    constructor
    · rintro ⟨⟨t, rows⟩, hentry, hi⟩
      change i ∈ timersOf (readTime t rows) at hi
      rw [timersOf_readTime] at hi
      split at hi
      · next h => exact ⟨t, rows, hentry, h.1, h.2, by simpa using hi⟩
      · simp at hi
    · rintro ⟨t, rows, hentry, ht, hrows, rfl⟩
      refine ⟨(t, rows), hentry, ?_⟩
      change t * 2 ∈ timersOf (readTime t rows)
      rw [timersOf_readTime, if_pos ⟨ht, hrows⟩]
      exact List.mem_singleton_self _
  rw [goRdProc, List.cons_append, List.cons_append, timersOf_ifThen, timersOf_append, timersOf_append,
    timersOf_map]
  simp only [List.mem_append, hfsm]
  simp [Condition.timers, Statement.timers]

theorem readTime_eq_branches {t : ℤ} {rows : List Name} (h : rows ≠ []) : readTime t rows =
    branches [(.control (if t = 0 then .GO else .T (t * 2)), rows.map fun n => .read n (memIndex n))] := by
  simp [readTime, branches, h]

/-- Statements that leave `DONE` alone. -/
theorem filter_assignsDone {α : Type} {f : α → Statement} (h : ∀ x, (f x).assignsDone = false) (xs : List α) :
    (xs.map f).filter (·.assignsDone) = [] := by
  rw [List.filter_eq_nil_iff]
  intro s hs
  obtain ⟨x, -, rfl⟩ := List.mem_map.mp hs
  simp [h x]

theorem doneOf_goRdProc : doneOf (goRdProc A F) = [] := by
  have hfsm : doneOf (F.FSM.toList.flatMap fun entry => readTime entry.1 entry.2) = [] := by
    induction F.FSM.toList with
    | nil => rfl
    | cons entry entries ih =>
      rw [List.flatMap_cons, doneOf_append, ih, readTime, doneOf_append, doneOf_map,
        filter_assignsDone fun _ => rfl]
      split <;> rfl
  rw [goRdProc, List.cons_append, List.cons_append, doneOf_ifThen, doneOf_append, doneOf_append, doneOf_map,
    hfsm, filter_assignsDone fun _ => rfl]
  rfl

theorem nested_goRdProc (h : ∀ entry ∈ F.FSM.toList, entry.2 ≠ []) : WellNested (goRdProc A F) := by
  have hfsm : ∃ bs, F.FSM.toList.flatMap (fun entry => readTime entry.1 entry.2) = branches bs := by
    revert h
    induction F.FSM.toList with
    | nil => exact fun _ => ⟨[], rfl⟩
    | cons entry entries ih =>
      intro h
      obtain ⟨bs, hbs⟩ := ih fun e he => h e (List.mem_cons_of_mem _ he)
      rw [List.flatMap_cons, hbs, readTime_eq_branches (h entry List.mem_cons_self), ← branches_append]
      exact ⟨_, rfl⟩
  obtain ⟨bs, hbs⟩ := hfsm
  rw [WellNested, goRdProc, hbs, List.cons_append, List.cons_append, run_cons, nest, Option.bind_some,
    List.append_assoc, run_nest_map, run_nest_append (run_nest_branches _ _)]
  rfl

theorem mem_timersOf_tProc {n : ℕ} (hn : 2 ≤ n) {i : ℤ} (hi : i ∈ timersOf (tProc n)) : i ∈ timers n := by
  simp only [tProc, List.cons_append, List.nil_append, List.append_assoc, timersOf_append, timersOf_map,
    timersOf_ifThen, timersOf_statement, timersOf_otherwise, timersOf_endIf, timersOf_nil, Condition.timers,
    Statement.timers, List.append_nil, List.mem_append, List.mem_flatMap, List.mem_singleton] at hi
  rcases hi with ⟨j, hj, rfl⟩ | ⟨j, hj, hi⟩
  · exact hj
  · rw [List.mem_range'_1] at hj
    rw [mem_timers]
    rw [shiftTimer] at hi
    split_ifs at hi with h1 h2
    · have hi : i = j := by simpa using hi
      omega
    · have hi : i = (j : ℤ) - 1 := by simpa using hi
      omega
    · have hi : i = j ∨ i = (j : ℤ) - 1 := by simpa using hi
      omega

/-- `DONE` follows the last state when there is one. -/
theorem doneOf_tProc (n : ℕ) : doneOf (tProc n) =
    .doneReset :: if 2 ≤ n then [.doneShift (2 * (n : ℤ) - 2)] else [] := by
  have hchain : ((List.range' 1 (2 * n - 1)).map (shiftTimer n)).filter (·.assignsDone) =
      if 2 ≤ n then [.doneShift (2 * (n : ℤ) - 2)] else [] := by
    obtain hn | hn := Nat.lt_or_ge n 2
    · rw [if_neg (by omega)]
      obtain rfl | rfl : n = 0 ∨ n = 1 := by omega
      · rfl
      · rfl
    · rw [if_pos hn, show 2 * n - 1 = 2 * n - 2 + 1 by omega, List.range'_1_concat, List.map_append,
        List.filter_append]
      have hfirst : ((List.range' 1 (2 * n - 2)).map (shiftTimer n)).filter (·.assignsDone) = [] := by
        rw [List.filter_eq_nil_iff]
        intro s hs
        obtain ⟨i, hi, rfl⟩ := List.mem_map.mp hs
        rw [List.mem_range'_1] at hi
        rw [shiftTimer]
        split_ifs with h1 h2
        · exact Bool.false_ne_true
        · omega
        · exact Bool.false_ne_true
      have hlast : shiftTimer n (1 + (2 * n - 2)) = .doneShift (2 * (n : ℤ) - 2) := by
        rw [shiftTimer, if_neg (by omega), if_pos (by omega)]
        congr 1
        omega
      rw [hfirst, List.map_singleton, hlast]
      rfl
  simp only [tProc, List.cons_append, List.nil_append, List.append_assoc, doneOf_append, doneOf_map,
    doneOf_ifThen, doneOf_statement, doneOf_otherwise, doneOf_endIf, doneOf_nil, List.append_nil]
  rw [show (List.map (fun i => shiftTimer n i) (List.range' 1 (2 * n - 1))) =
    (List.range' 1 (2 * n - 1)).map (shiftTimer n) from rfl, hchain, filter_assignsDone fun _ => rfl]
  rfl

theorem nested_tProc (n : ℕ) : WellNested (tProc n) := by
  simp only [tProc, List.cons_append, List.nil_append, List.append_assoc]
  rw [WellNested, run_cons, nest, Option.bind_some, run_nest_map]
  simp only [run_cons, nest, Option.bind_some, run_nest_map]
  rfl

/-- The selects driven in a state are a branch. -/
theorem selectTime_eq_branches (signals : List SelectionSignal) (i : ℕ) : selectTime signals i =
    branches [(.control (if i = 0 then .GO else .T (i * 2)),
      signals.filterMap fun signal => (muxEvent signal i).map (.select signal.destRow))] := by
  rw [selectTime, branches, List.flatMap_cons, List.flatMap_nil, List.append_nil, List.map_filterMap]
  congr 2
  funext signal
  rw [Option.map_map]
  rfl

theorem selectTimes_eq_branches (signals : List SelectionSignal) (n : ℕ) :
    (List.range n).flatMap (selectTime signals) = branches ((List.range n).map fun (i : ℕ) =>
      (.control (if i = 0 then .GO else .T (i * 2)),
        signals.filterMap fun signal => (muxEvent signal i).map (.select signal.destRow))) := by
  induction List.range n with
  | nil => rfl
  | cons i is ih =>
    rw [List.flatMap_cons, ih, selectTime_eq_branches, ← branches_append]
    rfl

/-- Selects use no state and leave `DONE` alone. -/
theorem select_of_mem_filterMap {signals : List SelectionSignal} {i : ℕ} {s : Statement}
    (h : s ∈ signals.filterMap fun signal => (muxEvent signal i).map (.select signal.destRow)) :
    ∃ n sel, s = .select n sel := by
  obtain ⟨signal, -, hs⟩ := List.mem_filterMap.mp h
  obtain ⟨sel, -, rfl⟩ := Option.map_eq_some_iff.mp hs
  exact ⟨_, _, rfl⟩

theorem timersOf_selectTime (signals : List SelectionSignal) (i : ℕ) :
    timersOf (selectTime signals i) = if i = 0 then [] else [(i : ℤ) * 2] := by
  have hnone : (signals.filterMap fun signal =>
      (muxEvent signal i).map (.select signal.destRow)).flatMap Statement.timers = [] := by
    rw [List.flatMap_eq_nil_iff]
    intro s hs
    obtain ⟨n, sel, rfl⟩ := select_of_mem_filterMap hs
    rfl
  rw [selectTime_eq_branches, branches, List.flatMap_cons, List.flatMap_nil, List.append_nil, timersOf_elsif,
    timersOf_statements, hnone, List.append_nil]
  split <;> rfl

theorem doneOf_selectTime (signals : List SelectionSignal) (i : ℕ) : doneOf (selectTime signals i) = [] := by
  rw [selectTime_eq_branches, branches, List.flatMap_cons, List.flatMap_nil, List.append_nil, doneOf_elsif,
    doneOf_statements, List.filter_eq_nil_iff]
  intro s hs
  obtain ⟨n, sel, rfl⟩ := select_of_mem_filterMap hs
  exact Bool.false_ne_true

theorem mem_timersOf_muxProc {i : ℤ} (hi : i ∈ timersOf (muxProc F)) : i ∈ timers F.getFSMSize := by
  rw [muxProc, List.cons_append, List.cons_append, timersOf_ifThen, timersOf_append, timersOf_append,
    timersOf_map] at hi
  have hi : i ∈ timersOf ((List.range F.getFSMSize).flatMap (selectTime F.selectionSignalsList)) := by
    simpa [Condition.timers, Statement.timers] using hi
  rw [timersOf, List.flatMap_assoc, List.mem_flatMap] at hi
  obtain ⟨k, hk, hi⟩ := hi
  rw [List.mem_range] at hk
  change i ∈ timersOf (selectTime _ k) at hi
  rw [timersOf_selectTime] at hi
  rw [mem_timers]
  split at hi
  · simp at hi
  · have hi : i = (k : ℤ) * 2 := by simpa using hi
    omega

theorem doneOf_muxProc : doneOf (muxProc F) = [] := by
  have htimes : doneOf ((List.range F.getFSMSize).flatMap (selectTime F.selectionSignalsList)) = [] := by
    induction List.range F.getFSMSize with
    | nil => rfl
    | cons i is ih => rw [List.flatMap_cons, doneOf_append, ih, doneOf_selectTime]; rfl
  rw [muxProc, List.cons_append, List.cons_append, doneOf_ifThen, doneOf_append, doneOf_append, doneOf_map,
    htimes, filter_assignsDone fun _ => rfl]
  rfl

theorem nested_muxProc : WellNested (muxProc F) := by
  rw [WellNested, muxProc, selectTimes_eq_branches, List.cons_append, List.cons_append, run_cons, nest,
    Option.bind_some, List.append_assoc, run_nest_map, run_nest_append (run_nest_branches _ _)]
  rfl

/-! ### The first times -/

/-- A strictly increasing list stays below a bound by as many as it has elements. -/
theorem add_length_lt_of_pairwise {k b : ℤ} {ks : List ℤ} (hs : (k :: ks).Pairwise (· < ·))
    (hb : ∀ x ∈ k :: ks, x < b) : k + ks.length < b := by
  induction ks generalizing k with
  | nil => simpa using hb
  | cons k' ks ih =>
    have hlt : k < k' := List.rel_of_pairwise_cons hs List.mem_cons_self
    have hrest := ih hs.of_cons fun x hx => hb x (List.mem_cons_of_mem _ hx)
    rw [List.length_cons]
    omega

/-- Increasing integers that fill their range start at its first one. -/
theorem head_eq_of_pairwise {k a : ℤ} {ks : List ℤ} (hs : (k :: ks).Pairwise (· < ·))
    (hb : ∀ x ∈ k :: ks, a ≤ x ∧ x < a + (k :: ks).length) :
    k = a ∧ ∀ x ∈ ks, a + 1 ≤ x ∧ x < a + 1 + ks.length := by
  have hlt := add_length_lt_of_pairwise hs fun x hx => (hb x hx).2
  have hle := (hb k List.mem_cons_self).1
  rw [List.length_cons] at hb hlt
  obtain rfl : k = a := by push_cast at hlt; omega
  refine ⟨rfl, fun x hx => ?_⟩
  have hkx : k < x := List.rel_of_pairwise_cons hs hx
  have hx := (hb x (List.mem_cons_of_mem _ hx)).2
  push_cast at hx
  omega

/-- Times that fill their range are 0, 1, and those after. -/
theorem exists_toList (hsize : 2 ≤ F.getFSMSize)
    (htimes : ∀ entry ∈ F.FSM.toList, 0 ≤ entry.1 ∧ entry.1 < F.getFSMSize) :
    ∃ rows₀ rows₁ times, F.FSM.toList = (0, rows₀) :: (1, rows₁) :: times ∧ ∀ entry ∈ times, 1 < entry.1 := by
  have hsorted : (F.FSM.toList.map (·.1)).Pairwise (· < ·) := by
    rw [List.pairwise_map]
    exact F.FSM.ordered_keys_toList.imp fun h => Int.compare_eq_lt.mp h
  have hlen : F.FSM.toList.length = F.getFSMSize := ExtTreeMap.length_toList
  rw [← hlen] at hsize htimes
  revert hsize htimes hsorted
  match F.FSM.toList with
  | [] | [_] => exact fun hsize => absurd hsize (by simp)
  | (t₀, rows₀) :: (t₁, rows₁) :: times =>
    intro _ htimes hsorted
    rw [List.map_cons] at hsorted
    obtain ⟨rfl, hrest₀⟩ := head_eq_of_pairwise (a := 0) hsorted (by simpa using htimes)
    rw [List.map_cons] at hsorted hrest₀
    obtain ⟨rfl, hrest⟩ := head_eq_of_pairwise (a := 1) hsorted.of_cons (by simpa using hrest₀)
    refine ⟨rows₀, rows₁, times, rfl, fun entry hentry => ?_⟩
    have := (hrest entry.1 (List.mem_map_of_mem hentry)).1
    omega

/-- `wrt_proc` is well nested when its first writes are those of time 1. -/
theorem nested_wrtProc {rows₀ rows₁ : List Name} {times : List (ℤ × List Name)} {lines : List ProcessLine}
    (hlist : F.FSM.toList = (0, rows₀) :: (1, rows₁) :: times) (hrows : rows₁ ≠ [])
    (htimes : ∀ entry ∈ times, 1 < entry.1 ∧ entry.2 ≠ []) (h : wrtProc A par F = some lines) :
    WellNested lines := by
  obtain ⟨body, hbody, h⟩ := Option.bind_eq_some_iff.mp h
  cases h
  rw [hlist, writeTimes, if_pos rfl] at hbody
  obtain ⟨seen', statements, rest, -, hrest, rfl⟩ := writeTimes_cons (by decide) hbody
  obtain ⟨bs, rfl⟩ := writeTimes_branches htimes hrest
  rw [writeHeader, if_neg (by simpa using hrows), if_pos rfl, WellNested]
  simp only [List.cons_append, List.nil_append, List.append_assoc, run_cons, nest, Option.bind_some]
  rw [run_nest_append (run_nest_statements _ _), run_nest_append (run_nest_branches _ _)]
  rfl

theorem timersOf_wrtProc {lines : List ProcessLine} (h : wrtProc A par F = some lines) : timersOf lines =
    (F.FSM.toList.filter fun entry => entry.1 ≠ 0 ∧ entry.2 ≠ []).map fun entry => entry.1 * 2 - 1 := by
  obtain ⟨body, hbody, h⟩ := Option.bind_eq_some_iff.mp h
  cases h
  rw [← timersOf_writeTimes hbody]
  simp [Condition.timers, Statement.timers]

theorem doneOf_wrtProc {lines : List ProcessLine} (h : wrtProc A par F = some lines) : doneOf lines = [] := by
  obtain ⟨body, hbody, h⟩ := Option.bind_eq_some_iff.mp h
  cases h
  simp [doneOf_writeTimes hbody, Statement.assignsDone]

/-! ### All the processes -/

variable {P : Processes}

theorem printProcesses_eq_some (h : printProcesses A par F = some P) : ∃ wrt, wrtProc A par F = some wrt ∧
    P = ⟨rdProc, wrt, goRdProc A F, tProc F.getFSMSize, muxProc F, timers F.getFSMSize⟩ := by
  obtain ⟨wrt, hwrt, h⟩ := Option.bind_eq_some_iff.mp h
  exact ⟨wrt, hwrt, (Option.some.inj h).symm⟩

/-- `DONE` follows the last state when there is one. -/
theorem doneOf_all (h : printProcesses A par F = some P) : P.all.flatMap doneOf =
    .doneReset :: if 2 ≤ F.getFSMSize then [.doneShift (2 * (F.getFSMSize : ℤ) - 2)] else [] := by
  obtain ⟨wrt, hwrt, rfl⟩ := printProcesses_eq_some h
  have hrd : doneOf rdProc = [] := rfl
  simp [Processes.all, hrd, doneOf_wrtProc hwrt, doneOf_goRdProc, doneOf_muxProc, doneOf_tProc]

/-- The states that the processes use are declared when the times fill their range. -/
theorem used_of_times (h : printProcesses A par F = some P) (hsize : 2 ≤ F.getFSMSize)
    (htimes : ∀ entry ∈ F.FSM.toList, 0 ≤ entry.1 ∧ entry.1 < F.getFSMSize) :
    ∀ lines ∈ P.all, ∀ i ∈ timersOf lines, i ∈ P.timers := by
  obtain ⟨wrt, hwrt, rfl⟩ := printProcesses_eq_some h
  simp only [Processes.all, List.forall_mem_cons]
  refine ⟨fun i hi => ?_, fun i hi => ?_, fun i hi => ?_, fun i hi => mem_timersOf_tProc hsize hi,
    fun i hi => mem_timersOf_muxProc hi, by simp⟩
  · simp [rdProc, Condition.timers, Statement.timers] at hi
  · rw [timersOf_wrtProc hwrt] at hi
    obtain ⟨⟨t, rows⟩, hentry, rfl⟩ := List.mem_map.mp hi
    obtain ⟨hentry, hne⟩ := List.mem_filter.mp hentry
    have ht := htimes _ hentry
    have hne : t ≠ 0 := (of_decide_eq_true hne).1
    rw [mem_timers]
    simp only at ht ⊢
    omega
  · obtain ⟨t, rows, hentry, hne, -, rfl⟩ := mem_timersOf_goRdProc.mp hi
    have ht := htimes _ hentry
    rw [mem_timers]
    simp only at ht ⊢
    omega

/-- Times whose writes use declared states only are below their number. -/
theorem times_of_used {lines : List ProcessLine} (h : wrtProc A par F = some lines) (hsize : 2 ≤ F.getFSMSize)
    (hrows : ∀ entry ∈ F.FSM.toList, entry.2 ≠ []) (hused : ∀ i ∈ timersOf lines, i ∈ timers F.getFSMSize) :
    ∀ entry ∈ F.FSM.toList, 0 ≤ entry.1 ∧ entry.1 < F.getFSMSize := by
  intro entry hentry
  by_cases ht : entry.1 = 0
  · rw [ht]
    omega
  · have hi : entry.1 * 2 - 1 ∈ timersOf lines := by
      rw [timersOf_wrtProc h]
      refine List.mem_map.mpr ⟨entry, List.mem_filter.mpr ⟨hentry, ?_⟩, rfl⟩
      exact decide_eq_true ⟨ht, hrows entry hentry⟩
    have := mem_timers.mp (hused _ hi)
    omega

/-- The processes printed are well formed exactly when the times are those from 0 to some
later one. -/
theorem wellFormed_printProcesses_iff (h : printProcesses A par F = some P)
    (hrows : ∀ entry ∈ F.FSM.toList, entry.2 ≠ []) : P.WellFormed F.getFSMSize ↔
      2 ≤ F.getFSMSize ∧ ∀ entry ∈ F.FSM.toList, 0 ≤ entry.1 ∧ entry.1 < F.getFSMSize := by
  have hdone := doneOf_all h
  have hused := used_of_times h
  obtain ⟨wrt, hwrt, rfl⟩ := printProcesses_eq_some h
  constructor
  · intro hwell
    have hsize : 2 ≤ F.getFSMSize := by
      by_contra hn
      have hone := hwell.done
      rw [hdone, if_neg hn] at hone
      cases hone
    exact ⟨hsize, times_of_used hwrt hsize hrows fun i hi => hwell.used wrt (by simp [Processes.all]) i hi⟩
  · rintro ⟨hsize, htimes⟩
    obtain ⟨rows₀, rows₁, times, hlist, hlater⟩ := exists_toList hsize htimes
    have hrows₁ : rows₁ ≠ [] := hrows (1, rows₁) (by simp [hlist])
    have hwrtNested := nested_wrtProc hlist hrows₁
      (fun entry he => ⟨hlater entry he, hrows entry (by simp [hlist, he])⟩) hwrt
    have hnested : ∀ lines ∈ Processes.all ⟨rdProc, wrt, goRdProc A F, tProc F.getFSMSize, muxProc F,
        timers F.getFSMSize⟩, WellNested lines := by
      simp only [Processes.all, List.forall_mem_cons]
      exact ⟨rfl, hwrtNested, nested_goRdProc hrows, nested_tProc _, nested_muxProc, by simp⟩
    exact ⟨fun i => mem_timers, hused hsize htimes, by rw [hdone, if_pos hsize], hnested,
      fun lines hlines => (hnested lines hlines).count_eq⟩

/-! ### The printing ends -/

/-- A row that can be written: it is in the array, and has a memory input. -/
def Writable (A : LiMArray) (n : Name) : Prop :=
  ∃ row m c, A.findRow n = some row ∧ row.inputConnections.head? = some m ∧
    row.inputConnectionsType.head? = some c

theorem writeValue_isSome (par : ℤ) {n : Name} (h : Writable A n) (seen : List Name) :
    (writeValue A par seen n).isSome := by
  obtain ⟨row, m, c, hrow, hm, hc⟩ := h
  simp only [writeValue, LiMArray.isLiMRowOfThisType, hrow, hm, hc, Option.bind_eq_bind, Option.bind_some,
    Option.pure_def]
  split
  · split <;> rfl
  · rfl

theorem writeRows_isSome (par : ℤ) {rows : List Name} (h : ∀ n ∈ rows, Writable A n) (seen : List Name) :
    (writeRows A par seen rows).isSome := by
  induction rows generalizing seen with
  | nil => rfl
  | cons n rows ih =>
    obtain ⟨value, hvalue⟩ := Option.isSome_iff_exists.mp
      (writeValue_isSome par (h n List.mem_cons_self) seen)
    obtain ⟨rest, hrest⟩ := Option.isSome_iff_exists.mp
      (ih (fun n hn => h n (List.mem_cons_of_mem _ hn)) value.2)
    simp only [writeRows, hvalue, hrest, Option.bind_eq_bind, Option.bind_some]
    rfl

theorem writeTimes_isSome (par : ℤ) {times : List (ℤ × List Name)}
    (h : ∀ entry ∈ times, ∀ n ∈ entry.2, Writable A n)
    (seen : List Name) : (writeTimes A par seen times).isSome := by
  induction times generalizing seen with
  | nil => rfl
  | cons entry times ih =>
    obtain ⟨t, rows⟩ := entry
    have ih := ih fun entry he => h entry (List.mem_cons_of_mem _ he)
    rw [writeTimes]
    split
    · exact ih seen
    · obtain ⟨statements, hstatements⟩ := Option.isSome_iff_exists.mp
        (writeRows_isSome par (h (t, rows) List.mem_cons_self) seen)
      obtain ⟨lines, hlines⟩ := Option.isSome_iff_exists.mp (ih statements.2)
      simp only [hstatements, hlines, Option.bind_eq_bind, Option.bind_some]
      rfl

theorem printProcesses_isSome (h : ∀ entry ∈ F.FSM.toList, ∀ n ∈ entry.2, Writable A n) :
    (printProcesses A par F).isSome := by
  obtain ⟨lines, hlines⟩ := Option.isSome_iff_exists.mp (writeTimes_isSome par h [])
  simp only [printProcesses, wrtProc, hlines, Option.bind_eq_bind, Option.bind_some]
  rfl

end PrintVhdlFile

namespace FiniteStateMachine

variable {F : FiniteStateMachine}

/-- The lists of `transform` are those of the times, and none is empty. -/
theorem mem_toList_transform (hF : F.FSM = ∅) {t : ℤ} {rows : List Name}
    (h : (t, rows) ∈ F.transform.FSM.toList) : rows ≠ [] ∧ ∃ n, F.getTime n = some t := by
  rw [ExtTreeMap.mem_toList_iff_getElem?_eq_some] at h
  have hne := ne_nil_of_transform hF h
  obtain ⟨n, hn⟩ := List.exists_mem_of_ne_nil rows hne
  exact ⟨hne, n, (mem_transform hF).mp ⟨rows, h, hn⟩⟩

theorem exists_mem_toList_transform (hF : F.FSM = ∅) {t : ℤ} {n : Name} (h : F.getTime n = some t) :
    ∃ rows, (t, rows) ∈ F.transform.FSM.toList ∧ rows ≠ [] := by
  obtain ⟨rows, hrows, hn⟩ := (mem_transform hF).mpr h
  exact ⟨rows, ExtTreeMap.mem_toList_iff_getElem?_eq_some.mpr hrows, List.ne_nil_of_mem hn⟩

theorem forall_mem_toList_transform (hF : F.FSM = ∅) {k : ℤ} :
    (∀ entry ∈ F.transform.FSM.toList, 0 ≤ entry.1 ∧ entry.1 < k) ↔
      ∀ n t, F.getTime n = some t → 0 ≤ t ∧ t < k := by
  constructor
  · intro hall n t ht
    obtain ⟨rows, hentry, -⟩ := exists_mem_toList_transform hF ht
    exact hall _ hentry
  · intro hall entry he
    obtain ⟨-, n, hn⟩ := mem_toList_transform hF he
    exact hall n _ hn

end FiniteStateMachine

/-- **The processes printed are well formed** exactly when there are two times or more, and the
times are all below their number. -/
theorem processes_wellFormed_iff {par : ℤ} {optTarget : String} {actions : List BindingAction} {s : BinderState}
    {P : Processes} (h : Reaches par optTarget actions s)
    (hP : printProcesses s.binder.MemArray par s.binder.FSMLim.transform = some P) :
    P.WellFormed s.binder.FSMLim.transform.getFSMSize ↔
      2 ≤ s.binder.FSMLim.transform.getFSMSize ∧
        ∀ n t, s.binder.FSMLim.getTime n = some t → 0 ≤ t ∧ t < s.binder.FSMLim.transform.getFSMSize := by
  have hF := pending_of_reaches h
  rw [wellFormed_printProcesses_iff hP fun entry he => (FiniteStateMachine.mem_toList_transform hF he).1]
  exact and_congr_right fun _ => FiniteStateMachine.forall_mem_toList_transform hF

/-- The rows of the times of a run without shifts can be written. -/
theorem writable_of_reaches {par : ℤ} {optTarget : String} {actions : List BindingAction} {s : BinderState}
    (hshift : ∀ a ∈ actions, a.noShift) (h : Reaches par optTarget actions s) {n : Name} {t : ℤ}
    (ht : s.binder.FSMLim.getTime n = some t) : Writable s.binder.MemArray n := by
  have hrow := ((regular_of_reaches hshift h).timed n).mpr (Option.isSome_of_eq_some ht)
  obtain ⟨row, hrow⟩ := Option.isSome_iff_exists.mp hrow
  have hshaped := shaped_of_findRow hshift h hrow
  obtain ⟨m, hm, -⟩ := hshaped.head
  obtain ⟨c, hc⟩ : ∃ c, row.inputConnectionsType.head? = some c := by
    cases htypes : row.inputConnectionsType with
    | cons c cs => exact ⟨c, rfl⟩
    | nil =>
      have hlen := hshaped.types
      rw [htypes] at hlen
      rw [List.eq_nil_of_length_eq_zero hlen.symm] at hm
      cases hm
  exact ⟨row, m, c, hrow, hm, hc⟩

/-- **Without shifts** the printing ends, and its processes are well formed exactly when something
is written after the loads. -/
theorem processes_wellFormed_iff_of_noShift {par : ℤ} {optTarget : String} {actions : List BindingAction}
    {s : BinderState} (hshift : ∀ a ∈ actions, a.noShift) (hload : ∀ a ∈ actions, a.scheduled)
    (h : Reaches par optTarget actions s) :
    ∃ P, printProcesses s.binder.MemArray par s.binder.FSMLim.transform = some P ∧
      (P.WellFormed s.binder.FSMLim.transform.getFSMSize ↔ 2 ≤ s.binder.FSMLim.transform.getFSMSize) := by
  have hF := pending_of_reaches h
  have hsome : (printProcesses s.binder.MemArray par s.binder.FSMLim.transform).isSome := by
    refine printProcesses_isSome fun entry he n hn => ?_
    rw [ExtTreeMap.mem_toList_iff_getElem?_eq_some] at he
    exact writable_of_reaches hshift h ((FiniteStateMachine.mem_transform hF).mp ⟨entry.2, he, hn⟩)
  obtain ⟨P, hP⟩ := Option.isSome_iff_exists.mp hsome
  refine ⟨P, hP, (wellFormed_printProcesses_iff hP fun entry he =>
    (FiniteStateMachine.mem_toList_transform hF he).1).trans (and_iff_left ?_)⟩
  refine (FiniteStateMachine.forall_mem_toList_transform hF).mpr fun n t ht => ?_
  have hgap := (timely_of_reaches hshift hload h).gapFree n t ht
  obtain ⟨k, rfl⟩ := Int.eq_ofNat_of_zero_le hgap.1
  have hsize := FiniteStateMachine.le_getFSMSize_transform hF (k := k + 1) fun i hi =>
    hgap.2 i (by omega) (by omega)
  omega

/-- A load only. -/
def onlyLoads : List BindingAction := [.load 1 0]

theorem onlyLoads_isSome : (run bindStep (.init 8 "") onlyLoads).isSome := by decide +kernel

/-- A program that only loads has one time, and its processes are malformed: the writes close an
`if` that was not opened, and the chain assigns `T1`, which is not declared, but not `DONE`. -/
theorem onlyLoads_malformed :
    ∃ s P, Reaches 8 "" onlyLoads s ∧ s.binder.FSMLim.transform.getFSMSize = 1 ∧
      printProcesses s.binder.MemArray 8 s.binder.FSMLim.transform = some P ∧
      ¬ WellNested P.wrtProc ∧ 1 ∈ timersOf P.tProc ∧ P.timers = [] ∧ doneOf P.tProc = [.doneReset] ∧
      ¬ P.WellFormed s.binder.FSMLim.transform.getFSMSize := by
  have hsize : ((run bindStep (.init 8 "") onlyLoads).get onlyLoads_isSome).binder.FSMLim.transform.getFSMSize
      = 1 := by decide +kernel
  have hprint : (printProcesses ((run bindStep (.init 8 "") onlyLoads).get onlyLoads_isSome).binder.MemArray 8
      ((run bindStep (.init 8 "") onlyLoads).get onlyLoads_isSome).binder.FSMLim.transform).map
        (fun P => (decide (WellNested P.wrtProc), timersOf P.tProc, P.timers, doneOf P.tProc)) =
      some (false, [1], [], [Statement.doneReset]) := by decide +kernel
  obtain ⟨P, hP, hfacts⟩ := Option.map_eq_some_iff.mp hprint
  simp only [Prod.mk.injEq, decide_eq_false_iff_not] at hfacts
  obtain ⟨hnested, htimers, hdeclared, hdone⟩ := hfacts
  refine ⟨_, P, (Option.some_get onlyLoads_isSome).symm, hsize, hP, hnested, ?_, hdeclared, hdone, ?_⟩
  · rw [htimers]
    exact List.mem_singleton_self 1
  · intro hwell
    exact hnested (hwell.nested P.wrtProc (by simp [Processes.all]))

/-- The processes of loads, a difference, a sum behind a mux, a copy row and an accumulation are
well formed. -/
theorem processes_wellFormed_iff_mixedBindings :
    ∃ s P, Reaches 8 "" mixedBindings s ∧
      printProcesses s.binder.MemArray 8 s.binder.FSMLim.transform = some P ∧
      P.WellFormed s.binder.FSMLim.transform.getFSMSize := by
  have hprint : (printProcesses ((run bindStep (.init 8 "") mixedBindings).get
      mixedBindings_isSome).binder.MemArray 8
      ((run bindStep (.init 8 "") mixedBindings).get mixedBindings_isSome).binder.FSMLim.transform).isSome := by
    decide +kernel
  obtain ⟨P, hP⟩ := Option.isSome_iff_exists.mp hprint
  have htimes : ∀ entry ∈ ((run bindStep (.init 8 "") mixedBindings).get
      mixedBindings_isSome).binder.FSMLim.FSM2.toList, 0 ≤ entry.2 ∧ entry.2 <
        ((run bindStep (.init 8 "") mixedBindings).get
          mixedBindings_isSome).binder.FSMLim.transform.getFSMSize := by decide +kernel
  refine ⟨_, P, (Option.some_get mixedBindings_isSome).symm, hP,
    (processes_wellFormed_iff (Option.some_get mixedBindings_isSome).symm hP).mpr ⟨by decide +kernel, fun n t ht => ?_⟩⟩
  exact htimes (n, t) (ExtTreeMap.mem_toList_iff_getElem?_eq_some.mpr ht)

end Octantis
