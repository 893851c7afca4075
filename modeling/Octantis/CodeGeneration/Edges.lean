import Octantis.CodeGeneration.Simulation

/-!
# The edges of the clock

What the processes do at an edge, while one pulse passes the states.

## The model

In state `j` the signal `Tj` alone is set (`timersAt`), and `GO` in state 0. `rowsOf F k`
are the rows whose time is half of `k`: an edge in state `j` writes `rowsOf F (j + 1)` and
reads `rowsOf F j`.

## What is proved

* `executed_wrtProc`, `executed_goRdProc`, `executed_tProc`, `executed_muxProc`: what each
  process executes in a state.
* `edge_eq`: an edge writes the rows of the state, reads them, and at the rising edge passes
  the pulse on; it is an error exactly when one of these rows is outside the memory.
-/

namespace Octantis

open Std Lib Lib.Line PrintVhdlFile

universe u

variable {α : Type u} {A : LiMArray} {par : ℤ} {F : FiniteStateMachine} {j : ℕ} {rising : Bool}

namespace PrintVhdlFile

/-! ### The states -/

/-- The signals `Ti` in state `j` of `n` times. -/
def timersAt (n j : ℕ) (i : ℤ) : Bool := decide (1 ≤ i ∧ i = j ∧ i ≤ 2 * (n : ℤ) - 2)

/-- The rows whose time is half of `k`. -/
def rowsOf (F : FiniteStateMachine) (k : ℕ) : List Name :=
  ((F.FSM.toList.find? fun entry => 2 * entry.1 = (k : ℤ)).map (·.2)).getD []

theorem mem_rowsOf (hF : F.FSM = ∅) {k : ℕ} {n : Name} :
    n ∈ rowsOf F.transform k ↔ ∃ t, F.getTime n = some t ∧ 2 * t = k := by
  rw [rowsOf]
  constructor
  · intro hn
    cases hfind : F.transform.FSM.toList.find? fun entry => 2 * entry.1 = (k : ℤ) with
    | none => simp [hfind] at hn
    | some entry =>
      rw [hfind, Option.map_some, Option.getD_some] at hn
      have hentry := List.mem_of_find?_eq_some hfind
      rw [ExtTreeMap.mem_toList_iff_getElem?_eq_some] at hentry
      exact ⟨entry.1, (FiniteStateMachine.mem_transform hF).mp ⟨entry.2, hentry, hn⟩,
        of_decide_eq_true (List.find?_some hfind :)⟩
  · rintro ⟨t, ht, hk⟩
    obtain ⟨rows, hrows, hn⟩ := (FiniteStateMachine.mem_transform hF).mpr ht
    cases hfind : F.transform.FSM.toList.find? fun entry => 2 * entry.1 = (k : ℤ) with
    | none =>
      rw [List.find?_eq_none] at hfind
      exact absurd (decide_eq_true hk) (hfind (t, rows) (ExtTreeMap.mem_toList_iff_getElem?_eq_some.mpr hrows))
    | some entry =>
      have hentry := List.mem_of_find?_eq_some hfind
      rw [ExtTreeMap.mem_toList_iff_getElem?_eq_some] at hentry
      have hk' : 2 * entry.1 = k := of_decide_eq_true (List.find?_some hfind :)
      obtain rfl : entry.1 = t := by omega
      rw [hrows, Option.some.injEq] at hentry
      rw [Option.map_some, Option.getD_some, ← hentry]
      exact hn

/-! ### The writes -/

/-- What a row is written with when no row is a division. -/
def rowValue (A : LiMArray) (n : Name) : RowValue := ((writeValue A 0 [] n).map (·.1)).getD (.memRd n)

/-- A row that is no division and can be written. -/
def PlainlyWritable (A : LiMArray) (n : Name) : Prop :=
  Writable A n ∧ ∀ row, A.findRow n = some row → row.rowType ≠ .sdiv

theorem writeValue_eq (par : ℤ) {n : Name} (h : PlainlyWritable A n) (seen : List Name) :
    writeValue A par seen n = some (rowValue A n, seen) := by
  obtain ⟨⟨row, m, c, hrow, hm, hc⟩, hdiv⟩ := h
  simp only [rowValue, writeValue, LiMArray.isLiMRowOfThisType, hrow, hm, hc, Option.bind_eq_bind,
    Option.bind_some, Option.pure_def, beq_eq_false_iff_ne.mpr (hdiv row hrow), Bool.false_eq_true, if_false,
    Option.map_some, Option.getD_some]

/-- The statements that write some rows. -/
def writes (A : LiMArray) (rows : List Name) : List Statement :=
  rows.map fun n => .write (memIndex n) (rowValue A n)

/-- The statements that read some rows. -/
def reads (rows : List Name) : List Statement := rows.map fun n => .read n (memIndex n)

theorem writeRows_eq {rows : List Name} (h : ∀ n ∈ rows, PlainlyWritable A n) (seen : List Name) :
    writeRows A par seen rows = some (writes A rows, seen) := by
  induction rows with
  | nil => rfl
  | cons n rows ih =>
    simp only [writeRows, writeValue_eq par (h n List.mem_cons_self),
      ih fun m hm => h m (List.mem_cons_of_mem _ hm), Option.bind_eq_bind, Option.bind_some, Option.pure_def]
    rfl

/-- The writes of the times after 1. -/
theorem writeTimes_eq_branches {times : List (ℤ × List Name)}
    (ht : ∀ entry ∈ times, 1 < entry.1 ∧ entry.2 ≠ [])
    (h : ∀ entry ∈ times, ∀ n ∈ entry.2, PlainlyWritable A n) (seen : List Name) :
    writeTimes A par seen times = some (branches (times.map fun entry =>
      (.control (.T (entry.1 * 2 - 1)), writes A entry.2))) := by
  induction times with
  | nil => rfl
  | cons entry times ih =>
    obtain ⟨t, rows⟩ := entry
    obtain ⟨hlt, hne⟩ := ht _ List.mem_cons_self
    simp only at hlt hne
    rw [writeTimes, if_neg (by omega)]
    simp only [writeRows_eq (h (t, rows) List.mem_cons_self),
      ih (fun e he => ht e (List.mem_cons_of_mem _ he)) fun e he => h e (List.mem_cons_of_mem _ he),
      Option.bind_eq_bind, Option.bind_some, Option.pure_def]
    rw [writeHeader, if_neg (by simpa using hne), if_neg (by omega)]
    simp [branches]

/-! ### What the processes execute -/

variable {L : RowLogic α} {s : Component α}

/-- The conditions of an edge in state `j` of `n` times. -/
def holdsAt (L : RowLogic α) (rising : Bool) (j : ℕ) (s : Component α) (c : Condition) : Bool :=
  c.holds (Architecture.running L (j = 0)) rising s

theorem holdsAt_GO : holdsAt L rising j s (.control .GO) = decide (j = 0) := rfl

theorem holdsAt_T (i : ℤ) : holdsAt L rising j s (.control (.T i)) = s.T i := rfl

theorem find?_congr {β : Type u} {p q : β → Bool} {l : List β} (h : ∀ x ∈ l, p x = q x) :
    l.find? p = l.find? q := by
  induction l with
  | nil => rfl
  | cons x l ih =>
    rw [List.find?_cons, List.find?_cons, h x List.mem_cons_self,
      ih fun y hy => h y (List.mem_cons_of_mem _ hy)]

/-- The branches of the times, of which the first that holds is the one of state `k`. -/
theorem find?_branches {holds : Condition → Bool} (cond : ℤ → Condition) {f : List Name → List Statement}
    {times : List (ℤ × List Name)} {k : ℕ} (hnil : f [] = [])
    (h : ∀ entry ∈ times, holds (cond entry.1) = decide (2 * entry.1 = (k : ℤ))) :
    (((times.map fun entry => (cond entry.1, f entry.2)).find? fun branch =>
      holds branch.1).map (·.2)).getD [] =
      f (((times.find? fun entry => 2 * entry.1 = (k : ℤ)).map (·.2)).getD []) := by
  rw [List.find?_map, find?_congr (q := fun entry => decide (2 * entry.1 = (k : ℤ))) h]
  cases times.find? fun entry => decide (2 * entry.1 = (k : ℤ)) with
  | none => exact hnil.symm
  | some entry => rfl

theorem executed_rdProc : executed (holdsAt L rising j s) [] rdProc = [] := rfl

/-- The rows of the times fit the states: there are two times or more, all below their number. -/
structure Staging (A : LiMArray) (F : FiniteStateMachine) : Prop where
  pending : F.FSM = ∅
  size : 2 ≤ F.transform.getFSMSize
  bounded : ∀ n t, F.getTime n = some t → 0 ≤ t ∧ t < F.transform.getFSMSize
  writable : ∀ n t, F.getTime n = some t → PlainlyWritable A n

theorem Staging.entry (h : Staging A F) {entry : ℤ × List Name} (he : entry ∈ F.transform.FSM.toList) :
    (0 ≤ entry.1 ∧ entry.1 < F.transform.getFSMSize) ∧ entry.2 ≠ [] ∧ ∀ n ∈ entry.2, PlainlyWritable A n := by
  obtain ⟨hne, n, hn⟩ := FiniteStateMachine.mem_toList_transform h.pending he
  refine ⟨h.bounded n _ hn, hne, fun m hm => ?_⟩
  rw [ExtTreeMap.mem_toList_iff_getElem?_eq_some] at he
  exact h.writable m _ ((FiniteStateMachine.mem_transform h.pending).mp ⟨entry.2, he, hm⟩)

/-- `wrt_proc` is a conditional of the times but 0. -/
theorem Staging.wrtProc_eq (h : Staging A F) (par : ℤ) :
    ∃ (first : ℤ × List Name) (times : List (ℤ × List Name)),
    (∀ k : ℕ, 0 < k → ((first :: times).find? fun entry => 2 * entry.1 = (k : ℤ)) =
      F.transform.FSM.toList.find? fun entry => 2 * entry.1 = (k : ℤ)) ∧
    (∀ entry ∈ first :: times, 0 < entry.1 ∧ entry.1 < F.transform.getFSMSize) ∧
    wrtProc A par F.transform = some ([.ifThen .RST, .statement .memReset,
      .elsif .EN, .ifThen .writeEdge, .statement .dataIn, .endIf, .otherwise] ++
        .ifThen (.control (.T (first.1 * 2 - 1))) :: ((writes A first.2).map .statement ++
          (branches (times.map fun entry => (.control (.T (entry.1 * 2 - 1)), writes A entry.2)) ++
            [.endIf, .endIf]))) := by
  obtain ⟨rows₀, rows₁, times, hlist, hlater⟩ := exists_toList h.size fun entry he => (h.entry he).1
  have hentry : ∀ entry ∈ times, entry ∈ F.transform.FSM.toList := by
    intro entry he
    rw [hlist]
    exact List.mem_cons_of_mem _ (List.mem_cons_of_mem _ he)
  have hmem : (1, rows₁) ∈ F.transform.FSM.toList := by simp [hlist]
  have hfirst := h.entry hmem
  refine ⟨(1, rows₁), times, fun k hk => ?_, ?_, ?_⟩
  · rw [hlist, List.find?_cons (a := (0, rows₀)), decide_eq_false (by simp only; omega)]
  · rintro entry (_ | ⟨_, he⟩)
    · exact ⟨Int.one_pos, hfirst.1.2⟩
    · exact ⟨by have := hlater entry he; omega, (h.entry (hentry entry he)).1.2⟩
  · simp only [wrtProc, hlist, writeTimes, if_true, if_neg (show (1 : ℤ) ≠ 0 by decide),
      writeRows_eq hfirst.2.2,
      writeTimes_eq_branches (fun e he => ⟨hlater e he, (h.entry (hentry e he)).2.1⟩)
        fun e he => (h.entry (hentry e he)).2.2, Option.bind_eq_bind, Option.bind_some, Option.pure_def]
    rw [writeHeader, if_neg (by simpa using hfirst.2.1), if_pos rfl]
    simp

/-- The writes in state `j`. -/
theorem Staging.executed_wrtProc (h : Staging A F) (hs : s.T = timersAt F.transform.getFSMSize j)
    {lines : List ProcessLine} (hlines : wrtProc A par F.transform = some lines) :
    executed (holdsAt L rising j s) [] lines = writes A (rowsOf F.transform (j + 1)) := by
  obtain ⟨first, times, hfind, hbounded, heq⟩ := h.wrtProc_eq par
  rw [hlines, Option.some.injEq] at heq
  have hstart : executed (holdsAt L rising j s) [] lines = executed (holdsAt L rising j s) [.taken]
      (.ifThen (.control (.T (first.1 * 2 - 1))) :: ((writes A first.2).map .statement ++
        (branches (times.map fun entry => (.control (.T (entry.1 * 2 - 1)), writes A entry.2)) ++
          [.endIf, .endIf]))) := by
    rw [heq]
    rfl
  have hcond : ∀ entry ∈ first :: times, holdsAt L rising j s (.control (.T (entry.1 * 2 - 1))) =
      decide (2 * entry.1 = ((j + 1 : ℕ) : ℤ)) := by
    intro entry he
    have hb := hbounded entry he
    rw [holdsAt_T, hs, timersAt]
    congr 1
    rw [eq_iff_iff]
    omega
  have hbranches := find?_branches (f := writes A) (fun t => .control (.T (t * 2 - 1))) rfl hcond
  rw [hstart, executed_conditional (by rfl), rowsOf, ← hfind _ (Nat.succ_pos j), ← hbranches]
  simp [executed]

/-- The reads in state `j`. -/
theorem Staging.executed_goRdProc (h : Staging A F) (hs : s.T = timersAt F.transform.getFSMSize j) :
    executed (holdsAt L rising j s) [] (goRdProc A F.transform) = reads (rowsOf F.transform j) := by
  have hbranches : ∀ times : List (ℤ × List Name), (∀ entry ∈ times, entry.2 ≠ []) →
      times.flatMap (fun entry => readTime entry.1 entry.2) = branches (times.map fun entry =>
        (.control (if entry.1 = 0 then .GO else .T (entry.1 * 2)), reads entry.2)) := by
    intro times hne
    induction times with
    | nil => rfl
    | cons entry times ih =>
      rw [List.flatMap_cons, ih fun e he => hne e (List.mem_cons_of_mem _ he),
        readTime_eq_branches (hne entry List.mem_cons_self), ← branches_append]
      rfl
  have hresets : A.limArray.toList.map (fun entry => (.statement (.memRdReset entry.1) : ProcessLine)) =
      (A.limArray.toList.map fun entry => Statement.memRdReset entry.1).map .statement := by
    rw [List.map_map]
    rfl
  have hcond : ∀ entry ∈ F.transform.FSM.toList,
      holdsAt L rising j s (.control (if entry.1 = 0 then .GO else .T (entry.1 * 2))) =
        decide (2 * entry.1 = (j : ℤ)) := by
    intro entry he
    have hb := (h.entry he).1
    split
    · next hzero =>
      rw [holdsAt_GO]
      congr 1
      rw [eq_iff_iff]
      omega
    · next hzero =>
      rw [holdsAt_T, hs, timersAt]
      congr 1
      rw [eq_iff_iff]
      omega
  rw [goRdProc, hbranches _ fun entry he => (h.entry he).2.1, hresets, List.cons_append, List.cons_append,
    List.append_assoc, executed_conditional (by rfl), List.find?_cons,
    show holdsAt L rising j s .RST = false from rfl]
  simp only
  rw [find?_branches (fun t => .control (if t = 0 then .GO else .T (t * 2))) rfl hcond]
  simp [executed, rowsOf]

/-- The pulse passes at the rising edge. -/
theorem executed_tProc (n : ℕ) : executed (holdsAt L rising j s) [] (tProc n) =
    if rising then (List.range' 1 (2 * n - 1)).map (shiftTimer n) else [] := by
  have hresets : (timers n).map (fun i => (.statement (.tReset i) : ProcessLine)) =
      ((timers n).map Statement.tReset).map .statement := by
    rw [List.map_map]
    rfl
  have hshifts : (List.range' 1 (2 * n - 1)).map (fun i => (.statement (shiftTimer n i) : ProcessLine)) =
      ((List.range' 1 (2 * n - 1)).map (shiftTimer n)).map .statement := by
    rw [List.map_map]
    rfl
  simp only [tProc, hresets, hshifts, List.cons_append, List.append_assoc, List.nil_append]
  rw [executed, show holdsAt L rising j s .RST = false from rfl, executed_statements]
  simp only [List.all_nil, if_true, Branch.enter_false, List.all_cons, Bool.and_true]
  rw [if_neg (by decide), List.nil_append, executed, if_neg (by decide), executed, executed,
    show holdsAt L rising j s .edge = rising from rfl, executed_statements]
  cases rising <;> simp [executed, Branch.next, Branch.enter]

/-- `mux_proc` drives selects only. -/
theorem executed_muxProc : ∀ stmt ∈ executed (holdsAt L rising j s) []
    (muxProc F), ∃ n sel, stmt = .select n sel := by
  have hresets : F.selectionSignalsList.map (fun signal =>
      (.statement (.select signal.destRow .X) : ProcessLine)) =
        (F.selectionSignalsList.map fun signal => Statement.select signal.destRow .X).map .statement := by
    rw [List.map_map]
    rfl
  rw [muxProc, selectTimes_eq_branches, hresets, List.cons_append, List.cons_append, List.append_assoc,
    executed_conditional (by rfl), List.find?_cons,
    show holdsAt L rising j s .RST = false from rfl]
  simp only
  intro stmt hstmt
  rw [show executed (holdsAt L rising j s) [] [] = [] from rfl, List.append_nil] at hstmt
  cases hfind : List.find? (fun branch => holdsAt L rising j s branch.1)
      ((List.range F.getFSMSize).map fun (i : ℕ) =>
        ((.control (if i = 0 then .GO else .T (i * 2)) : Condition),
        F.selectionSignalsList.filterMap fun signal =>
          (muxEvent signal i).map (Statement.select signal.destRow))) with
  | none =>
    rw [hfind] at hstmt
    cases hstmt
  | some branch =>
    rw [hfind, Option.map_some, Option.getD_some] at hstmt
    obtain ⟨i, -, rfl⟩ := List.mem_map.mp (List.mem_of_find?_eq_some hfind)
    exact select_of_mem_filterMap hstmt

/-! ### What an edge does -/

/-- Assignments of which no two are to one place. -/
theorem foldl_update {ι κ : Type} {β : Type u} [DecidableEq ι] [DecidableEq κ] {f : ι → κ} (v : ι → β)
    {rows : List ι} {n : ι} (h : ∀ r ∈ rows, f n = f r → n = r) (M : κ → β) :
    rows.foldl (fun M r => Function.update M (f r) (v r)) M (f n) = if n ∈ rows then v n else M (f n) := by
  induction rows generalizing M with
  | nil => rw [if_neg List.not_mem_nil, List.foldl_nil]
  | cons r rows ih =>
    rw [List.foldl_cons, ih fun r' hr' => h r' (List.mem_cons_of_mem _ hr')]
    by_cases hn : n ∈ rows
    · rw [if_pos hn, if_pos (List.mem_cons_of_mem _ hn)]
    by_cases hr : n = r
    · subst hr
      rw [if_neg hn, if_pos List.mem_cons_self, Function.update_self]
    · rw [if_neg hn, if_neg (by simp [hn, hr]),
        Function.update_of_ne fun heq => hr (h r List.mem_cons_self heq)]

variable {V : Architecture} {m : ℕ} {inputs : Inputs α} {old : Component α}

/-- The writes are an error when one of them is outside the memory. -/
theorem foldlM_writes {rows : List Name} {v : Name → α}
    (hv : ∀ n ∈ rows, (rowValue A n).value V L old.memRd = some (v n)) (s : Component α) :
    (writes A rows).foldlM (V.perform L m inputs old) s =
      if ∀ n ∈ rows, memIndex n < m then
        some { s with Mem := rows.foldl (fun M n => Function.update M (memIndex n) (v n)) s.Mem }
      else none := by
  induction rows generalizing s with
  | nil => rfl
  | cons n rows ih =>
    rw [writes, List.map_cons, List.foldlM_cons, Architecture.perform, hv n List.mem_cons_self]
    by_cases hn : memIndex n < m
    · rw [if_pos hn, Option.map_some, Option.bind_eq_bind, Option.bind_some]
      have ih := ih (fun r hr => hv r (List.mem_cons_of_mem _ hr))
        { s with Mem := Function.update s.Mem (memIndex n) (v n) }
      rw [writes] at ih
      rw [ih]
      simp [hn]
    · rw [if_neg hn, if_neg fun hall => hn (hall n List.mem_cons_self)]
      rfl

/-- The reads are an error when one of them is outside the memory. -/
theorem foldlM_reads (rows : List Name) (s : Component α) :
    (reads rows).foldlM (V.perform L m inputs old) s =
      if ∀ n ∈ rows, memIndex n < m then
        some { s with memRd := rows.foldl (fun R n => Function.update R n (old.Mem (memIndex n))) s.memRd }
      else none := by
  induction rows generalizing s with
  | nil => rfl
  | cons n rows ih =>
    rw [reads, List.map_cons, List.foldlM_cons, Architecture.perform]
    by_cases hn : memIndex n < m
    · rw [if_pos hn, Option.bind_eq_bind, Option.bind_some]
      have ih := ih { s with memRd := Function.update s.memRd n (old.Mem (memIndex n)) }
      rw [reads] at ih
      rw [ih]
      simp [hn]
    · rw [if_neg hn, if_neg fun hall => hn (hall n List.mem_cons_self)]
      rfl

theorem foldlM_selects {stmts : List Statement} (h : ∀ stmt ∈ stmts, ∃ n sel, stmt = .select n sel)
    (s : Component α) : stmts.foldlM (V.perform L m inputs old) s = some s := by
  induction stmts with
  | nil => rfl
  | cons stmt stmts ih =>
    obtain ⟨n, sel, rfl⟩ := h stmt List.mem_cons_self
    exact ih fun stmt hstmt => h stmt (List.mem_cons_of_mem _ hstmt)

/-- One signal of the chain. -/
theorem perform_shiftTimer (V : Architecture) (L : RowLogic α) (m : ℕ) {n i : ℕ} (hn : 2 ≤ n)
    (hi : 1 ≤ i ∧ i ≤ 2 * n - 1) (hgo : inputs.GO = decide (j = 0))
    (hold : old.T = timersAt n j) (s : Component α) :
    ∃ done, V.perform L m inputs old s (shiftTimer n i) = some
      ⟨s.Mem, s.memRd, if i ≤ 2 * n - 2 then Function.update s.T i (timersAt n (j + 1) i) else s.T,
        done⟩ := by
  rw [shiftTimer]
  split
  · next h1 =>
    subst h1
    refine ⟨s.DONE, ?_⟩
    rw [Architecture.perform, if_pos (by omega), Control.value, hgo, timersAt]
    congr 4
    rw [eq_iff_iff]
    omega
  split
  · next h1 h2 => exact ⟨_, by rw [Architecture.perform, if_neg (by omega)]⟩
  · next h1 h2 =>
    refine ⟨s.DONE, ?_⟩
    rw [Architecture.perform, if_pos (by omega), Control.value, hold, timersAt, timersAt]
    congr 4
    rw [eq_iff_iff]
    omega

theorem foldlM_shifts (V : Architecture) (L : RowLogic α) (m : ℕ) {n : ℕ} (hn : 2 ≤ n) (is : List ℕ)
    (his : ∀ i ∈ is, 1 ≤ i ∧ i ≤ 2 * n - 1)
    (hgo : inputs.GO = decide (j = 0)) (hold : old.T = timersAt n j) (s : Component α) :
    ∃ T done, (is.map (shiftTimer n)).foldlM (V.perform L m inputs old) s = some ⟨s.Mem, s.memRd, T, done⟩ ∧
      ∀ t, T t = if ∃ i ∈ is, i ≤ 2 * n - 2 ∧ (i : ℤ) = t then timersAt n (j + 1) t else s.T t := by
  induction is generalizing s with
  | nil => exact ⟨s.T, s.DONE, rfl, by simp⟩
  | cons i is ih =>
    obtain ⟨done, hi⟩ := perform_shiftTimer V L m hn (his i List.mem_cons_self) hgo hold s
    obtain ⟨T, done', hrest, hT⟩ := ih (fun i hi => his i (List.mem_cons_of_mem _ hi))
      ⟨s.Mem, s.memRd, if i ≤ 2 * n - 2 then Function.update s.T i (timersAt n (j + 1) i) else s.T, done⟩
    refine ⟨T, done', by rw [List.map_cons, List.foldlM_cons, hi, Option.bind_eq_bind,
      Option.bind_some, hrest], ?_⟩
    intro t
    rw [hT]
    simp only [List.mem_cons, exists_eq_or_imp]
    by_cases hin : ∃ i ∈ is, i ≤ 2 * n - 2 ∧ (i : ℤ) = t
    · rw [if_pos hin, if_pos (.inr hin)]
    rw [if_neg hin]
    by_cases hi : i ≤ 2 * n - 2
    · rw [if_pos hi]
      by_cases ht : (i : ℤ) = t
      · rw [if_pos (.inl ⟨hi, ht⟩), ← ht, Function.update_self]
      · rw [Function.update_of_ne (Ne.symm ht),
          if_neg (by simp only [hin, ht, and_false, or_self, not_false_eq_true])]
    · rw [if_neg hi, if_neg (by simp only [hin, hi, false_and, or_self, not_false_eq_true])]

/-- **An edge** in state `j`. -/
theorem Staging.edge_eq (h : Staging A F) (rising : Bool)
    (hP : printProcesses A par F.transform = some V.processes)
    {s : Component α} (hs : s.T = timersAt F.transform.getFSMSize j) {v : Name → α}
    (hv : ∀ n ∈ rowsOf F.transform (j + 1), (rowValue A n).value V L s.memRd = some (v n)) :
    ∃ done, V.edge L m (Architecture.running L (j = 0)) rising s =
      if ∀ n ∈ rowsOf F.transform (j + 1) ++ rowsOf F.transform j, memIndex n < m then some
        ⟨(rowsOf F.transform (j + 1)).foldl (fun M n => Function.update M (memIndex n) (v n)) s.Mem,
          (rowsOf F.transform j).foldl (fun R n => Function.update R n (s.Mem (memIndex n))) s.memRd,
          timersAt F.transform.getFSMSize (if rising then j + 1 else j), done⟩
      else none := by
  obtain ⟨wrt, hwrt, hprocesses⟩ := printProcesses_eq_some hP
  have hexec : V.processes.all.flatMap (executed (holdsAt L rising j s) []) =
      writes A (rowsOf F.transform (j + 1)) ++ (reads (rowsOf F.transform j) ++
        ((if rising then (List.range' 1 (2 * F.transform.getFSMSize - 1)).map (shiftTimer F.transform.getFSMSize)
          else []) ++ executed (holdsAt L rising j s) [] (muxProc F.transform))) := by
    rw [hprocesses]
    simp only [Processes.all, List.flatMap_cons, List.flatMap_nil, executed_rdProc,
      h.executed_wrtProc hs hwrt, h.executed_goRdProc hs, executed_tProc, List.nil_append,
      List.append_nil]
  have hrun : V.edge L m (Architecture.running L (j = 0)) rising s =
      (V.processes.all.flatMap (executed (holdsAt L rising j s) [])).foldlM
        (V.perform L m (Architecture.running L (j = 0)) s) s := rfl
  rw [hrun, hexec, List.foldlM_append, foldlM_writes hv]
  by_cases hall : ∀ n ∈ rowsOf F.transform (j + 1) ++ rowsOf F.transform j, memIndex n < m
  swap
  · refine ⟨false, ?_⟩
    rw [if_neg hall]
    split
    · next hw =>
      rw [Option.bind_eq_bind, Option.bind_some, List.foldlM_append, foldlM_reads,
        if_neg fun hr => hall fun n hn => (List.mem_append.mp hn).elim (hw n) (hr n)]
      rfl
    · rfl
  simp only [if_pos hall]
  rw [if_pos fun n hn => hall n (List.mem_append_left _ hn), Option.bind_eq_bind, Option.bind_some,
    List.foldlM_append, foldlM_reads, if_pos fun n hn => hall n (List.mem_append_right _ hn),
    Option.bind_eq_bind, Option.bind_some, List.foldlM_append]
  cases rising with
  | false =>
    simp only [Bool.false_eq_true, if_false, List.foldlM_nil, Option.pure_def, Option.bind_eq_bind,
      Option.bind_some]
    rw [foldlM_selects executed_muxProc, ← hs]
    exact ⟨_, rfl⟩
  | true =>
    simp only [if_true]
    have hrange : ∀ i ∈ List.range' 1 (2 * F.transform.getFSMSize - 1), 1 ≤ i ∧
      i ≤ 2 * F.transform.getFSMSize - 1 := by
      intro i hi
      rw [List.mem_range'_1] at hi
      omega
    have hgo : (Architecture.running L (j = 0)).GO = decide (j = 0) := rfl
    obtain ⟨T, done, hshifts, hT⟩ := foldlM_shifts V L m h.size _ hrange hgo hs _
    rw [hshifts, Option.bind_eq_bind, Option.bind_some, foldlM_selects executed_muxProc]
    have htimers : T = timersAt F.transform.getFSMSize (j + 1) := by
      funext t
      rw [hT]
      split
      · rfl
      · next hnot =>
        have hout : ¬ (1 ≤ t ∧ t ≤ 2 * (F.transform.getFSMSize : ℤ) - 2) := by
          intro ht
          exact hnot ⟨t.toNat, List.mem_range'_1.mpr (by omega), by omega, by omega⟩
        rw [hs, timersAt, timersAt, decide_eq_decide]
        omega
    rw [htimers]
    exact ⟨done, rfl⟩

end PrintVhdlFile

end Octantis
