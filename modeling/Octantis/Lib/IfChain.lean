import Mathlib.Tactic.TypeStar
import Octantis.Lib.Run

/-!
# Chains of `if` and `elsif`

A printer that writes a program line by line writes `if`, `elsif`, `else` and `end if` as lines of
their own, so that nothing makes them match. `Line` is such a line, over any conditions and
statements.

## The model

`nest` reads one line with the conditionals open before it (innermost first, `true` for one whose
`else` has come) and is undefined where the line has no `if` to belong to; lines are
`WellNested` when nothing is open at their end. `executed` is what they do: the
statements reached, in order, for the conditions that hold.

## What is proved

* `WellNested.count_eq`: well nested lines have as many `if` as `end if`.
* `run_nest_branches`, `executed_branches`: the lines of a list of `elsif` branches stay in the
  conditional they stand in, and do what its first branch that holds does.
-/

namespace Octantis.Lib

universe u v

/-- A line of a program with conditionals. -/
inductive Line (κ : Type u) (σ : Type v) where
  /-- `if c then` -/
  | ifThen (c : κ)
  /-- `elsif c then` -/
  | elsif (c : κ)
  /-- `else` -/
  | otherwise
  /-- `end if;` -/
  | endIf
  /-- A statement. -/
  | statement (s : σ)
  deriving DecidableEq, Repr

namespace Line

variable {κ : Type u} {σ : Type v}

/-- The condition of a line. -/
def condition : Line κ σ → Option κ
  | ifThen c | elsif c => some c
  | otherwise | endIf | statement _ => none

/-- The statement of a line. -/
def statement? : Line κ σ → Option σ
  | statement s => some s
  | ifThen _ | elsif _ | otherwise | endIf => none

theorem mem_filterMap_statement? {ls : List (Line κ σ)} {s : σ} :
    s ∈ ls.filterMap statement? ↔ .statement s ∈ ls := by
  rw [List.mem_filterMap]
  constructor
  · rintro ⟨line, hline, hs⟩
    cases line with
    | statement s' =>
      cases hs
      exact hline
    | ifThen | elsif | otherwise | endIf => cases hs
  · exact fun h => ⟨_, h, rfl⟩

/-- A line that opens a conditional. -/
def isIf : Line κ σ → Bool
  | ifThen _ => true
  | elsif _ | otherwise | endIf | statement _ => false

/-- A line that closes a conditional. -/
def isEndIf : Line κ σ → Bool
  | endIf => true
  | ifThen _ | elsif _ | otherwise | statement _ => false

/-- The lines of a list of branches. -/
def branches (bs : List (κ × List σ)) : List (Line κ σ) :=
  bs.flatMap fun branch => elsif branch.1 :: branch.2.map statement

end Line

open Line

variable {κ : Type u} {σ : Type v}

/-! ### Nesting -/

/-- The conditionals open after a line. -/
def nest : List Bool → Line κ σ → Option (List Bool)
  | opened, .ifThen _ => some (false :: opened)
  | false :: opened, .elsif _ => some (false :: opened)
  | false :: opened, .otherwise => some (true :: opened)
  | _ :: opened, .endIf => some opened
  | opened, .statement _ => some opened
  | _, _ => none

/-- Every `elsif`, `else` and `end if` belongs to an `if`, and every `if` is closed. -/
def WellNested (lines : List (Line κ σ)) : Prop := run nest [] lines = some []

instance (lines : List (Line κ σ)) : Decidable (WellNested lines) :=
  inferInstanceAs (Decidable (run nest [] lines = some []))

theorem run_nest_append {opened opened' : List Bool} {ls ls' : List (Line κ σ)}
    (h : run nest opened ls = some opened') : run nest opened (ls ++ ls') = run nest opened' ls' := by
  rw [run_append, h, Option.bind_some]

@[simp] theorem run_nest_statements (opened : List Bool) (ss : List σ) :
    run nest opened (ss.map (statement : σ → Line κ σ)) = some opened := by
  induction ss with
  | nil => rfl
  | cons s ss ih => simpa [nest] using ih

theorem run_nest_map {α : Type*} (opened : List Bool) (f : α → σ) (xs : List α) (ls : List (Line κ σ)) :
    run nest opened (xs.map (fun x => statement (f x)) ++ ls) = run nest opened ls := by
  have hxs : xs.map (fun x => (statement (f x) : Line κ σ)) = (xs.map f).map statement := by
    rw [List.map_map]
    rfl
  rw [hxs, run_nest_append (run_nest_statements opened _)]

theorem branches_append (bs bs' : List (κ × List σ)) :
    branches (bs ++ bs') = branches bs ++ branches bs' := List.flatMap_append

/-- Branches stay in the conditional they stand in. -/
theorem run_nest_branches (opened : List Bool) (bs : List (κ × List σ)) :
    run nest (false :: opened) (branches bs) = some (false :: opened) := by
  induction bs with
  | nil => rfl
  | cons branch bs ih =>
    rw [branches, List.flatMap_cons, List.cons_append, run_cons, nest, Option.bind_some,
      run_nest_append (run_nest_statements _ _)]
    exact ih

/-- The lines open as many conditionals as they close, up to those open before and after. -/
theorem length_of_run_nest {opened opened' : List Bool} {ls : List (Line κ σ)}
    (h : run nest opened ls = some opened') :
    opened.length + ls.countP isIf = opened'.length + ls.countP isEndIf := by
  induction ls generalizing opened with
  | nil =>
    rw [run_nil, Option.some.injEq] at h
    rw [h]
    rfl
  | cons line ls ih =>
    rw [run_cons, Option.bind_eq_some_iff] at h
    obtain ⟨opened₁, hline, h⟩ := h
    have hls := ih h
    rw [List.countP_cons, List.countP_cons]
    unfold nest at hline
    split at hline <;> cases hline <;> simp [isIf, isEndIf] at hls ⊢ <;> omega

/-- **Well nested lines** have as many `if` as `end if`. -/
theorem WellNested.count_eq {ls : List (Line κ σ)} (h : WellNested ls) :
    ls.countP isIf = ls.countP isEndIf := by
  simpa using length_of_run_nest h

/-! ### Execution -/

/-- Where the execution stands in a conditional. -/
inductive Branch where
  /-- In the branch taken. -/
  | taken
  /-- Before the branch taken, if there is one. -/
  | pending
  /-- After the branch taken, or in a conditional that is not reached. -/
  | skipped
  deriving DecidableEq, Repr

/-- Enter a branch with the condition `c`, in a conditional whose branches so far were not taken. -/
def Branch.enter (c : Bool) : Branch := if c then taken else pending

@[simp] theorem Branch.enter_true : enter true = taken := rfl

@[simp] theorem Branch.enter_false : enter false = pending := rfl

/-- The next branch of a conditional, with the condition `c`. -/
def Branch.next (c : Bool) : Branch → Branch
  | pending => enter c
  | taken | skipped => skipped

/-- The statements that the lines execute in the conditionals open, innermost first. -/
def executed (holds : κ → Bool) : List Branch → List (Line κ σ) → List σ
  | _, [] => []
  | opened, .ifThen c :: ls =>
    executed holds ((if opened.all (· = .taken) then Branch.enter (holds c) else .skipped) :: opened) ls
  | branch :: opened, .elsif c :: ls => executed holds (branch.next (holds c) :: opened) ls
  | branch :: opened, .otherwise :: ls => executed holds (branch.next true :: opened) ls
  | opened, .endIf :: ls => executed holds opened.tail ls
  | opened, .statement s :: ls =>
    if opened.all (· = .taken) then s :: executed holds opened ls else executed holds opened ls
  | [], _ :: ls => executed holds [] ls

variable {holds : κ → Bool}

theorem executed_statements (opened : List Branch) (ss : List σ) (ls : List (Line κ σ)) :
    executed holds opened (ss.map statement ++ ls) =
      (if opened.all (· = .taken) then ss else []) ++ executed holds opened ls := by
  induction ss with
  | nil => simp
  | cons s ss ih =>
    rw [List.map_cons, List.cons_append, executed, ih]
    split <;> simp_all

/-- After the branch taken the others are skipped. -/
theorem executed_branches_past {branch : Branch} (h : branch ≠ .pending) (opened : List Branch)
    (bs : List (κ × List σ)) (ls : List (Line κ σ)) :
    executed holds (branch :: opened) (branches bs ++ .endIf :: ls) = executed holds opened ls := by
  induction bs generalizing branch with
  | nil => simp [branches, executed]
  | cons b bs ih =>
    have hnext : branch.next (holds b.1) = .skipped := by
      cases branch with
      | pending => exact absurd rfl h
      | taken | skipped => rfl
    rw [branches, List.flatMap_cons, List.cons_append, List.cons_append, executed, hnext, List.append_assoc,
      executed_statements, if_neg (by simp), List.nil_append]
    exact ih (by decide)

/-- **Branches execute the first of them that holds**, when none before them was taken. -/
theorem executed_branches {opened : List Branch} (h : opened.all (· = .taken)) (bs : List (κ × List σ))
    (ls : List (Line κ σ)) :
    executed holds (.pending :: opened) (branches bs ++ .endIf :: ls) =
      ((bs.find? fun branch => holds branch.1).map (·.2)).getD [] ++ executed holds opened ls := by
  induction bs with
  | nil => simp [branches, executed]
  | cons b bs ih =>
    rw [branches, List.flatMap_cons, List.cons_append, List.cons_append, executed, List.append_assoc,
      executed_statements]
    cases hb : holds b.1 with
    | true =>
      rw [List.find?_cons, hb, Branch.next, Branch.enter_true, if_pos (by simpa using h)]
      rw [show List.flatMap _ bs = branches bs from rfl, executed_branches_past (by decide)]
      rfl
    | false =>
      rw [List.find?_cons, hb, Branch.next, Branch.enter_false, if_neg (by simp), List.nil_append]
      exact ih

/-- **A conditional executes its first branch that holds.** -/
theorem executed_conditional {opened : List Branch} (h : opened.all (· = .taken)) (c : κ) (ss : List σ)
    (bs : List (κ × List σ)) (ls : List (Line κ σ)) :
    executed holds opened (.ifThen c :: (ss.map statement ++ (branches bs ++ .endIf :: ls))) =
      ((((c, ss) :: bs).find? fun branch => holds branch.1).map (·.2)).getD [] ++
        executed holds opened ls := by
  have hbranches : branches ((c, ss) :: bs) ++ .endIf :: ls =
      .elsif c :: (ss.map statement ++ (branches bs ++ .endIf :: ls)) := by
    simp only [branches, List.flatMap_cons, List.cons_append, List.append_assoc]
  rw [← executed_branches h ((c, ss) :: bs) ls, hbranches, executed, if_pos h, executed, Branch.next]

end Octantis.Lib
