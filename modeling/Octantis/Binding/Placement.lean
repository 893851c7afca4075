import Octantis.Binding.BindingPhase

/-!
# The placement of a table

Which rows the binder takes for a table without accumulations can be told from the table: the
rows are slots, a slot is given at most one logic, and the operands remember the first slot
they went to.

## The model

`Placement` is the state of this reading of the table; its fields say that it only speaks of the
slots taken. `element`, `entry` and `ofTable` follow the binder, without names, times and
connections.

## What is proved

* `element_cases`: an element is the slot that both operands went to, or takes a new one;
* `extends_element`, `extends_entry`: what a slot was made of is never changed;
* `made_of_table`: the slots of every operation are made of those of its sources, one by one.

## Honest scope

An element that would get a mux, or whose operands last went to a result of other operands, has no
placement, and no accumulation or shift has one.
-/

namespace Octantis

open Lib

/-- The slots that the values of a table are placed in. -/
structure Placement where
  /-- The number of slots taken. -/
  size : ℕ
  /-- The slots of a register, one for each of its elements. -/
  slots : Reg → List ℕ
  /-- The logic given to a slot. -/
  logic : ℕ → Option Operation
  /-- The slot of the first result of a slot. -/
  dest : ℕ → Option ℕ
  /-- What a slot was computed from. -/
  made : ℕ → Option (Operation × ℕ × ℕ)
  slots_lt : ∀ k, ∀ d ∈ slots k, d < size
  dest_lt : ∀ n d, dest n = some d → n < size ∧ d < size
  logic_lt : ∀ n op, logic n = some op → n < size
  made_lt : ∀ d op x y, made d = some (op, x, y) → d < size ∧ x < size ∧ y < size

namespace Placement

variable {P P' : Placement} {operation : Operation} {k : Reg} {x y : ℕ}

/-- No slot is taken. -/
def empty : Placement where
  size := 0
  slots _ := []
  logic _ := none
  dest _ := none
  made _ := none
  slots_lt := by simp
  dest_lt := by simp
  logic_lt := by simp
  made_lt := by simp

/-- Append a slot to those of a register. -/
theorem slots_update_lt {size : ℕ} (hsize : P.size ≤ size) {d : ℕ} (hd : d < size) (k reg : Reg) :
    ∀ e ∈ Function.update P.slots k (P.slots k ++ [d]) reg, e < size := by
  intro e he
  rw [Function.update_apply] at he
  split at he
  · rcases List.mem_append.mp he with he | he
    · exact (P.slots_lt k e he).trans_le hsize
    · rw [List.mem_singleton.mp he]
      exact hd
  · exact (P.slots_lt reg e he).trans_le hsize

/-- A load takes a slot. -/
def load (P : Placement) (k : Reg) : Placement where
  size := P.size + 1
  slots := Function.update P.slots k (P.slots k ++ [P.size])
  logic := P.logic
  dest := P.dest
  made := P.made
  slots_lt reg := slots_update_lt (Nat.le_succ _) (Nat.lt_succ_self _) k reg
  dest_lt n d h := ⟨(P.dest_lt n d h).1.trans_le (Nat.le_succ _), (P.dest_lt n d h).2.trans_le (Nat.le_succ _)⟩
  logic_lt n op h := (P.logic_lt n op h).trans_le (Nat.le_succ _)
  made_lt d op x y h :=
    have hlt := P.made_lt d op x y h
    ⟨hlt.1.trans_le (Nat.le_succ _), hlt.2.1.trans_le (Nat.le_succ _), hlt.2.2.trans_le (Nat.le_succ _)⟩

/-- A slot that is there already becomes one of a register. -/
def reuse (P : Placement) (k : Reg) (d : ℕ) (hd : d < P.size) : Placement :=
  { P with
    slots := Function.update P.slots k (P.slots k ++ [d])
    slots_lt := slots_update_lt (Nat.le_refl _) hd k }

/-- The logic of an operation on two slots: the second slot is given it, or the first one, or
neither, when a copy of the first one is. -/
def logicAt (P : Placement) (operation : Operation) (x y : ℕ) : Option (ℕ → Option Operation) :=
  if P.logic y = none then some (Function.update P.logic y (some operation))
  else if P.logic x = none then some (Function.update P.logic x (some operation))
  else if P.logic y = some operation ∨ P.logic x = some operation then none
  else some P.logic

/-- A slot with logic has it already, or is an operand. -/
theorem logicAt_cases {logic : ℕ → Option Operation} (h : P.logicAt operation x y = some logic) :
    P.logic y = none ∧ logic = Function.update P.logic y (some operation) ∨
      P.logic y ≠ none ∧ P.logic x = none ∧ logic = Function.update P.logic x (some operation) ∨
      P.logic y ≠ none ∧ P.logic x ≠ none ∧ P.logic y ≠ some operation ∧ P.logic x ≠ some operation ∧
        logic = P.logic := by
  unfold logicAt at h
  split at h
  · next hy => exact .inl ⟨hy, (Option.some.inj h).symm⟩
  next hy =>
  split at h
  · next hx => exact .inr (.inl ⟨hy, hx, (Option.some.inj h).symm⟩)
  next hx =>
  split at h
  · cases h
  · next hmux =>
    rw [not_or] at hmux
    exact .inr (.inr ⟨hy, hx, hmux.1, hmux.2, (Option.some.inj h).symm⟩)

theorem logicAt_lt {logic : ℕ → Option Operation} (hx : x < P.size) (hy : y < P.size)
    (h : P.logicAt operation x y = some logic) {n : ℕ} {op : Operation} (hn : logic n = some op) :
    n < P.size := by
  rcases logicAt_cases h with ⟨-, rfl⟩ | ⟨-, -, rfl⟩ | ⟨-, -, -, -, rfl⟩
  · rw [Function.update_apply] at hn
    split at hn
    · next heq => exact heq ▸ hy
    · exact P.logic_lt n op hn
  · rw [Function.update_apply] at hn
    split at hn
    · next heq => exact heq ▸ hx
    · exact P.logic_lt n op hn
  · exact P.logic_lt n op hn

/-- A new result takes a slot, which is the first result of the operands that have none. -/
def result (P : Placement) (operation : Operation) (k : Reg) (x y : ℕ) (logic : ℕ → Option Operation)
    (hx : x < P.size) (hy : y < P.size) (h : P.logicAt operation x y = some logic) : Placement where
  size := P.size + 1
  slots := Function.update P.slots k (P.slots k ++ [P.size])
  logic := logic
  dest n := if n = x ∨ n = y then some ((P.dest n).getD P.size) else P.dest n
  made := Function.update P.made P.size (some (operation, x, y))
  slots_lt reg := slots_update_lt (Nat.le_succ _) (Nat.lt_succ_self _) k reg
  dest_lt n d hd := by
    split at hd
    · next hn =>
      refine ⟨by omega, ?_⟩
      cases hold : P.dest n with
      | none =>
        rw [hold, Option.some.injEq] at hd
        exact hd ▸ Nat.lt_succ_self _
      | some e =>
        rw [hold, Option.some.injEq] at hd
        exact hd ▸ (P.dest_lt n e hold).2.trans_le (Nat.le_succ _)
    · have hlt := P.dest_lt n d hd
      omega
  logic_lt n op hn := (logicAt_lt hx hy h hn).trans_le (Nat.le_succ _)
  made_lt d op a b hd := by
    rw [Function.update_apply] at hd
    split at hd
    · obtain ⟨-, rfl, rfl⟩ := Prod.mk.inj (Option.some.inj hd) |>.imp_right Prod.mk.inj
      omega
    · have hlt := P.made_lt d op a b hd
      omega

/-- The slot that both operands last went to, when there is one. -/
def commonDest (P : Placement) (x y : ℕ) : Option ℕ :=
  match P.dest x, P.dest y with
  | some d1, some d2 => if d1 = d2 then some d1 else none
  | _, _ => none

theorem commonDest_lt {d : ℕ} (h : P.commonDest x y = some d) : d < P.size := by
  unfold commonDest at h
  split at h
  · next d1 d2 h1 h2 =>
    split at h
    · obtain rfl := Option.some.inj h
      exact (P.dest_lt x d1 h1).2
    · cases h
  · cases h

/-- **An element**: the slot that both operands went to, if it was made of them by this operation, or
a new one. -/
def element (P : Placement) (operation : Operation) (k : Reg) (x y : ℕ) : Option Placement :=
  match hd : P.commonDest x y with
  | some d =>
    if P.made d = some (operation, x, y) ∨
        operation.isCommutative = true ∧ P.made d = some (operation, y, x) then
      some (P.reuse k d (commonDest_lt hd))
    else none
  | none =>
    match hl : P.logicAt operation x y with
    | some logic =>
      if hx : x < P.size then
        if hy : y < P.size then some (P.result operation k x y logic hx hy hl) else none
      else none
    | none => none

/-- **The outcomes of an element.** -/
theorem element_cases (h : P.element operation k x y = some P') :
    (∃ d hd, P.commonDest x y = some d ∧
      (P.made d = some (operation, x, y) ∨
        operation.isCommutative = true ∧ P.made d = some (operation, y, x)) ∧ P' = P.reuse k d hd) ∨
    (∃ logic hx hy hl, P.commonDest x y = none ∧ P' = P.result operation k x y logic hx hy hl) := by
  unfold element at h
  split at h
  · next d hd =>
    split at h
    · next hmade => exact .inl ⟨d, commonDest_lt hd, hd, hmade, (Option.some.inj h).symm⟩
    · cases h
  · next hd =>
    split at h
    · next logic hl =>
      split at h
      · next hx =>
        split at h
        · next hy => exact .inr ⟨logic, hx, hy, hl, hd, (Option.some.inj h).symm⟩
        · cases h
      · cases h
    · cases h

/-- The next slot is made of nothing. -/
theorem made_size (P : Placement) : P.made P.size = none := by
  cases h : P.made P.size with
  | none => rfl
  | some m => exact absurd (P.made_lt _ m.1 m.2.1 m.2.2 h).1 (Nat.lt_irrefl _)

/-! ### What is kept -/

/-- The second placement has the slots of the first one, made as they were. -/
structure Extends (P P' : Placement) : Prop where
  size_le : P.size ≤ P'.size
  made : ∀ d < P.size, P'.made d = P.made d

theorem Extends.refl (P : Placement) : P.Extends P := ⟨Nat.le_refl _, fun _ _ => rfl⟩

theorem Extends.trans {P₁ P₂ P₃ : Placement} (h₁ : P₁.Extends P₂) (h₂ : P₂.Extends P₃) : P₁.Extends P₃ :=
  ⟨h₁.size_le.trans h₂.size_le, fun d hd => (h₂.made d (hd.trans_le h₁.size_le)).trans (h₁.made d hd)⟩

theorem Extends.made_of_some (h : P.Extends P') {d : ℕ} {m : Operation × ℕ × ℕ} (hd : P.made d = some m) :
    P'.made d = some m := by
  obtain ⟨op, x, y⟩ := m
  rw [h.made d (P.made_lt d op x y hd).1, hd]

theorem extends_load (P : Placement) (k : Reg) : P.Extends (P.load k) := ⟨Nat.le_succ _, fun _ _ => rfl⟩

/-- An element keeps the slots, and adds one, made of its operands, to those of its register. -/
theorem extends_element (h : P.element operation k x y = some P') :
    P.Extends P' ∧ ∃ d, P'.slots = Function.update P.slots k (P.slots k ++ [d]) ∧
      (P'.made d = some (operation, x, y) ∨
        operation.isCommutative = true ∧ P'.made d = some (operation, y, x)) := by
  rcases element_cases h with ⟨d, hd, -, hmade, rfl⟩ | ⟨logic, hx, hy, hl, -, rfl⟩
  · exact ⟨⟨Nat.le_refl _, fun _ _ => rfl⟩, d, rfl, hmade⟩
  · exact ⟨⟨Nat.le_succ _, fun d hd => Function.update_of_ne (Nat.ne_of_lt hd) _ _⟩, P.size, rfl,
      .inl (Function.update_self _ _ _)⟩

/-! ### The entries -/

variable {I : BinderInput} {T : InstructionTable} {d : InstructionData} {row1 row2 : ℕ → Option ℕ} {is : List ℕ}

/-- The element of index `i` of a fully parallel operation. -/
def elementAt (operation : Operation) (k : Reg) (row1 row2 : ℕ → Option ℕ) (P : Placement) (i : ℕ) :
    Option Placement := do
  let x ← row1 i
  let y ← row2 i
  P.element operation k x y

/-- The rows of a load. -/
def loads (P : Placement) (k : Reg) (numIter : ℕ) : Placement := (List.range numIter).foldl (fun P _ => P.load k) P

/-- A fully parallel operation: the slots of its sources, pair by pair. -/
def operationEntry (I : BinderInput) (P : Placement) (k : Reg) (d : InstructionData) : Option Placement :=
  if P.slots d.sourceReg1 = [] ∨ P.slots d.sourceReg2 = [] then none
  else do
    let size1 ← (I.source1 k d).size (P.slots d.sourceReg1)
    let size2 ← (I.source2 k d).size (P.slots d.sourceReg2)
    run (elementAt d.operation k ((I.source1 k d).row (P.slots d.sourceReg1) size1)
      ((I.source2 k d).row (P.slots d.sourceReg2) size2)) P (List.range (if size1 ≥ size2 then size1 else size2))

/-- **One entry of the table.** -/
def entry (I : BinderInput) (P : Placement) (k : Reg) (d : InstructionData) : Option Placement :=
  if d.operation = .load then (I.numIter k).map fun numIter => P.loads k numIter.toNat
  else if d.operation.isBound ∧ d.operation.isShift = false ∧ d.isAccumulation = false then P.operationEntry I k d
  else none

/-- One iteration of the loop over the table. -/
def step (I : BinderInput) (T : InstructionTable) (P : Placement) (e : Reg × Operation) : Option Placement :=
  (T.find e.1).bind (P.entry I e.1)

/-- **The placement of a table**: its entries, in their order. -/
def ofTable (I : BinderInput) (T : InstructionTable) : Option Placement :=
  run (step I T) empty T.instructionOrderVector

/-- Slots, one for each index, made of the slots with that index. -/
def MadeFrom (P : Placement) (operation : Operation) (row1 row2 : ℕ → Option ℕ) (slots is : List ℕ) : Prop :=
  List.Forall₂ (fun s i => ∃ x y, row1 i = some x ∧ row2 i = some y ∧ (P.made s = some (operation, x, y) ∨
    operation.isCommutative = true ∧ P.made s = some (operation, y, x))) slots is

theorem MadeFrom.mono {slots : List ℕ} (h : P.MadeFrom operation row1 row2 slots is) (he : P.Extends P') :
    P'.MadeFrom operation row1 row2 slots is := by
  refine h.imp fun s i ⟨x, y, hx, hy, hmade⟩ => ⟨x, y, hx, hy, ?_⟩
  exact hmade.imp he.made_of_some (And.imp_right he.made_of_some)

/-- The elements of an operation add slots, made of those of its sources, to those of its register. -/
theorem made_of_elements (h : run (elementAt operation k row1 row2) P is = some P') :
    P.Extends P' ∧ ∃ slots, P'.slots = Function.update P.slots k (P.slots k ++ slots) ∧
      P'.MadeFrom operation row1 row2 slots is := by
  refine run_induction (P := fun is P' => P.Extends P' ∧ ∃ slots,
    P'.slots = Function.update P.slots k (P.slots k ++ slots) ∧ P'.MadeFrom operation row1 row2 slots is) ?_ ?_ h
  · exact ⟨.refl P, [], by rw [List.append_nil, Function.update_eq_self], .nil⟩
  · rintro is P₁ i P₂ - ⟨he, slots, hslots, hmade⟩ hstep
    obtain ⟨x, hx, hstep⟩ := Option.bind_eq_some_iff.mp hstep
    obtain ⟨y, hy, hstep⟩ := Option.bind_eq_some_iff.mp hstep
    obtain ⟨he₂, s, hslots₂, hs⟩ := extends_element hstep
    refine ⟨he.trans he₂, slots ++ [s], ?_, ?_⟩
    · rw [hslots₂, hslots, Function.update_self, Function.update_idem, List.append_assoc]
    · exact List.rel_append (hmade.mono he₂) (.cons ⟨x, y, hx, hy, hs⟩ .nil)

/-- The rows of a load are slots made of nothing. -/
theorem extends_loads (P : Placement) (k : Reg) (numIter : ℕ) :
    P.Extends (P.loads k numIter) ∧ (∀ reg, reg ≠ k → (P.loads k numIter).slots reg = P.slots reg) ∧
      ∀ d ∈ (P.loads k numIter).slots k, d ∈ P.slots k ∨ (P.loads k numIter).made d = none := by
  unfold loads
  induction List.range numIter using List.reverseRecOn with
  | nil => exact ⟨.refl P, fun _ _ => rfl, fun d hd => .inl hd⟩
  | append_singleton is i ih =>
    rw [List.foldl_append, List.foldl_cons, List.foldl_nil]
    obtain ⟨he, hother, hmade⟩ := ih
    refine ⟨he.trans (extends_load _ k), fun reg hreg => ?_, fun d hd => ?_⟩
    · exact (Function.update_of_ne hreg _ _).trans (hother reg hreg)
    · have hslots : ∀ P : Placement, (P.load k).slots k = P.slots k ++ [P.size] := fun P => Function.update_self _ _ _
      rw [hslots] at hd
      rcases List.mem_append.mp hd with hd | hd
      · exact hmade d hd
      · rw [List.mem_singleton.mp hd]
        exact .inr (made_size _)

/-- **An entry keeps the slots**, and those of the other registers. -/
theorem extends_entry (h : P.entry I k d = some P') :
    P.Extends P' ∧ ∀ reg, reg ≠ k → P'.slots reg = P.slots reg := by
  unfold entry at h
  split at h
  · obtain ⟨numIter, -, rfl⟩ := Option.map_eq_some_iff.mp h
    exact (extends_loads P k numIter.toNat).imp_right And.left
  split at h
  · unfold operationEntry at h
    split at h
    · cases h
    · obtain ⟨size1, -, h⟩ := Option.bind_eq_some_iff.mp h
      obtain ⟨size2, -, h⟩ := Option.bind_eq_some_iff.mp h
      obtain ⟨he, slots, hslots, -⟩ := made_of_elements h
      exact ⟨he, fun reg hreg => by rw [hslots, Function.update_of_ne hreg]⟩
  · cases h

/-- The slots of the register of an entry are made of those of its sources. -/
theorem made_of_entry (h : P.entry I k d = some P') (hload : d.operation ≠ .load) (hnew : P.slots k = []) :
    P.slots d.sourceReg1 ≠ [] ∧ P.slots d.sourceReg2 ≠ [] ∧
      ∃ size1 size2, (I.source1 k d).size (P.slots d.sourceReg1) = some size1 ∧
        (I.source2 k d).size (P.slots d.sourceReg2) = some size2 ∧
        P'.MadeFrom d.operation ((I.source1 k d).row (P.slots d.sourceReg1) size1)
          ((I.source2 k d).row (P.slots d.sourceReg2) size2) (P'.slots k)
            (List.range (if size1 ≥ size2 then size1 else size2)) := by
  rw [entry, if_neg hload] at h
  split at h
  · unfold operationEntry at h
    split at h
    · cases h
    · next hsome =>
      rw [not_or] at hsome
      obtain ⟨size1, hsize1, h⟩ := Option.bind_eq_some_iff.mp h
      obtain ⟨size2, hsize2, h⟩ := Option.bind_eq_some_iff.mp h
      obtain ⟨-, slots, hslots, hmade⟩ := made_of_elements h
      rw [hnew, List.nil_append] at hslots
      refine ⟨hsome.1, hsome.2, size1, size2, hsize1, hsize2, ?_⟩
      rw [hslots, Function.update_self]
      exact hmade
  · cases h

/-! ### The table -/

variable {entries : List (Reg × Operation)} {e : Reg × Operation}

/-- A loop over entries keeps the slots, and those of the registers of no entry. -/
theorem extends_run (h : run (step I T) P entries = some P') :
    P.Extends P' ∧ ∀ reg, reg ∉ entries.map (·.1) → P'.slots reg = P.slots reg := by
  refine run_induction (P := fun entries P' => P.Extends P' ∧
    ∀ reg, reg ∉ entries.map (·.1) → P'.slots reg = P.slots reg) ⟨.refl P, fun _ _ => rfl⟩ ?_ h
  rintro entries P₁ e P₂ - ⟨he, hslots⟩ hstep
  obtain ⟨d, -, hentry⟩ := Option.bind_eq_some_iff.mp hstep
  obtain ⟨he₂, hslots₂⟩ := extends_entry hentry
  refine ⟨he.trans he₂, fun reg hreg => ?_⟩
  simp only [List.map_append, List.map_cons, List.map_nil, List.mem_append, List.mem_singleton, not_or] at hreg
  rw [hslots₂ reg hreg.2, hslots reg hreg.1]

/-- A register of a table that lists no register twice has the slots that its entry gives it, and so
have those that have some before it. -/
theorem exists_entry_of_table (h : ofTable I T = some P) (hnodup : (T.instructionOrderVector.map (·.1)).Nodup)
    (he : e ∈ T.instructionOrderVector) (hd : T.find e.1 = some d) :
    ∃ P₁ P₂ : Placement, P₁.entry I e.1 d = some P₂ ∧ P₁.slots e.1 = [] ∧ P.slots e.1 = P₂.slots e.1 ∧ P₂.Extends P ∧
      ∀ reg, P₁.slots reg ≠ [] → P.slots reg = P₁.slots reg := by
  obtain ⟨before, after, hsplit⟩ := List.append_of_mem he
  rw [ofTable, hsplit, run_append] at h
  obtain ⟨P₁, hbefore, h⟩ := Option.bind_eq_some_iff.mp h
  rw [run_cons] at h
  obtain ⟨P₂, hstep, hafter⟩ := Option.bind_eq_some_iff.mp h
  rw [step, hd, Option.bind_some] at hstep
  rw [hsplit, List.map_append, List.map_cons, List.nodup_append, List.nodup_cons] at hnodup
  obtain ⟨-, ⟨hnot, -⟩, hdisjoint⟩ := hnodup
  obtain ⟨-, hslots₁⟩ := extends_run hbefore
  obtain ⟨hext, hslots⟩ := extends_run hafter
  refine ⟨P₁, P₂, hstep, ?_, hslots e.1 hnot, hext, fun reg hreg => ?_⟩
  · exact hslots₁ e.1 fun hmem => hdisjoint e.1 hmem e.1 List.mem_cons_self rfl
  · -- the register was bound before the entry, hence not after it
    have hmem : reg ∈ before.map (·.1) := by
      by_contra hnot
      exact hreg (hslots₁ reg hnot)
    rw [hslots reg fun hin => hdisjoint reg hmem reg (List.mem_cons_of_mem _ hin) rfl,
      (extends_entry hstep).2 reg fun heq => hdisjoint reg hmem e.1 List.mem_cons_self heq]

/-- The slots of every load of the table are made of nothing. -/
theorem made_of_load (h : ofTable I T = some P) (hnodup : (T.instructionOrderVector.map (·.1)).Nodup)
    (he : e ∈ T.instructionOrderVector) (hd : T.find e.1 = some d) (hload : d.operation = .load) :
    ∀ n ∈ P.slots e.1, P.made n = none := by
  obtain ⟨P₁, P₂, hentry, hnew, hslots, hext, -⟩ := exists_entry_of_table h hnodup he hd
  rw [entry, if_pos hload] at hentry
  obtain ⟨numIter, -, rfl⟩ := Option.map_eq_some_iff.mp hentry
  rw [hslots]
  intro n hn
  have hmade := ((extends_loads P₁ e.1 numIter.toNat).2.2 n hn).resolve_left (hnew ▸ List.not_mem_nil)
  rw [hext.made n (slots_lt _ _ n hn), hmade]

/-- **The slots of every operation of the table** are made of those of its sources, when no register
is listed twice. -/
theorem made_of_table (h : ofTable I T = some P) (hnodup : (T.instructionOrderVector.map (·.1)).Nodup)
    (he : e ∈ T.instructionOrderVector) (hd : T.find e.1 = some d) (hload : d.operation ≠ .load) :
    P.slots d.sourceReg1 ≠ [] ∧ P.slots d.sourceReg2 ≠ [] ∧
      ∃ size1 size2, (I.source1 e.1 d).size (P.slots d.sourceReg1) = some size1 ∧
        (I.source2 e.1 d).size (P.slots d.sourceReg2) = some size2 ∧
        P.MadeFrom d.operation ((I.source1 e.1 d).row (P.slots d.sourceReg1) size1)
          ((I.source2 e.1 d).row (P.slots d.sourceReg2) size2) (P.slots e.1)
            (List.range (if size1 ≥ size2 then size1 else size2)) := by
  obtain ⟨P₁, P₂, hentry, hnew, hslots, hext, hsame⟩ := exists_entry_of_table h hnodup he hd
  obtain ⟨h1, h2, size1, size2, hsize1, hsize2, hmade⟩ := made_of_entry hentry hload hnew
  rw [hsame _ h1, hsame _ h2, hslots]
  exact ⟨h1, h2, size1, size2, hsize1, hsize2, hmade.mono hext⟩

end Placement

end Octantis
