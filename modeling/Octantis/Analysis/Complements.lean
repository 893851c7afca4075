import Mathlib.Data.BitVec
import Octantis.Analysis.LastUsedRegMap
import Octantis.Analysis.Operands

/-!
# The complements

`~x` is `x ^ -1`. The detector holds a logic operator with the constant `-1` back and
folds it into the next one: `isNegated` says that a complement waits, and only a
`xor`, an `and` or an `or` whose second operand is that complement ends the wait.

## The model

`LogicForm` is the values assigned: a logic operator of two variables, of a variable
and a constant or with one complement, and a sum. `Executes` says that a word for each
LLVM value is an execution of the program, and `ComputesValue` that the operation of an
entry gives, on the words of its sources, the word of a register.

## What is proved

* `run_xnorExpr`: `x ^ ~y` is inserted as the `xnor` of what supplies `x` and `y`;
* `run_keptProgram`: a program whose statements are all kept has an entry for each, which
  computes its value in every execution;
* `run_lostProgram`: the first statement that is not kept never gets an entry;
* `complements_computed_iff`: every statement has an entry that computes its value exactly
  when all of them are kept.

## Honest scope

`~x` alone is never inserted, and while it waits the operators after it are not either
(`complement_not_recorded`); `x & ~y` reads `tmpSrcReg2`, which nothing has assigned.
-/

namespace Octantis

open Std Lib

/-! ### Words -/

/-- What a binary operator computes. -/
def Opcode.word (w : ℕ) : Opcode → Option (BitVec w → BitVec w → BitVec w)
  | .add => some (· + ·)
  | .sub => some (· - ·)
  | .mul => some (· * ·)
  | .and => some (· &&& ·)
  | .or => some (· ||| ·)
  | .xor => some (· ^^^ ·)
  | _ => none

/-- What the operation of an entry computes: `nand`, `nor` and `xnor` are the complements. -/
def Operation.word (w : ℕ) : Operation → Option (BitVec w → BitVec w → BitVec w)
  | .add => some (· + ·)
  | .sub => some (· - ·)
  | .mul => some (· * ·)
  | .and => some (· &&& ·)
  | .or => some (· ||| ·)
  | .xor => some (· ^^^ ·)
  | .nand => some fun a b => ~~~(a &&& b)
  | .nor => some fun a b => ~~~(a ||| b)
  | .xnor => some fun a b => ~~~(a ^^^ b)
  | _ => none

theorem Opcode.word_operation (w : ℕ) {opcode : Opcode} {f : BitVec w → BitVec w → BitVec w}
    (h : opcode.word w = some f) : opcode.operation.word w = some f := by
  cases opcode with
  | sdiv | shl | lshr | ashr | unrecognised => cases h
  | add | sub | mul | and | or | xor => exact h

section Execution

variable {w : ℕ} (word : Reg → BitVec w)

/-- `word` gives every value of the expression the word it holds when the variables hold `mem`. -/
def Expr.Holds (mem : Reg → BitVec w) : Expr → Prop
  | const address sExtValue => word address = BitVec.ofInt w sExtValue
  | var allocated result => word result = mem allocated
  | op result opcode l r => l.Holds mem ∧ r.Holds mem ∧
      ∃ f, opcode.word w = some f ∧ word result = f (word l.operand.address) (word r.operand.address)

/-- `word` gives every value of the program the word it holds in an execution that starts with the
variables at `mem`. -/
def Executes : (Reg → BitVec w) → List (Reg × Statement) → Prop
  | _, [] => True
  | mem, st :: rest => st.2.value.Holds word mem ∧
      Executes (Function.update mem st.2.dest (word st.2.value.operand.address)) rest

end Execution

/-- The entry computes the word of the register from those of its sources, in every execution of the
program: the word of a variable is the one it holds at the start. -/
def ComputesValue (program : List (Reg × Statement)) (entry : Operation × Reg × Reg) (reg : Reg) : Prop :=
  ∀ (w : ℕ) (word : Reg → BitVec w), Executes word word program →
    ∃ f, entry.1.word w = some f ∧ f (word entry.2.1) (word entry.2.2) = word reg

/-! ### The statements -/

/-- The values assigned: `x op y`, `x + y`, `x op c` (of which `~x` is one: `x ^ -1`), `x op ~y` and
`~x op y`. -/
inductive LogicForm : Expr → Prop
  | binary {result x rx y ry : Reg} {opcode : Opcode} (h : opcode.isLogic = true) :
    LogicForm (.op result opcode (.var x rx) (.var y ry))
  | sum {result x rx y ry : Reg} : LogicForm (.op result .add (.var x rx) (.var y ry))
  | constant {result x rx c : Reg} {sExtValue : ℤ} {opcode : Opcode} (h : opcode.isLogic = true) :
    LogicForm (.op result opcode (.var x rx) (.const c sExtValue))
  | complementRight {result x rx n y ry c : Reg} {opcode : Opcode} (h : opcode.isLogic = true) :
    LogicForm (.op result opcode (.var x rx) (.op n .xor (.var y ry) (.const c (-1))))
  | complementLeft {result x rx n y ry c : Reg} {opcode : Opcode} (h : opcode.isLogic = true) :
    LogicForm (.op result opcode (.op n .xor (.var x rx) (.const c (-1))) (.var y ry))

/-- The values that the detector keeps: no constant is `-1`, but for the complement of the second
operand of a `xor`. -/
def Expr.isKept : Expr → Bool
  | op _ _ (var _ _) (var _ _) => true
  | op _ _ (var _ _) (const _ sExtValue) => sExtValue ≠ -1
  | op _ opcode (var _ _) (op _ _ _ _) => opcode = .xor
  | _ => false

namespace DependencyDetector

variable {info : CollectInfo} {s s₁ s' : DependencyDetector} {BB result : Reg} {opcode : Opcode}
  {operand0 operand1 : Operand}

/-! ### The complements held back -/

/-- An operator whose recognition leaves a complement waiting is not inserted. -/
theorem step_held (hresult : result ∉ info.combinedIterators)
    (h : s.recogniseOperation result opcode operand0 operand1 = some s₁) (hneg : s₁.isNegated = true) :
    step info s (BB, .binaryOperator result opcode operand0 operand1) = some s₁ := by
  have hvalid : info.isValidInst (.binaryOperator result opcode operand0 operand1) = true := by
    simp [CollectInfo.isValidInst, hresult]
  rw [step, if_pos hvalid]
  show s.handleBinaryOperator info (info.isLoopBody BB) result opcode operand0 operand1 = _
  rw [handleBinaryOperator, h, Option.bind_some, if_pos hneg]

/-- The state after a complement made by a `xor`. -/
def held (s : DependencyDetector) (result : Reg) : DependencyDetector :=
  { s with operation := .xor, isNegated := true, tmpLogicOperatorDestReg := some result }

/-- A `xor` with the constant `-1` is a complement. -/
theorem recogniseOperation_complement (s : DependencyDetector) (result : Reg) (operand0 : Operand) (c : Reg) :
    s.recogniseOperation result .xor operand0 (.constantInt c (-1)) = some (s.held result) := by
  simp [recogniseOperation, recogniseXor, held]

/-- So is every logic operator. -/
theorem recogniseOperation_minusOne (hop : opcode.isLogic = true) (s : DependencyDetector) (result : Reg)
    (operand0 : Operand) (c : Reg) :
    ∃ s₁, s.recogniseOperation result opcode operand0 (.constantInt c (-1)) = some s₁ ∧
      s₁.isNegated = true ∧ s₁.IM = s.IM := by
  have hlogic : ∀ operation negated, ∃ s₁,
      s.recogniseLogic operation negated result operand0 (.constantInt c (-1)) = some s₁ ∧
        s₁.isNegated = true ∧ s₁.IM = s.IM := by
    intro operation negated
    unfold recogniseLogic
    simp only [if_true]
    exact ⟨_, rfl, rfl, rfl⟩
  cases opcode with
  | and => exact hlogic .and .nand
  | or => exact hlogic .or .nor
  | xor => exact ⟨_, recogniseOperation_complement s result operand0 c, rfl, rfl⟩
  | _ => cases hop

/-- A complement goes on waiting past an operator whose second operand is another value. -/
theorem recogniseOperation_waiting (hop : opcode.isLogic = true) {address : Reg}
    (hneg : s.isNegated = true) (hne : s.tmpLogicOperatorDestReg ≠ some address) (result : Reg)
    (operand0 : Operand) :
    ∃ s₁, s.recogniseOperation result opcode operand0 (.value address) = some s₁ ∧
      s₁.isNegated = true ∧ s₁.IM = s.IM := by
  have hlogic : ∀ operation negated, s.recogniseLogic operation negated result operand0 (.value address) =
      some { s with operation := operation } := by
    intro operation negated
    unfold recogniseLogic
    simp only [hne, and_false, if_false]
  cases opcode with
  | and => exact ⟨_, hlogic .and .nand, hneg, rfl⟩
  | or => exact ⟨_, hlogic .or .nor, hneg, rfl⟩
  | xor =>
    refine ⟨{ s with operation := .xor }, ?_, hneg, rfl⟩
    simp only [recogniseOperation, recogniseXor, hne, and_false, if_false]
  | _ => cases hop

/-- An `and` or an `or` of a complement reads `tmpSrcReg2`, which only a complement made by an `and`
or an `or` assigns. -/
theorem recogniseOperation_unset (hop : opcode.isLogic = true) (hxor : opcode ≠ .xor) {address : Reg}
    (hneg : s.isNegated = true) (heq : s.tmpLogicOperatorDestReg = some address)
    (hunset : s.tmpSrcReg2 = none)
    (result : Reg) (operand0 : Operand) :
    s.recogniseOperation result opcode operand0 (.value address) = none := by
  have hlogic : ∀ operation negated,
      s.recogniseLogic operation negated result operand0 (.value address) = none := by
    intro operation negated
    unfold recogniseLogic
    simp only [hneg, heq, hunset, and_self, if_true, Option.map_none]
  cases opcode with
  | and => exact hlogic .and .nand
  | or => exact hlogic .or .nor
  | xor => exact absurd rfl hxor
  | _ => cases hop

/-- Such an operator has no defined outcome. -/
theorem step_unset (hop : opcode.isLogic = true) (hxor : opcode ≠ .xor) {address : Reg}
    (hneg : s.isNegated = true) (heq : s.tmpLogicOperatorDestReg = some address)
    (hunset : s.tmpSrcReg2 = none) :
    step info s (BB, .binaryOperator result opcode operand0 (.value address)) = none := by
  have hvalid : info.isValidInst (.binaryOperator result opcode operand0 (.value address)) = true := by
    cases opcode with
    | and | or | xor => simp [CollectInfo.isValidInst]
    | _ => cases hop
  rw [step, if_pos hvalid]
  show s.handleBinaryOperator info (info.isLoopBody BB) result opcode operand0 (.value address) = none
  rw [handleBinaryOperator, recogniseOperation_unset hop hxor hneg heq hunset, Option.bind_none]

/-- A `xor` of a complement is an `xnor`. -/
theorem recogniseOperation_xnor {address : Reg} (hneg : s.isNegated = true)
    (heq : s.tmpLogicOperatorDestReg = some address) (result : Reg) (operand0 : Operand) :
    s.recogniseOperation result .xor operand0 (.value address) =
      some { s with operation := .xnor, isNegated := false } := by
  simp [recogniseOperation, recogniseXor, hneg, heq]

/-! ### The statements that are kept -/

variable {x rx n y ry c : Reg} {supply : Reg → Reg}

/-- The value of `x ^ ~y`. -/
def xnorExpr (result x rx n y ry c : Reg) : Expr :=
  .op result .xor (.var x rx) (.op n .xor (.var y ry) (.const c (-1)))

/-- **The code of `x ^ ~y`**: the complement waits for the second `xor`, which is inserted as an
`xnor`. -/
theorem run_xnorExpr (BB : Reg) (hs : s.Ready) (he : (xnorExpr result x rx n y ry c).IsScalar info)
    (ha : (xnorExpr result x rx n y ry c).Addressed s.getRealSrcReg supply) :
    ∃ s' d, run (step info) s (exprCode BB (xnorExpr result x rx n y ry c)) = some s' ∧ s'.Clean ∧
      s'.loadCount = 2 ∧ s'.lastUsedRegMap = s.lastUsedRegMap ∧ s'.tmpSrcReg2 = s.tmpSrcReg2 ∧
      s'.destReg = result ∧ s'.operation = .xnor ∧
      IsEntry d .xnor result (s.getRealSrcReg x, s.getRealSrcReg y) (info.isLoopBody BB) ∧
      s'.IM = ((s.IM.insertLoadInstruction x .singleVariable).insertLoadInstruction y .singleVariable
        ).insertInstruction d := by
  have hx := he.vars x (by simp [xnorExpr, Expr.vars])
  have hy := he.vars y (by simp [xnorExpr, Expr.vars])
  have hn : n ∉ info.combinedIterators := he.results n (by simp [xnorExpr, Expr.results])
  have hresult : result ∉ info.combinedIterators := he.results result (by simp [xnorExpr, Expr.results])
  have hrx : rx ≠ nullptr := (ha.results rx (by simp [xnorExpr, Expr.results])).1
  have hnn : n ≠ nullptr := (ha.results n (by simp [xnorExpr, Expr.results])).1
  let xnor : DependencyDetector := { ((s.loaded x).loaded y).held n with operation := .xnor, isNegated := false }
  have hclean : xnor.Clean :=
    ⟨rfl, hs.tmpPtrSrc1, hs.tmpPtrSrc2, hs.tmpPtrDest, Nat.succ_le_succ (Nat.succ_le_succ hs.loadCount)⟩
  obtain ⟨d, hd, hinsert⟩ := handleInstructionInserting_of_clean info hclean
    ⟨by simp [xnor], by simp [xnor]⟩ (info.isLoopBody BB) result (.value rx) (.value n)
  have hsources : xnor.sources (.value rx) (.value n) = (s.getRealSrcReg x, s.getRealSrcReg y) := by
    rw [sources, if_neg]
    · simp [slot, xnor, held, loaded, hs.noLoads]
      rfl
    · show ¬ (rx = s.destReg ∨ n = s.destReg)
      rw [hs.destReg]
      exact not_or.mpr ⟨hrx, hnn⟩
  have hheld : step info ((s.loaded x).loaded y) (BB, .binaryOperator n .xor (.value ry) (.constantInt c (-1))) =
      some (((s.loaded x).loaded y).held n) :=
        step_held hn (recogniseOperation_complement _ n (.value ry) c) rfl
  have hxnor : step info (((s.loaded x).loaded y).held n) (BB, .binaryOperator result .xor (.value rx) (.value n)) =
      some (xnor.inserted d xnor.accumulationValidityCount) := by
    have hvalid : info.isValidInst (.binaryOperator result .xor (.value rx) (.value n)) = true := by
      simp [CollectInfo.isValidInst]
    rw [step, if_pos hvalid]
    show (((s.loaded x).loaded y).held n).handleBinaryOperator info (info.isLoopBody BB) result .xor (.value rx) (.value n) = _
    rw [handleBinaryOperator, recogniseOperation_xnor rfl rfl, Option.bind_some]
    exact hinsert
  refine ⟨xnor.inserted d xnor.accumulationValidityCount, d, ?_,
    ⟨rfl, rfl, rfl, hs.tmpPtrDest, hclean.loadCount⟩, ?_, rfl, rfl, hd.destinationReg, hd.operation,
    hsources ▸ hd, rfl⟩
  · show (step info s (BB, .load rx x)).bind (fun s₁ => (step info s₁ (BB, .load ry y)).bind fun s₂ =>
      (step info s₂ (BB, .binaryOperator n .xor (.value ry) (.constantInt c (-1)))).bind fun s₃ =>
      (step info s₃ (BB, .binaryOperator result .xor (.value rx) (.value n))).bind some) = _
    rw [step_load hx, Option.bind_some, step_load hy, Option.bind_some, hheld, Option.bind_some, hxnor,
      Option.bind_some]
  · show s.loadCount + 1 + 1 = 2
    rw [hs.noLoads]

/-- **The assignment of `x ^ ~y`.** -/
theorem run_assignment_xnor (BB : Reg) {dest : Reg} (hs : s.Ready) (hdest : info.IsScalar dest)
    (he : (xnorExpr result x rx n y ry c).IsScalar info)
    (ha : (xnorExpr result x rx n y ry c).Addressed s.getRealSrcReg supply)
    (hfresh : s.IM.find result = none) :
    ∃ s', run (step info) s (assignmentCode (BB, ⟨dest, xnorExpr result x rx n y ry c⟩)) = some s' ∧
      Assigns ⟨dest, xnorExpr result x rx n y ry c⟩ s s' ∧
      s'.IM.recorded result = some (.xnor, s.getRealSrcReg x, s.getRealSrcReg y) := by
  obtain ⟨s₁, d, hrun, hclean, hcount, hlast, htmp, hd, hop, hentry, hIM⟩ := run_xnorExpr BB hs he ha
  have hvars := (ha.results result (by simp [xnorExpr, Expr.results])).2
  simp only [xnorExpr, Expr.vars, List.mem_append, List.mem_singleton, List.not_mem_nil, or_false,
    not_or] at hvars
  have hkey : d.destinationReg = result := hentry.destinationReg
  -- the entries that were there before, and the others
  have hold : ∀ k p, s.IM.find k = some p → s₁.IM.find k = some p := by
    intro k p hk
    rw [hIM, InstructionTable.find_insertInstruction, InstructionTable.find_insertLoadInstruction,
      InstructionTable.find_insertLoadInstruction]
    simp [hk]
  have hother : ∀ k, k ≠ x → k ≠ y → k ≠ result → s₁.IM.find k = s.IM.find k := by
    intro k hkx hky hkr
    rw [hIM, InstructionTable.find_insertInstruction, InstructionTable.find_insertLoadInstruction,
      InstructionTable.find_insertLoadInstruction, hkey]
    simp [hkx, hky, hkr]
  have hfind : s₁.IM.find result = some d := by
    rw [hIM, InstructionTable.find_insertInstruction, InstructionTable.find_insertLoadInstruction,
      InstructionTable.find_insertLoadInstruction, hkey]
    simp [hvars.1, hvars.2, hfresh]
  obtain ⟨IM, hstep, hrec⟩ := step_store_op BB (.value result) hdest hclean
    (by simp [hop]) (hd ▸ hfind)
  have hsame : ∀ k, IM.recorded k = s₁.IM.recorded k := fun k => by
    rw [hrec k, if_neg]
    rintro ⟨-, hswap⟩
    exact absurd hswap.1 (by omega)
  refine ⟨endStore { s₁ with IM := IM } dest, ?_,
    ⟨ready_endStore (by exact hclean.isNegated) dest, fun v => ?_, htmp, fun k p hk => ?_,
      fun k hv hr => ?_⟩, ?_⟩
  · have hcode : assignmentCode (BB, ⟨dest, xnorExpr result x rx n y ry c⟩) =
        exprCode BB (xnorExpr result x rx n y ry c) ++ [(BB, .store (.value result) dest)] := by
      simp [assignmentCode, Statement.code, exprCode, Expr.operand, xnorExpr]
    rw [hcode, run_snoc hrun, hstep]
  · rw [getRealSrcReg_endStore]
    have hreal : getRealSrcReg { s₁ with IM := IM } v = s.getRealSrcReg v := by
      simp only [DependencyDetector.getRealSrcReg, hlast]
    rw [hreal]
    simp only [hd]
    rfl
  · show IM.recorded k = some p
    obtain ⟨d', hd', rfl⟩ := Option.map_eq_some_iff.mp hk
    rw [hsame, InstructionTable.recorded, hold k d' hd']
    rfl
  · show IM.recorded k = s.IM.recorded k
    simp only [xnorExpr, Expr.vars, Expr.results, List.mem_append, List.mem_singleton,
      List.not_mem_nil, or_false, not_or] at hv hr
    rw [hsame, InstructionTable.recorded, hother k hv.1 hv.2 hr.2]
    rfl
  · show IM.recorded result = _
    rw [hsame, InstructionTable.recorded, hfind, Option.map_some, hentry.operation]
    have hsources := hentry.sources
    rw [Prod.mk.injEq] at hsources
    rw [hsources.1, hsources.2]

end DependencyDetector

/-- The entry computes the value of the expression, when the variables hold what supplies them. -/
def EntryComputes (supply : Reg → Reg) (e : Expr) (entry : Operation × Reg × Reg) : Prop :=
  ∀ (w : ℕ) (word mem : Reg → BitVec w), (∀ v ∈ e.vars, mem v = word (supply v)) → e.Holds word mem →
    ∃ f, entry.1.word w = some f ∧ f (word entry.2.1) (word entry.2.2) = word e.operand.address

/-- What supplies an operand holds its value. -/
theorem Expr.Holds.word_key {w : ℕ} {word mem : Reg → BitVec w} {supply : Reg → Reg} {e : Expr}
    (h : e.Holds word mem) (hmem : ∀ v ∈ e.vars, mem v = word (supply v)) :
    word (e.key supply) = word e.operand.address := by
  cases e with
  | const address sExtValue => rfl
  | var allocated result =>
    show word (supply allocated) = word result
    rw [← hmem allocated (by simp [Expr.vars])]
    exact Eq.symm h
  | op result opcode l r => rfl

/-- An operator recorded with what supplies its operands computes its value. -/
theorem entryComputes_op (supply : Reg → Reg) (result : Reg) (opcode : Opcode) (l r : Expr) :
    EntryComputes supply (.op result opcode l r) (opcode.operation, l.key supply, r.key supply) := by
  intro w word mem hmem hholds
  obtain ⟨hl, hr, f, hf, hword⟩ := hholds
  refine ⟨f, Opcode.word_operation w hf, ?_⟩
  have hkeyl := hl.word_key fun v hv => hmem v (by simp [Expr.vars, hv])
  have hkeyr := hr.word_key fun v hv => hmem v (by simp [Expr.vars, hv])
  rw [hkeyl, hkeyr]
  exact hword.symm

/-- The `xnor` of `x` and `y` computes `x ^ ~y`. -/
theorem entryComputes_xnor (supply : Reg → Reg) (result x rx n y ry c : Reg) :
    EntryComputes supply (DependencyDetector.xnorExpr result x rx n y ry c) (.xnor, supply x, supply y) := by
  intro w word mem hmem hholds
  obtain ⟨hx, ⟨hy, hc, g, hg, hn⟩, f, hf, hword⟩ := hholds
  cases hf
  cases hg
  refine ⟨_, rfl, ?_⟩
  have hkeyx : word (supply x) = word rx := by
    rw [← hmem x (by simp [DependencyDetector.xnorExpr, Expr.vars])]
    exact Eq.symm hx
  have hkeyy : word (supply y) = word ry := by
    rw [← hmem y (by simp [DependencyDetector.xnorExpr, Expr.vars])]
    exact Eq.symm hy
  have hc' : word c = BitVec.allOnes w := by
    rw [show word c = BitVec.ofInt w (-1) from hc, BitVec.ofInt_neg]
    exact BitVec.neg_one_eq_allOnes
  show ~~~(word (supply x) ^^^ word (supply y)) = word result
  rw [hkeyx, hkeyy, show word result = word rx ^^^ word n from hword,
    show word n = word ry ^^^ word c from hn, hc', BitVec.xor_allOnes, BitVec.not_xor_right]

namespace DependencyDetector

variable {info : CollectInfo} {s s' : DependencyDetector} {BB : Reg} {supply : Reg → Reg}
  {st : Reg × Statement} {rest program : List (Reg × Statement)}

/-- A value that is kept is an operator over two leaves, of which no constant is `-1`, or `x ^
~y`. -/
theorem kept_cases {e : Expr} (hform : LogicForm e) (hkept : e.isKept = true) :
    (∃ result opcode l r, e = .op result opcode l r ∧ e.NoMinusOne ∧ e.inOrder = true) ∨
      ∃ result x rx n y ry c, e = xnorExpr result x rx n y ry c := by
  cases hform with
  | binary hop => exact .inl ⟨_, _, _, _, rfl, by simp [Expr.NoMinusOne, Expr.constants], rfl⟩
  | sum => exact .inl ⟨_, _, _, _, rfl, by simp [Expr.NoMinusOne, Expr.constants], rfl⟩
  | constant hop =>
    refine .inl ⟨_, _, _, _, rfl, ?_, rfl⟩
    simpa [Expr.NoMinusOne, Expr.constants, Expr.isKept] using hkept
  | complementRight hop =>
    obtain rfl : _ = Opcode.xor := by simpa [Expr.isKept] using hkept
    exact .inr ⟨_, _, _, _, _, _, _, rfl⟩
  | complementLeft hop => cases hkept

/-- **A statement that is kept leaves an entry that computes its value.** -/
theorem run_kept (hs : Supplied supply [] (st :: rest) s) (h : ScalarProgram info (st :: rest))
    (hform : LogicForm st.2.value) (hkept : st.2.value.isKept = true) :
    ∃ s', run (step info) s (assignmentCode st) = some s' ∧ Assigns st.2 s s' ∧
      ∃ entry, s'.IM.recorded st.2.value.operand.address = some entry ∧
        EntryComputes supply st.2.value entry := by
  obtain ⟨BB, dest, e⟩ := st
  obtain ⟨he, hdest⟩ := h.scalar (BB, ⟨dest, e⟩) List.mem_cons_self
  have ha := hs.addressed h
  have hreal : ∀ v ∈ e.vars, s.getRealSrcReg v = supply v := fun v hv =>
    (hs.copied v (List.mem_append_left _ (List.mem_cons_of_mem _ hv))).mpr (by simp)
  have hfresh : ∀ k ∈ e.results, s.IM.find k = none := fun k hk =>
    (InstructionTable.recorded_eq_none _ _).mp (hs.fresh k (List.mem_append_left _ hk))
  rcases kept_cases hform hkept with ⟨result, opcode, l, r, rfl, hm, hin⟩ | ⟨result, x, rx, n, y, ry, c, rfl⟩
  · obtain ⟨s', hrun, hassigns, hall⟩ := run_assignment_op BB hs.ready hdest he hm ha hfresh
    have hrec := (hall s'.IM fun _ _ _ hp => hp).mpr ⟨by simp [Statement.handled, hin], hreal⟩
    exact ⟨s', hrun, hassigns, _, hrec.2.2, entryComputes_op supply result opcode l r⟩
  · obtain ⟨s', hrun, hassigns, hrec⟩ := run_assignment_xnor BB hs.ready hdest he ha
      (hfresh result (by simp [xnorExpr, Expr.results]))
    rw [hreal x (by simp [xnorExpr, Expr.vars]), hreal y (by simp [xnorExpr, Expr.vars])] at hrec
    exact ⟨s', hrun, hassigns, _, hrec, entryComputes_xnor supply result x rx n y ry c⟩

/-- The values are operators: no variable is copied or set to a constant. -/
theorem isLeaf_of_logicForm {e : Expr} (h : LogicForm e) : e.isLeaf = false := by
  cases h <;> rfl

/-- **A program whose statements are all kept** leaves for each an entry that computes its value, in
every execution from variables that hold what supplies them. -/
theorem run_keptProgram (hs : Supplied supply [] program s) (h : ScalarProgram info program)
    (hform : ∀ st ∈ program, LogicForm st.2.value) (hkept : ∀ st ∈ program, st.2.value.isKept = true) :
    ∃ s', run (step info) s (program.flatMap assignmentCode) = some s' ∧
      (∀ k p, s.IM.recorded k = some p → s'.IM.recorded k = some p) ∧
      ∀ st ∈ program, ∃ entry, s'.IM.recorded st.2.value.operand.address = some entry ∧
        ∀ (w : ℕ) (word mem : Reg → BitVec w), (∀ v ∈ varsOf program, mem v = word (supply v)) →
          Executes word mem program →
          ∃ f, entry.1.word w = some f ∧ f (word entry.2.1) (word entry.2.2) =
            word st.2.value.operand.address := by
  induction program generalizing s supply with
  | nil => exact ⟨s, rfl, fun _ _ hk => hk, by simp⟩
  | cons st rest ih =>
    obtain ⟨s₁, hrun₁, hassigns, entry, hentry, hcomputes⟩ :=
      run_kept hs h (hform st List.mem_cons_self) (hkept st List.mem_cons_self)
    have hleaf := isLeaf_of_logicForm (hform st List.mem_cons_self)
    have hs₁ := hs.assigns h hassigns
    rw [show copiedAfter [] st.2 = [] by simp [copiedAfter, hleaf]] at hs₁
    obtain ⟨s', hrun', hkeep, hrest⟩ := ih hs₁ h.tail (fun st hst => hform st (List.mem_cons_of_mem _ hst))
      fun st hst => hkept st (List.mem_cons_of_mem _ hst)
    refine ⟨s', ?_, fun k p hk => hkeep k p (hassigns.recorded_of_some k p hk), fun st' hst' => ?_⟩
    · rw [List.flatMap_cons, run_append, hrun₁, Option.bind_some, hrun']
    rcases List.mem_cons.mp hst' with rfl | hst'
    · refine ⟨entry, hkeep _ _ hentry, fun w word mem hmem hexec => ?_⟩
      exact hcomputes w word mem
        (fun v hv => hmem v (List.mem_append_left _ (List.mem_cons_of_mem _ hv))) hexec.1
    · obtain ⟨entry', hentry', hall⟩ := hrest st' hst'
      refine ⟨entry', hentry', fun w word mem hmem hexec => hall w word _ (fun v hv => ?_) hexec.2⟩
      rw [supplyAfter, Function.update_apply, Function.update_apply]
      split
      · refine (hexec.1.word_key fun v hv => ?_).symm
        exact hmem v (List.mem_append_left _ (List.mem_cons_of_mem _ hv))
      · exact hmem v (List.mem_append_right _ hv)

/-! ### The statements that are lost -/

/-- **A statement that is not kept leaves no entry for its value.** -/
theorem not_mem_of_run_lost (h : ScalarProgram info (st :: rest)) (hunset : s.tmpSrcReg2 = none)
    (hfresh : st.2.value.operand.address ∉ s.IM.instructionMap) (hform : LogicForm st.2.value)
    (hlost : st.2.value.isKept = false) (hrun : run (step info) s (assignmentCode st) = some s') :
    st.2.value.operand.address ∉ s'.IM.instructionMap := by
  obtain ⟨BB, dest, e⟩ := st
  obtain ⟨he, hdest⟩ := h.scalar (BB, ⟨dest, e⟩) List.mem_cons_self
  have hresults : ∀ k ∈ e.results, k ∉ info.combinedIterators := he.results
  have hvars : ∀ v ∈ e.vars, e.operand.address ≠ v := by
    rintro v hv rfl
    have hmem : e.operand.address ∈ e.results := by cases hform <;>
      simp [Expr.operand, Operand.address, Expr.results]
    exact (h.results _ (List.mem_append_left _ hmem)).2.1
      (List.mem_append_left _ (List.mem_cons_of_mem _ hv))
  -- the store adds nothing, and the last operator is held back
  have hstore : ∀ s₁ : DependencyDetector, e.operand.address ∉ s₁.IM.instructionMap →
      step info s₁ (BB, .store e.operand dest) = some s' → e.operand.address ∉ s'.IM.instructionMap :=
    fun s₁ h₁ hstep hmem => h₁ (mem_of_step hstep (by simp [Adds]) hmem)
  have hloaded : ∀ (s₁ : DependencyDetector), ∀ v ∈ e.vars, e.operand.address ∉ s₁.IM.instructionMap →
      e.operand.address ∉ (s₁.loaded v).IM.instructionMap := fun s₁ v hv h₁ hmem =>
    ((InstructionTable.mem_insertLoadInstruction _ _ _ _).mp hmem).elim (hvars v hv) h₁
  cases hform with
  | binary hop => cases hlost
  | sum => cases hlost
  | @constant result x rx c sExtValue opcode hop =>
    obtain rfl : sExtValue = -1 := by simpa [Expr.isKept] using hlost
    have hx := he.vars x (by simp [Expr.vars])
    change (step info s (BB, .load rx x)).bind (fun s₁ =>
      (step info s₁ (BB, .binaryOperator result opcode (.value rx) (.constantInt c (-1)))).bind fun s₂ =>
      (step info s₂ (BB, .store (.value result) dest)).bind some) = some s' at hrun
    obtain ⟨s₂, hrec, hneg, hIM⟩ := recogniseOperation_minusOne hop (s.loaded x) result (.value rx) c
    rw [step_load hx, Option.bind_some, step_held (hresults result (by simp [Expr.results])) hrec hneg,
      Option.bind_some, Option.bind_fun_some] at hrun
    refine hstore s₂ (fun hmem => ?_) hrun
    rw [hIM] at hmem
    exact hloaded s x (by simp [Expr.vars]) hfresh hmem
  | @complementRight result x rx n y ry c opcode hop =>
    have hx := he.vars x (by simp [Expr.vars])
    have hy := he.vars y (by simp [Expr.vars])
    have hxor : opcode ≠ .xor := by simpa [Expr.isKept] using hlost
    change (step info s (BB, .load rx x)).bind (fun s₁ => (step info s₁ (BB, .load ry y)).bind fun s₂ =>
      (step info s₂ (BB, .binaryOperator n .xor (.value ry) (.constantInt c (-1)))).bind fun s₃ =>
      (step info s₃ (BB, .binaryOperator result opcode (.value rx) (.value n))).bind fun s₄ =>
      (step info s₄ (BB, .store (.value result) dest)).bind some) = some s' at hrun
    rw [step_load hx, Option.bind_some, step_load hy, Option.bind_some,
      step_held (hresults n (by simp [Expr.results])) (recogniseOperation_complement _ n (.value ry) c) rfl,
      Option.bind_some, step_unset (s := ((s.loaded x).loaded y).held n) hop hxor rfl rfl hunset] at hrun
    cases hrun
  | @complementLeft result x rx n y ry c opcode hop =>
    have hx := he.vars x (by simp [Expr.vars])
    have hy := he.vars y (by simp [Expr.vars])
    have hne : n ≠ ry := by
      have hnodup := h.nodup
      simp only [resultsOf, List.flatMap_cons, Expr.results, List.nodup_append] at hnodup
      exact hnodup.1.1.2.2 n (by simp) ry (by simp)
    change (step info s (BB, .load rx x)).bind (fun s₁ =>
      (step info s₁ (BB, .binaryOperator n .xor (.value rx) (.constantInt c (-1)))).bind fun s₂ =>
      (step info s₂ (BB, .load ry y)).bind fun s₃ =>
      (step info s₃ (BB, .binaryOperator result opcode (.value n) (.value ry))).bind fun s₄ =>
      (step info s₄ (BB, .store (.value result) dest)).bind some) = some s' at hrun
    rw [step_load hx, Option.bind_some,
      step_held (hresults n (by simp [Expr.results])) (recogniseOperation_complement _ n (.value rx) c) rfl,
      Option.bind_some, step_load hy, Option.bind_some] at hrun
    obtain ⟨s₄, hrec, hneg, hIM⟩ := recogniseOperation_waiting (s := ((s.loaded x).held n).loaded y) hop rfl
      (fun heq => hne (Option.some.inj heq)) result (.value n)
    rw [step_held (hresults result (by simp [Expr.results])) hrec hneg, Option.bind_some,
      Option.bind_fun_some] at hrun
    refine hstore s₄ (fun hmem => ?_) hrun
    rw [hIM] at hmem
    refine hloaded _ y (by simp [Expr.vars]) (fun hmem => ?_) hmem
    exact hloaded s x (by simp [Expr.vars]) hfresh hmem

/-- The instructions of an assignment add its results and its variables. -/
theorem adds_assignmentCode {info : CollectInfo} {st : Reg × Statement}
    (hscalar : ∀ v ∈ st.2.value.vars, info.IsScalar v) {I : Reg × Instruction}
    (hI : I ∈ assignmentCode st) {k : Reg}
    (hk : Adds info k I.2) : k ∈ st.2.value.results ∨ k ∈ st.2.value.vars := by
  have hexpr : ∀ e : Expr, (∀ v ∈ e.vars, info.IsScalar v) → ∀ J ∈ e.code, Adds info k J →
      k ∈ e.results ∨ k ∈ e.vars := by
    intro e
    induction e with
    | const => simp [Expr.code]
    | var allocated result =>
      intro hvars J hJ hadds
      obtain rfl : J = .load result allocated := by simpa [Expr.code] using hJ
      have hreg := (hvars allocated (by simp [Expr.vars])).1
      exact .inr (by simp [Expr.vars, show k = info.getAllocatedReg allocated from hadds, hreg])
    | op result opcode l r ihl ihr =>
      intro hvars J hJ hadds
      simp only [Expr.code, List.mem_append, List.mem_singleton] at hJ
      simp only [Expr.results, Expr.vars, List.mem_append, List.mem_singleton]
      rcases hJ with (hJ | hJ) | rfl
      · rcases ihl (fun v hv => hvars v (by simp [Expr.vars, hv])) J hJ hadds with h | h <;> simp [h]
      · rcases ihr (fun v hv => hvars v (by simp [Expr.vars, hv])) J hJ hadds with h | h <;> simp [h]
      · exact .inl (.inr hadds)
  simp only [assignmentCode, Statement.code, List.map_append, List.map_cons, List.map_nil, List.mem_append,
    List.mem_map, List.mem_singleton] at hI
  rcases hI with ⟨J, hJ, rfl⟩ | rfl
  · exact hexpr st.2.value hscalar J hJ hk
  · exact hk.elim

/-- **A program with a statement that is not kept** leaves one without an entry: the first of
them. -/
theorem run_lostProgram (hs : Supplied supply [] program s) (h : ScalarProgram info program)
    (hunset : s.tmpSrcReg2 = none) (hform : ∀ st ∈ program, LogicForm st.2.value)
    (hlost : ∃ st ∈ program, st.2.value.isKept = false)
    (hrun : run (step info) s (program.flatMap assignmentCode) = some s') :
    ∃ st ∈ program, s'.IM.recorded st.2.value.operand.address = none := by
  induction program generalizing s supply with
  | nil => simp at hlost
  | cons st rest ih =>
    rw [List.flatMap_cons, run_append, Option.bind_eq_some_iff] at hrun
    obtain ⟨s₁, hrun₁, hrun'⟩ := hrun
    cases hkept : st.2.value.isKept with
    | true =>
      obtain ⟨s₁', hrun₁', hassigns, -⟩ := run_kept hs h (hform st List.mem_cons_self) hkept
      obtain rfl : s₁ = s₁' := Option.some.inj (hrun₁.symm.trans hrun₁')
      have hleaf := isLeaf_of_logicForm (hform st List.mem_cons_self)
      have hs₁ := hs.assigns h hassigns
      rw [show copiedAfter [] st.2 = [] by simp [copiedAfter, hleaf]] at hs₁
      obtain ⟨st', hst', hnone⟩ := ih hs₁ h.tail (hassigns.tmpSrcReg2.trans hunset)
        (fun st hst => hform st (List.mem_cons_of_mem _ hst)) (by
          obtain ⟨st', hst', hlost'⟩ := hlost
          rcases List.mem_cons.mp hst' with rfl | hst'
          · rw [hkept] at hlost'
            cases hlost'
          · exact ⟨st', hst', hlost'⟩) hrun'
      exact ⟨st', List.mem_cons_of_mem _ hst', hnone⟩
    | false =>
      have hroot : st.2.value.operand.address ∈ st.2.value.results := by
        have hf := hform st List.mem_cons_self
        generalize st.2.value = e at hf
        cases hf <;> simp [Expr.operand, Operand.address, Expr.results]
      have hmem := h.results _ (List.mem_append_left _ hroot)
      have hfresh : st.2.value.operand.address ∉ s.IM.instructionMap := by
        rw [← InstructionTable.isSome_find, (InstructionTable.recorded_eq_none _ _).mp
          (hs.fresh _ (List.mem_append_left _ hroot))]
        exact Bool.false_ne_true
      have hfirst := not_mem_of_run_lost h hunset hfresh (hform st List.mem_cons_self) hkept hrun₁
      refine ⟨st, List.mem_cons_self, (InstructionTable.recorded_eq_none _ _).mpr ?_⟩
      rw [← Option.not_isSome_iff_eq_none, InstructionTable.isSome_find]
      -- the rest of the program adds its own results and variables
      refine fun hmem' => hfirst (mem_of_run hrun' (fun I hI hadds => ?_) hmem')
      obtain ⟨st', hst', hI'⟩ := List.mem_flatMap.mp hI
      have hscalar := (h.scalar st' (List.mem_cons_of_mem _ hst')).1.vars
      rcases adds_assignmentCode hscalar hI' hadds with hk | hk
      · exact (h.results_rest (List.mem_flatMap.mpr ⟨st', hst', hk⟩)).1 hroot
      · exact hmem.2.1 (List.mem_append_right _
          (List.mem_flatMap.mpr ⟨st', hst', List.mem_cons_of_mem _ hk⟩))

end DependencyDetector

open DependencyDetector in
/-- **Every statement of a program leaves an entry that computes its value exactly when every
statement is kept.** -/
theorem complements_computed_iff {info : CollectInfo} {program : List AssignmentBlock}
    (h : ScalarProgram info (assignments program))
    (hform : ∀ st ∈ assignments program, LogicForm st.2.value) :
    (∃ s, detectDependencies info (basicBlocks program) = some s ∧ ∀ st ∈ assignments program,
      ∃ entry, s.IM.recorded st.2.value.operand.address = some entry ∧
        ComputesValue (assignments program) entry st.2.value.operand.address) ↔
      ∀ st ∈ assignments program, st.2.value.isKept = true := by
  have hinit := supplied_init h
  rw [detectDependencies, instructions_basicBlocks]
  constructor
  · rintro ⟨s, hs, hall⟩
    obtain ⟨s₁, hrun, rfl⟩ := Option.map_eq_some_iff.mp hs
    by_contra hnot
    push Not at hnot
    obtain ⟨st, hst, hlost⟩ := hnot
    obtain ⟨st', hst', hnone⟩ := run_lostProgram hinit h rfl hform
      ⟨st, hst, Bool.eq_false_iff.mpr hlost⟩ hrun
    obtain ⟨entry, hentry, -⟩ := hall st' hst'
    have hsame : s₁.IM.recorded st'.2.value.operand.address = some entry := hentry
    rw [hnone] at hsame
    cases hsame
  · intro hkept
    obtain ⟨s₁, hrun, -, hall⟩ := run_keptProgram hinit h hform hkept
    refine ⟨_, by rw [hrun]; rfl, fun st hst => ?_⟩
    obtain ⟨entry, hentry, hcomputes⟩ := hall st hst
    exact ⟨entry, hentry, fun w word hexec => hcomputes w word word (fun _ _ => rfl) hexec⟩

/-- `c = a ^ ~b; c = c & 7`. -/
def xnorThenAnd : List AssignmentBlock :=
  [(8, [⟨24, .op 103 .xor (.var 16 100) (.op 102 .xor (.var 20 101) (.const 40 (-1)))⟩,
    ⟨24, .op 105 .and (.var 24 104) (.const 44 7)⟩])]

/-- Both statements are kept: the first as the `xnor` of `a` and `b`. -/
theorem complements_computed_iff_xnorThenAnd :
    ∃ s, DependencyDetector.detectDependencies threeScalars (basicBlocks xnorThenAnd) = some s ∧
      ∀ st ∈ assignments xnorThenAnd, ∃ entry, s.IM.recorded st.2.value.operand.address = some entry ∧
        ComputesValue (assignments xnorThenAnd) entry st.2.value.operand.address :=
  (complements_computed_iff (by decide +kernel) (by
    simp only [assignments, xnorThenAnd, List.flatMap_cons, List.flatMap_nil, List.append_nil, List.map_cons,
      List.map_nil, List.mem_cons, List.not_mem_nil, or_false, forall_eq_or_imp, forall_eq]
    exact ⟨.complementRight rfl, .constant rfl⟩)).mpr (by decide)

/-- `c = ~a; c = a & b`. -/
def complementThenAnd : List AssignmentBlock :=
  [(8, [⟨24, .op 101 .xor (.var 16 100) (.const 40 (-1))⟩,
    ⟨24, .op 104 .and (.var 16 102) (.var 20 103)⟩])]

theorem complementThenAnd_isSome :
    (DependencyDetector.detectDependencies threeScalars (basicBlocks complementThenAnd)).isSome := by
  decide +kernel

/-- The complement has no entry, and while it waits the `and` after it has none either. -/
theorem complement_not_recorded :
    ScalarProgram threeScalars (assignments complementThenAnd) ∧
      (∀ st ∈ assignments complementThenAnd, LogicForm st.2.value) ∧
      ∃ s, DependencyDetector.detectDependencies threeScalars (basicBlocks complementThenAnd) = some s ∧
        s.IM.recorded 101 = none ∧ s.IM.recorded 104 = none ∧
        ¬ ∃ entry, s.IM.recorded 104 = some entry ∧ ComputesValue (assignments complementThenAnd) entry 104 := by
  refine ⟨by decide +kernel, ?_, _, (Option.some_get complementThenAnd_isSome).symm, by decide +kernel,
    by decide +kernel, ?_⟩
  · simp only [assignments, complementThenAnd, List.flatMap_cons, List.flatMap_nil, List.append_nil,
      List.map_cons, List.map_nil, List.mem_cons, List.not_mem_nil, or_false, forall_eq_or_imp,
      forall_eq]
    exact ⟨.constant rfl, .binary rfl⟩
  · have hnone : ((DependencyDetector.detectDependencies threeScalars (basicBlocks complementThenAnd)).get
        complementThenAnd_isSome).IM.recorded 104 = none := by decide +kernel
    rintro ⟨entry, hentry, -⟩
    rw [hnone] at hentry
    cases hentry

end Octantis
