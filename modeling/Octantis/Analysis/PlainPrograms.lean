import Octantis.Analysis.Complements
import Octantis.Analysis.TableCalls

/-!
# The tables of plain programs

Programs whose assignments are `x op y` or `x ^ ~y` outside of loops: what the detector makes of
them can be told from the program.

## The model

`operatorsOf` is the list of the operators of a program with the registers that supply their
operands: a result supplies the variable that it was last stored to. `PlainTable` says that a
table has the loads and these operators, and nothing else.

## What is proved

* `exists_runsPlain`: the code of an assignment enters its loads and its operator;
* `plainTable_of_schedule`: the detector and the scheduler end on a plain program, with the
  table of its operators;
* `computes_of_executes`: in every execution of the program an operator computes its result from
  what supplies its operands.
-/

namespace Octantis

open Std Lib

/-- An operator of a program: its result, what it computes, and the registers that supply its
operands. -/
structure Operator where
  /-- The result. -/
  result : Reg
  /-- The operation. -/
  operation : Operation
  /-- What supplies the first operand. -/
  src1 : Reg
  /-- What supplies the second operand. -/
  src2 : Reg
  deriving DecidableEq, Repr

/-- What the binder reads of an entry. -/
def InstructionData.bound (d : InstructionData) :
    Operation × List String × (Reg × OperandType) × Reg × OperandType :=
  (d.operation, d.specifications, (d.sourceReg1, d.srcReg1Type), d.sourceReg2, d.srcReg2Type)

namespace Operator

/-- What the binder reads of the entry of an operator. -/
def bound (o : Operator) : Operation × List String × (Reg × OperandType) × Reg × OperandType :=
  (o.operation, [], (o.src1, .singleVariable), o.src2, .singleVariable)

/-- The operator computes its result from what supplies its operands. -/
def Computes {w : ℕ} (word : Reg → BitVec w) (o : Operator) : Prop :=
  ∃ f, o.operation.word w = some f ∧ f (word o.src1) (word o.src2) = word o.result

end Operator

/-- The operator of an assignment `x op y` or `x ^ ~y`. -/
def Expr.operator (supply : Reg → Reg) : Expr → Option Operator
  | .op result opcode (.var x _) (.var y _) =>
    if opcode = .add ∨ opcode.isLogic = true then some ⟨result, opcode.operation, supply x, supply y⟩ else none
  | .op result opcode (.var x _) (.op _ opcode' (.var y _) (.const _ sExtValue)) =>
    if opcode = .xor ∧ opcode' = .xor ∧ sExtValue = -1 then some ⟨result, .xnor, supply x, supply y⟩ else none
  | _ => none

/-- The operators of a program. -/
def operatorsOf : (Reg → Reg) → List (Reg × Statement) → List Operator
  | _, [] => []
  | supply, st :: rest => (st.2.value.operator supply).toList ++ operatorsOf (supplyAfter supply st.2) rest

/-- The variables that a program loads. -/
def loadsOf (program : List (Reg × Statement)) : List Reg := program.flatMap (·.2.value.vars)

/-- The assignments are `x op y` and `x ^ ~y`, outside of loops. -/
def PlainProgram (info : CollectInfo) (program : List (Reg × Statement)) : Prop :=
  ∀ st ∈ program, (st.2.value.operator id).isSome ∧ info.isLoopBody st.1 = false

instance (info : CollectInfo) (program : List (Reg × Statement)) : Decidable (PlainProgram info program) := by
  unfold PlainProgram
  infer_instance

namespace Expr

variable {supply : Reg → Reg} {e : Expr} {o : Operator}

/-- **The assignments of a plain program.** -/
theorem operator_cases (h : e.operator supply = some o) :
    (∃ result opcode x rx y ry, e = .op result opcode (.var x rx) (.var y ry) ∧
      (opcode = .add ∨ opcode.isLogic = true) ∧ o = ⟨result, opcode.operation, supply x, supply y⟩) ∨
    (∃ result x rx n y ry c, e = DependencyDetector.xnorExpr result x rx n y ry c ∧
      o = ⟨result, .xnor, supply x, supply y⟩) := by
  unfold operator at h
  split at h
  · obtain ⟨hop, h⟩ := Option.ite_none_right_eq_some.mp h
    exact .inl ⟨_, _, _, _, _, _, rfl, hop, (Option.some.inj h).symm⟩
  · obtain ⟨⟨rfl, rfl, rfl⟩, h⟩ := Option.ite_none_right_eq_some.mp h
    exact .inr ⟨_, _, _, _, _, _, _, rfl, (Option.some.inj h).symm⟩
  · cases h

theorem isSome_operator (supply : Reg → Reg) (h : (e.operator id).isSome) : ∃ o, e.operator supply = some o := by
  obtain ⟨o, ho⟩ := Option.isSome_iff_exists.mp h
  rcases operator_cases ho with ⟨result, opcode, x, rx, y, ry, rfl, hop, -⟩ | ⟨result, x, rx, n, y, ry, c, rfl, -⟩
  · exact ⟨_, if_pos hop⟩
  · refine ⟨⟨result, .xnor, supply x, supply y⟩, ?_⟩
    rw [DependencyDetector.xnorExpr, operator, if_pos ⟨rfl, rfl, rfl⟩]

/-- A plain assignment is one that the detector keeps. -/
theorem kept_of_operator (h : e.operator supply = some o) : LogicForm e ∧ e.isKept = true := by
  rcases operator_cases h with ⟨result, opcode, x, rx, y, ry, rfl, rfl | hop, -⟩ | ⟨result, x, rx, n, y, ry, c, rfl, -⟩
  · exact ⟨.sum, rfl⟩
  · exact ⟨.binary hop, rfl⟩
  · exact ⟨.complementRight rfl, rfl⟩

theorem operation_of_operator (h : e.operator supply = some o) :
    o.operation = .xnor ∨ ∃ opcode : Opcode, (opcode = .add ∨ opcode.isLogic = true) ∧ o.operation = opcode.operation := by
  rcases operator_cases h with ⟨result, opcode, x, rx, y, ry, rfl, hop, rfl⟩ | ⟨result, x, rx, n, y, ry, c, rfl, rfl⟩
  · exact .inr ⟨opcode, hop, rfl⟩
  · exact .inl rfl

theorem result_of_operator (h : e.operator supply = some o) : o.result = e.operand.address := by
  rcases operator_cases h with ⟨result, opcode, x, rx, y, ry, rfl, -, rfl⟩ | ⟨result, x, rx, n, y, ry, c, rfl, rfl⟩
  · rfl
  · rfl

theorem key_of_operator (h : e.operator supply = some o) (supply' : Reg → Reg) : e.key supply' = o.result := by
  rcases operator_cases h with ⟨result, opcode, x, rx, y, ry, rfl, -, rfl⟩ | ⟨result, x, rx, n, y, ry, c, rfl, rfl⟩
  · rfl
  · rfl

/-- The sources are what supplies the variables loaded. -/
theorem sources_of_operator (h : e.operator supply = some o) :
    ∃ x y, e.vars = [x, y] ∧ o.src1 = supply x ∧ o.src2 = supply y := by
  rcases operator_cases h with ⟨result, opcode, x, rx, y, ry, rfl, -, rfl⟩ | ⟨result, x, rx, n, y, ry, c, rfl, rfl⟩
  · exact ⟨x, y, rfl, rfl, rfl⟩
  · exact ⟨x, y, rfl, rfl, rfl⟩

theorem operator_congr {real : Reg → Reg} (h : ∀ v ∈ e.vars, real v = supply v) (ho : e.operator real = some o) :
    e.operator supply = some o := by
  rcases operator_cases ho with ⟨result, opcode, x, rx, y, ry, rfl, hop, rfl⟩ | ⟨result, x, rx, n, y, ry, c, rfl, rfl⟩
  · rw [operator, if_pos hop, h x (by simp [vars]), h y (by simp [vars])]
  · rw [DependencyDetector.xnorExpr, operator, if_pos ⟨rfl, rfl, rfl⟩, h x (by simp [DependencyDetector.xnorExpr, vars]),
      h y (by simp [DependencyDetector.xnorExpr, vars])]

theorem result_mem_results (ho : e.operator supply = some o) : o.result ∈ e.results := by
  rcases operator_cases ho with ⟨result, opcode, x, rx, y, ry, rfl, hop, rfl⟩ | ⟨result, x, rx, n, y, ry, c, rfl, rfl⟩
  · simp [results]
  · simp [DependencyDetector.xnorExpr, results]

/-- An operator computes the value assigned. -/
theorem entryComputes_of_operator (h : e.operator supply = some o) :
    EntryComputes supply e (o.operation, o.src1, o.src2) := by
  rcases operator_cases h with ⟨result, opcode, x, rx, y, ry, rfl, -, rfl⟩ | ⟨result, x, rx, n, y, ry, c, rfl, rfl⟩
  · exact entryComputes_op supply result opcode (.var x rx) (.var y ry)
  · exact entryComputes_xnor supply result x rx n y ry c

end Expr

/-- **In every execution of a program its operators compute their results.** -/
theorem computes_of_executes {w : ℕ} {word mem : Reg → BitVec w} {supply : Reg → Reg}
    {program : List (Reg × Statement)} (hplain : ∀ st ∈ program, (st.2.value.operator id).isSome)
    (hmem : ∀ v ∈ varsOf program, mem v = word (supply v)) (hexec : Executes word mem program) :
    ∀ o ∈ operatorsOf supply program, o.Computes word := by
  induction program generalizing supply mem with
  | nil => simp [operatorsOf]
  | cons st rest ih =>
    obtain ⟨o, ho⟩ := Expr.isSome_operator supply (hplain st List.mem_cons_self)
    have hfirst : ∀ v ∈ st.2.value.vars, mem v = word (supply v) := fun v hv =>
      hmem v (List.mem_append_left _ (List.mem_cons_of_mem _ hv))
    intro o' ho'
    rw [operatorsOf, ho, Option.toList_some, List.mem_append, List.mem_singleton] at ho'
    rcases ho' with rfl | ho'
    · rw [Operator.Computes, Expr.result_of_operator ho]
      exact Expr.entryComputes_of_operator ho w word mem hfirst hexec.1
    · refine ih (fun st hst => hplain st (List.mem_cons_of_mem _ hst)) (fun v hv => ?_) hexec.2 o' ho'
      rw [supplyAfter, Function.update_apply, Function.update_apply]
      split
      · exact (hexec.1.word_key hfirst).symm
      · exact hmem v (List.mem_append_right _ hv)

/-! ### The tables -/

open InstructionTable

variable {T T' : InstructionTable} {loads : List Reg} {ops : List Operator} {o : Operator} {v : Reg}

/-- Two logs with the same loads and the same operators. -/
theorem InstructionTable.LogInv.of_filter {log log' : List (Reg × Operation)} (h : LogInv log T)
    (hloads : log'.filter (·.2 = .load) = log.filter (·.2 = .load))
    (hothers : log'.filter (·.2 ≠ .load) = log.filter (·.2 ≠ .load)) : LogInv log' T := by
  have hsplit : ∀ l : List (Reg × Operation), (l.filter (·.2 = .load) ++ l.filter (·.2 ≠ .load)).Perm l := by
    intro l
    have hperm := List.filter_append_perm (fun e : Reg × Operation => decide (e.2 = .load)) l
    simpa only [decide_not] using hperm
  have hperm : log'.Perm log := by
    have h' := (hsplit log').symm
    rw [hloads, hothers] at h'
    exact h'.trans (hsplit log)
  refine ⟨(hperm.map _).nodup_iff.mpr h.nodup, fun reg op => hperm.mem_iff.trans (h.find reg op), ?_, ?_⟩
  · rw [h.loads, hloads]
  · rw [h.others, hothers]

/-- The log of a table with these loads and operators. -/
def plainLog (loads : List Reg) (ops : List Operator) : List (Reg × Operation) :=
  loads.eraseDups.map (·, .load) ++ ops.map fun o => (o.result, o.operation)

/-- **The table of a plain program**: its loads and its operators, and nothing else. -/
structure PlainTable (loads : List Reg) (ops : List Operator) (T : InstructionTable) : Prop where
  logged : LogInv (plainLog loads ops) T
  operators : ∀ o ∈ ops, (T.find o.result).map (·.bound) = some o.bound
  ne_load : ∀ o ∈ ops, o.operation ≠ .load

theorem filter_plainLog_load (hops : ∀ o ∈ ops, o.operation ≠ .load) :
    (plainLog loads ops).filter (·.2 = .load) = loads.eraseDups.map (·, .load) := by
  rw [plainLog, List.filter_append, List.filter_eq_self.mpr, List.filter_eq_nil_iff.mpr, List.append_nil]
  · intro e he
    obtain ⟨o, ho, rfl⟩ := List.mem_map.mp he
    simpa using hops o ho
  · intro e he
    obtain ⟨v, -, rfl⟩ := List.mem_map.mp he
    exact decide_eq_true rfl

theorem filter_plainLog_ne (hops : ∀ o ∈ ops, o.operation ≠ .load) :
    (plainLog loads ops).filter (·.2 ≠ .load) = ops.map fun o => (o.result, o.operation) := by
  rw [plainLog, List.filter_append, List.filter_eq_nil_iff.mpr, List.nil_append, List.filter_eq_self.mpr]
  · intro e he
    obtain ⟨o, ho, rfl⟩ := List.mem_map.mp he
    exact decide_eq_true (hops o ho)
  · intro e he
    obtain ⟨v, -, rfl⟩ := List.mem_map.mp he
    simp

namespace PlainTable

theorem empty : PlainTable [] [] InstructionTable.empty := ⟨logInv_empty, by simp, by simp⟩

/-- The keys of the table. -/
theorem mem_iff (h : PlainTable loads ops T) (k : Reg) :
    k ∈ T.instructionMap ↔ k ∈ loads ∨ k ∈ ops.map (·.result) := by
  rw [← h.logged.mem_iff, plainLog, List.map_append, List.mem_append, List.map_map, List.map_map]
  refine or_congr ?_ Iff.rfl
  show k ∈ loads.eraseDups.map (fun v => v) ↔ k ∈ loads
  rw [List.map_id'', List.mem_eraseDups]
  exact fun _ => rfl

/-- A load enters its variable, which is no result. -/
theorem load (h : PlainTable loads ops T) (hv : v ∉ ops.map (·.result)) :
    PlainTable (loads ++ [v]) ops (T.insertLoadInstruction v .singleVariable) := by
  refine ⟨?_, fun o ho => ?_, h.ne_load⟩
  · have hlog := h.logged.call (c := .insertLoadInstruction v .singleVariable) trivial rfl
    have hkey := h.mem_iff v
    rw [or_iff_left hv] at hkey
    refine hlog.of_filter ?_ ?_
    · rw [filter_plainLog_load h.ne_load, List.filter_append, filter_plainLog_load h.ne_load, entered,
        List.eraseDups_append, List.map_append]
      by_cases hmem : v ∈ T.instructionMap
      · rw [if_pos hmem]
        simp [List.removeAll, hkey.mp hmem]
      · rw [if_neg hmem]
        simp [List.removeAll, mt hkey.mpr hmem, List.eraseDups_cons]
    · rw [filter_plainLog_ne h.ne_load, List.filter_append, filter_plainLog_ne h.ne_load, entered]
      split <;> simp
  · have hne : o.result ≠ v := fun heq => hv (List.mem_map.mpr ⟨o, ho, heq⟩)
    rw [find_insertLoadInstruction, if_neg fun hboth => hne hboth.1]
    exact h.operators o ho

/-- An operator enters its result, which is no key yet. -/
theorem insert (h : PlainTable loads ops T) {d : InstructionData} (hd : d.bound = o.bound)
    (hdest : d.destinationReg = o.result) (hnew : o.result ∉ T.instructionMap) (hop : o.operation ≠ .load) :
    PlainTable loads (ops ++ [o]) (T.insertInstruction d) := by
  have hops : ∀ o' ∈ ops ++ [o], o'.operation ≠ .load := by
    intro o' ho'
    rcases List.mem_append.mp ho' with ho' | ho'
    · exact h.ne_load o' ho'
    · rw [List.mem_singleton.mp ho']
      exact hop
  have hnone : T.find o.result = none := by
    rw [← Option.not_isSome_iff_eq_none, isSome_find]
    exact hnew
  refine ⟨?_, fun o' ho' => ?_, hops⟩
  · have hoperation : d.operation = o.operation := congrArg (·.1) hd
    have hfresh : d.destinationReg ∉ T.instructionMap := hdest ▸ hnew
    have hlog := h.logged.call (c := .insertInstruction d) hfresh rfl
    rw [entered, hdest, hoperation] at hlog
    rw [plainLog, List.map_append, ← List.append_assoc]
    exact hlog
  · rw [find_insertInstruction, hdest]
    rcases List.mem_append.mp ho' with ho' | ho'
    · have hold := h.operators o' ho'
      rw [if_neg]
      · exact hold
      · rintro ⟨-, hnone'⟩
        rw [hnone'] at hold
        cases hold
    · rw [List.mem_singleton.mp ho', if_pos ⟨rfl, hnone⟩, Option.map_some, hd]

/-- A change of what the binder does not read. -/
theorem modifyInstruction (h : PlainTable loads ops T) (k : Reg) {f : InstructionData → InstructionData}
    (hf : ∀ d, (f d).bound = d.bound) : PlainTable loads ops (T.modifyInstruction k f) := by
  refine ⟨h.logged.modifyInstruction k fun d => congrArg (·.1) (hf d), fun o ho => ?_, h.ne_load⟩
  rw [find_modifyInstruction]
  split
  · rw [Option.map_map, ← h.operators o ho]
    exact congrArg (Option.map · _) (funext hf)
  · exact h.operators o ho

theorem setStored (h : PlainTable loads ops T) (k ptr : Reg) (isArray : Bool) :
    PlainTable loads ops (DependencyDetector.setStored T k isArray ptr) := by
  refine (h.modifyInstruction k ?_).modifyInstruction k ?_
  · exact fun _ => rfl
  · exact fun _ => rfl

theorem reorderInstructionVector (h : PlainTable loads ops T) : PlainTable loads ops T.reorderInstructionVector :=
  ⟨h.logged.reorderInstructionVector, h.operators, h.ne_load⟩

/-- **The order of the table.** -/
theorem order_reorder (h : PlainTable loads ops T) :
    T.reorderInstructionVector.instructionOrderVector = plainLog loads ops := by
  rw [InstructionTable.reorderInstructionVector, h.logged.loads, h.logged.others, filter_plainLog_load h.ne_load,
    filter_plainLog_ne h.ne_load]
  rfl

/-- The scheduler keeps the table, and puts the loads first. -/
theorem schedule (h : PlainTable loads ops T) (hT : ASAP.scheduleFunction T = some T') :
    PlainTable loads ops T' ∧ T'.instructionOrderVector = plainLog loads ops := by
  obtain ⟨hlog, horder⟩ := ASAP.logInv_scheduleFunction h.logged hT
  refine ⟨⟨hlog, fun o ho => ?_, h.ne_load⟩, horder.trans h.order_reorder⟩
  obtain ⟨d, hd, hbound⟩ := Option.map_eq_some_iff.mp (h.operators o ho)
  rw [ASAP.find_of_scheduleFunction hT hd, Option.map_some, ← hbound, ASAP.scheduledEntry]
  split <;> rfl

end PlainTable

/-! ### The detector -/

namespace DependencyDetector

variable {info : CollectInfo} {s s' : DependencyDetector} {BB result a b dest : Reg} {operand0 : Operand}
  {d : InstructionData} {isInLoopBody : Bool} {st : Reg × Statement} {supply : Reg → Reg}
  {rest program : List (Reg × Statement)}

/-- No source is in an array. -/
def NoArrays (s : DependencyDetector) : Prop := s.isSrc1Array = false ∧ s.isSrc2Array = false

/-- The insertion of an operator on two values that were loaded. -/
theorem handleInstructionInserting_of_loads (info : CollectInfo) (hs : s.NoArrays)
    (hop : s.operation ≠ .null ∧ s.operation ≠ .load) (ha : a ≠ s.destReg) (hb : b ≠ s.destReg)
    (isInLoopBody : Bool) (result : Reg) :
    ∃ d s', s.handleInstructionInserting info isInLoopBody result (.value a) (.value b) = some s' ∧
      s'.IM = s.IM.insertInstruction d ∧ d.destinationReg = result ∧ d.isInLoopBody = isInLoopBody ∧
      d.bound = (s.operation, [], (s.srcReg1, .singleVariable), s.srcReg2, .singleVariable) ∧
      s'.destReg = result ∧ s'.operation = s.operation ∧ s'.loadCount = s.loadCount := by
  have htake : s.takeOperands info (.value a) (.value b) = some ((s.takeOperand0 (.value a)).takeOperand1 (.value b)) := by
    rw [takeOperands, if_neg (show (Operand.value a).address ≠ s.destReg from ha),
      if_neg (show (Operand.value b).address ≠ s.destReg from hb)]
  refine ⟨((s.takeOperand0 (.value a)).takeOperand1 (.value b)).entry result isInLoopBody,
    ((s.takeOperand0 (.value a)).takeOperand1 (.value b)).insert result isInLoopBody, ?_, rfl, rfl, rfl, ?_, rfl, rfl,
    rfl⟩
  · rw [handleInstructionInserting, if_pos hop, htake, Option.map_some]
  · simp only [InstructionData.bound, entry, takeOperand0, takeOperand1, regType, hs.1, hs.2]
    rfl

/-- The store of an operator that is in no loop. -/
theorem step_store_of_not_loop (BB : Reg) (operand0 : Operand) (hdest : info.IsScalar dest)
    (hop : s.operation ≠ .null) (hloads : 2 ≤ s.loadCount) (hd : s.IM.find s.destReg = some d)
    (hloop : d.isInLoopBody = false) :
    ∃ s', step info s (BB, .store operand0 dest) = some s' ∧ s'.NoArrays ∧
      (s'.IM = s.IM ∨ s'.IM = setStored s.IM s.destReg false s.tmpPtrDest) := by
  rw [step_store hdest, if_neg hop, recordStore, if_pos hloads, storeOperation]
  split
  · rw [hd, Option.bind_some, hloop]
    exact ⟨_, rfl, ⟨rfl, rfl⟩, .inl rfl⟩
  · exact ⟨_, rfl, ⟨rfl, rfl⟩, .inr rfl⟩

/-- What the code of a plain assignment is to leave. -/
structure RunsPlain (info : CollectInfo) (loads : List Reg) (ops : List Operator) (s s' : DependencyDetector)
    (st : Reg × Statement) (o : Operator) : Prop where
  run : run (step info) s (assignmentCode st) = some s'
  noArrays : s'.NoArrays
  table : PlainTable (loads ++ st.2.value.vars) (ops ++ [o]) s'.IM

/-- The end of a plain assignment: the operator is inserted after its loads, and stored. -/
theorem exists_insert_store (info : CollectInfo) (s₃ : DependencyDetector) {loads : List Reg} {ops : List Operator} {o : Operator}
    (hdest : info.IsScalar dest) (hs : s₃.NoArrays) (hop : o.operation ≠ .null ∧ o.operation ≠ .load)
    (ha : a ≠ s₃.destReg) (hb : b ≠ s₃.destReg) (hloads : s₃.loadCount = 2)
    (ho : o = ⟨result, s₃.operation, s₃.srcReg1, s₃.srcReg2⟩) (hT : PlainTable loads ops s₃.IM)
    (hnew : result ∉ s₃.IM.instructionMap) (BB : Reg) (operand0 : Operand) :
    ∃ s₄ s', s₃.handleInstructionInserting info false result (.value a) (.value b) = some s₄ ∧
      step info s₄ (BB, .store operand0 dest) = some s' ∧ s'.NoArrays ∧ PlainTable loads (ops ++ [o]) s'.IM := by
  subst ho
  obtain ⟨d, s₄, h₄, hIM, hresult, hloop, hbound, hdestReg, hoperation, hcount⟩ :=
    handleInstructionInserting_of_loads info hs hop ha hb false result
  have hT₄ := hT.insert (o := ⟨result, s₃.operation, s₃.srcReg1, s₃.srcReg2⟩) hbound hresult hnew hop.2
  rw [← hIM] at hT₄
  have hd : s₄.IM.find s₄.destReg = some d := by
    rw [hIM, hdestReg, InstructionTable.find_insertInstruction, if_pos]
    refine ⟨hresult.symm, ?_⟩
    rw [← Option.not_isSome_iff_eq_none, InstructionTable.isSome_find]
    exact hnew
  obtain ⟨s', hs', harrays, hIM'⟩ := step_store_of_not_loop BB operand0 hdest (by rw [hoperation]; exact hop.1)
    (by rw [hcount, hloads]) hd hloop
  refine ⟨s₄, s', h₄, hs', harrays, ?_⟩
  rcases hIM' with hIM' | hIM'
  · rw [hIM']
    exact hT₄
  · rw [hIM']
    exact hT₄.setStored _ _ _

/-- **The code of a plain assignment** enters its loads and its operator. -/
theorem exists_runsPlain {loads : List Reg} {ops : List Operator} {o : Operator} (hs : s.Ready)
    (harrays : s.NoArrays) (he : st.2.value.IsScalar info) (hdest : info.IsScalar st.2.dest)
    (ha : st.2.value.Addressed s.getRealSrcReg supply) (hloop : info.isLoopBody st.1 = false)
    (ho : st.2.value.operator s.getRealSrcReg = some o) (hT : PlainTable loads ops s.IM)
    (hops : ∀ v ∈ st.2.value.vars, v ∉ ops.map (·.result))
    (hfresh : o.result ∉ s.IM.instructionMap) : ∃ s', RunsPlain info loads ops s s' st o := by
  obtain ⟨BB, dest, e⟩ := st
  have hnull : ∀ r ∈ e.results, r ≠ s.destReg := fun r hr => hs.destReg ▸ (ha.results r hr).1
  have hnot : o.result ∉ e.vars := (ha.results _ (Expr.result_mem_results ho)).2
  -- the state after the loads
  have hloaded : ∀ x y, e.vars = [x, y] → PlainTable (loads ++ [x, y]) ops ((s.loaded x).loaded y).IM ∧
      o.result ∉ ((s.loaded x).loaded y).IM.instructionMap := by
    intro x y hvars
    have hx : x ∉ ops.map (·.result) := hops x (show x ∈ e.vars by simp [hvars])
    have hy : y ∉ ops.map (·.result) := hops y (show y ∈ e.vars by simp [hvars])
    rw [hvars] at hnot
    simp only [List.mem_cons, List.not_mem_nil, or_false, not_or] at hnot
    refine ⟨?_, ?_⟩
    · have htable := (hT.load hx).load hy
      rwa [List.append_assoc] at htable
    · show o.result ∉ ((s.IM.insertLoadInstruction x _).insertLoadInstruction y _).instructionMap
      rw [InstructionTable.mem_insertLoadInstruction, InstructionTable.mem_insertLoadInstruction]
      exact fun hmem => hmem.elim hnot.2 fun hmem => hmem.elim hnot.1 hfresh
  rcases Expr.operator_cases ho with ⟨result, opcode, x, rx, y, ry, rfl, hop, rfl⟩ | ⟨result, x, rx, n, y, ry, c, rfl, rfl⟩
  · obtain ⟨htable, hnew⟩ := hloaded x y rfl
    have hclean : ((s.loaded x).loaded y).Clean :=
      ⟨hs.isNegated, hs.tmpPtrSrc1, hs.tmpPtrSrc2, hs.tmpPtrDest, Nat.succ_le_succ (Nat.succ_le_succ hs.loadCount)⟩
    have hrecognised : opcode ≠ .unrecognised := by
      rintro rfl
      exact he.opcodes (by simp [Expr.opcodes])
    obtain ⟨count, -, hrec⟩ := recogniseOperation_of_clean result (.value rx) hclean hrecognised
      (show (Operand.value ry).isMinusOne = false from rfl)
    obtain ⟨s₄, s', h₄, hs', hnone, hT'⟩ := exists_insert_store info
      { (s.loaded x).loaded y with operation := opcode.operation, accumulationValidityCount := count }
      (o := ⟨result, opcode.operation, s.getRealSrcReg x, s.getRealSrcReg y⟩) hdest harrays
      (Opcode.operation_ne hrecognised) (hnull rx (by simp [Expr.results])) (hnull ry (by simp [Expr.results]))
      (by simp [loaded, hs.noLoads]) (by simp [loaded, hs.noLoads]; rfl) htable hnew BB (.value result)
    have hstep : step info ((s.loaded x).loaded y) (BB, .binaryOperator result opcode (.value rx) (.value ry)) =
        some s₄ := by
      have hvalid : info.isValidInst (.binaryOperator result opcode (.value rx) (.value ry)) = true := by
        simp [CollectInfo.isValidInst, he.results result (by simp [Expr.results])]
      rw [step, if_pos hvalid]
      show ((s.loaded x).loaded y).handleBinaryOperator info (info.isLoopBody BB) result opcode (.value rx)
        (.value ry) = _
      rw [handleBinaryOperator, hrec, Option.bind_some, if_neg (by simp [loaded, hs.isNegated]), hloop, h₄]
    refine ⟨s', ?_, hnone, hT'⟩
    show (step info s (BB, .load rx x)).bind (fun s₁ => (step info s₁ (BB, .load ry y)).bind fun s₂ =>
      (step info s₂ (BB, .binaryOperator result opcode (.value rx) (.value ry))).bind fun s₃ =>
      (step info s₃ (BB, .store (.value result) dest)).bind some) = _
    rw [step_load (he.vars x (by simp [Expr.vars])), Option.bind_some, step_load (he.vars y (by simp [Expr.vars])),
      Option.bind_some, hstep, Option.bind_some, hs']
    rfl
  · obtain ⟨htable, hnew⟩ := hloaded x y rfl
    obtain ⟨s₄, s', h₄, hs', hnone, hT'⟩ := exists_insert_store info
      { ((s.loaded x).loaded y).held n with operation := .xnor, isNegated := false }
      (o := ⟨result, .xnor, s.getRealSrcReg x, s.getRealSrcReg y⟩) hdest harrays ⟨by simp, by simp⟩
      (hnull rx (by simp [xnorExpr, Expr.results])) (hnull n (by simp [xnorExpr, Expr.results]))
      (by simp [loaded, held, hs.noLoads]) (by simp [loaded, held, hs.noLoads]; rfl) htable hnew BB (.value result)
    have hheld : step info ((s.loaded x).loaded y) (BB, .binaryOperator n .xor (.value ry) (.constantInt c (-1))) =
        some (((s.loaded x).loaded y).held n) :=
      step_held (he.results n (by simp [xnorExpr, Expr.results]))
        (recogniseOperation_complement _ n (.value ry) c) rfl
    have hstep : step info (((s.loaded x).loaded y).held n) (BB, .binaryOperator result .xor (.value rx) (.value n)) =
        some s₄ := by
      have hvalid : info.isValidInst (.binaryOperator result .xor (.value rx) (.value n)) = true := by
        simp [CollectInfo.isValidInst]
      rw [step, if_pos hvalid]
      show (((s.loaded x).loaded y).held n).handleBinaryOperator info (info.isLoopBody BB) result .xor (.value rx)
        (.value n) = _
      rw [handleBinaryOperator, recogniseOperation_xnor rfl rfl, Option.bind_some, hloop]
      exact h₄
    refine ⟨s', ?_, hnone, hT'⟩
    show (step info s (BB, .load rx x)).bind (fun s₁ => (step info s₁ (BB, .load ry y)).bind fun s₂ =>
      (step info s₂ (BB, .binaryOperator n .xor (.value ry) (.constantInt c (-1)))).bind fun s₃ =>
      (step info s₃ (BB, .binaryOperator result .xor (.value rx) (.value n))).bind fun s₄ =>
      (step info s₄ (BB, .store (.value result) dest)).bind some) = _
    rw [step_load (he.vars x (by simp [xnorExpr, Expr.vars])), Option.bind_some,
      step_load (he.vars y (by simp [xnorExpr, Expr.vars])), Option.bind_some, hheld, Option.bind_some, hstep,
      Option.bind_some, hs']
    rfl

/-- **The code of a plain program** enters its loads and its operators. -/
theorem run_plainProgram {loads : List Reg} {ops : List Operator}
    (hs : Supplied supply [] program s) (h : ScalarProgram info program) (hplain : PlainProgram info program)
    (harrays : s.NoArrays) (hT : PlainTable loads ops s.IM) (hops : ∀ o ∈ ops, o.result ∉ varsOf program) :
    ∃ s', run (step info) s (program.flatMap assignmentCode) = some s' ∧
      PlainTable (loads ++ loadsOf program) (ops ++ operatorsOf supply program) s'.IM := by
  induction program generalizing s supply loads ops with
  | nil => exact ⟨s, rfl, by simpa [loadsOf, operatorsOf] using hT⟩
  | cons st rest ih =>
    obtain ⟨hsome, hloop⟩ := hplain st List.mem_cons_self
    obtain ⟨o, ho⟩ := Expr.isSome_operator s.getRealSrcReg hsome
    obtain ⟨hform, hkept⟩ := Expr.kept_of_operator ho
    obtain ⟨he, hdest⟩ := h.scalar st List.mem_cons_self
    have hvars : ∀ v ∈ st.2.value.vars, v ∈ varsOf (st :: rest) := fun v hv =>
      List.mem_append_left _ (List.mem_cons_of_mem _ hv)
    have hresult := Expr.result_mem_results ho
    have hfresh : o.result ∉ s.IM.instructionMap := by
      rw [← InstructionTable.isSome_find, Option.not_isSome_iff_eq_none, ← InstructionTable.recorded_eq_none]
      exact hs.fresh _ (List.mem_append_left _ hresult)
    obtain ⟨s₁, hruns⟩ := exists_runsPlain hs.ready harrays he hdest (hs.addressed h) hloop ho hT
      (fun v hv hmem => by
        obtain ⟨o', ho', rfl⟩ := List.mem_map.mp hmem
        exact hops o' ho' (hvars _ hv)) hfresh
    obtain ⟨s₁', hrun, hassigns, -⟩ := run_kept hs h hform hkept
    obtain rfl : s₁ = s₁' := Option.some.inj (hruns.run.symm.trans hrun)
    -- the detector takes for a variable what supplies it
    have hreal : ∀ v ∈ st.2.value.vars, s.getRealSrcReg v = supply v := fun v hv =>
      (hs.copied v (hvars v hv)).mpr (by simp)
    have hs₁ := hs.assigns h hassigns
    rw [show copiedAfter [] st.2 = [] by simp [copiedAfter, isLeaf_of_logicForm hform]] at hs₁
    have hops' : ∀ o' ∈ ops ++ [o], o'.result ∉ varsOf rest := by
      intro o' ho' hmem
      rcases List.mem_append.mp ho' with ho' | ho'
      · exact hops o' ho' (List.mem_append_right _ hmem)
      · obtain rfl := List.mem_singleton.mp ho'
        exact (h.results _ (List.mem_append_left _ hresult)).2.1 (List.mem_append_right _ hmem)
    obtain ⟨s', hrun', hT'⟩ := ih hs₁ h.tail (fun st hst => hplain st (List.mem_cons_of_mem _ hst)) hruns.noArrays
      hruns.table hops'
    refine ⟨s', ?_, ?_⟩
    · rw [List.flatMap_cons, run_append, hruns.run, Option.bind_some, hrun']
    · rw [operatorsOf, Expr.operator_congr hreal ho, Option.toList_some, loadsOf, List.flatMap_cons, ← List.append_assoc,
        ← List.append_assoc]
      exact hT'

end DependencyDetector

/-! ### The schedule -/

/-- The sources of an operator are loaded, or results of the operators before it. -/
def Sourced (loads : List Reg) (ops : List Operator) : Prop :=
  ∀ before o after, ops = before ++ o :: after → ∀ src, src = o.src1 ∨ src = o.src2 →
    src ∈ loads ∨ src ∈ before.map (·.result)

theorem sourced_operatorsOf (supply : Reg → Reg) {program : List (Reg × Statement)}
    (hplain : ∀ st ∈ program, (st.2.value.operator id).isSome) :
    Sourced ((loadsOf program).map supply) (operatorsOf supply program) := by
  induction program generalizing supply with
  | nil =>
    intro before o after h
    simp [operatorsOf] at h
  | cons st rest ih =>
    obtain ⟨o₀, ho₀⟩ := Expr.isSome_operator supply (hplain st List.mem_cons_self)
    intro before o after h src hsrc
    rw [operatorsOf, ho₀, Option.toList_some, List.singleton_append] at h
    rw [loadsOf, List.flatMap_cons, List.map_append, List.mem_append]
    cases before with
    | nil =>
      obtain ⟨rfl, -⟩ := List.cons.inj h
      obtain ⟨x, y, hvars, h1, h2⟩ := Expr.sources_of_operator ho₀
      refine .inl (.inl ?_)
      rw [hvars]
      rcases hsrc with rfl | rfl
      · simp [h1]
      · simp [h2]
    | cons o₁ before =>
      obtain ⟨rfl, hrest⟩ := List.cons.inj h
      rcases ih _ (fun st hst => hplain st (List.mem_cons_of_mem _ hst)) before o after hrest src hsrc with hmem | hmem
      · -- the variable was assigned here, or is supplied as before
        obtain ⟨v, hv, rfl⟩ := List.mem_map.mp hmem
        rw [supplyAfter, Function.update_apply]
        split
        · refine .inr (List.mem_cons.mpr (.inl ?_))
          exact Expr.key_of_operator ho₀ supply
        · exact .inl (.inr (List.mem_map_of_mem hv))
      · exact .inr (List.mem_cons_of_mem _ hmem)

/-- The sources of every entry are keys. -/
theorem PlainTable.closed (h : PlainTable loads ops T) (hsources : Sourced loads ops) : ASAP.Closed T := by
  rintro k src ⟨d, hd, hop, hsrc⟩
  have hkey : k ∈ T.instructionMap := (InstructionTable.isSome_find T k).mp (Option.isSome_of_eq_some hd)
  have hlog := (h.logged.find k d.operation).mpr ⟨d, hd, rfl⟩
  -- an entry with an operation is that of an operator
  obtain ⟨o, ho, rfl, hoperation⟩ : ∃ o ∈ ops, o.result = k ∧ o.operation = d.operation := by
    rcases List.mem_append.mp hlog with hmem | hmem
    · obtain ⟨v, -, heq⟩ := List.mem_map.mp hmem
      exact absurd (congrArg (·.2) heq).symm hop
    · obtain ⟨o, ho, heq⟩ := List.mem_map.mp hmem
      exact ⟨o, ho, congrArg (·.1) heq, congrArg (·.2) heq⟩
  have hbound := h.operators o ho
  rw [hd, Option.map_some, Option.some.injEq] at hbound
  have h1 : d.sourceReg1 = o.src1 := congrArg (·.2.2.1.1) hbound
  have h2 : d.sourceReg2 = o.src2 := congrArg (·.2.2.2.1) hbound
  obtain ⟨before, after, hsplit⟩ := List.append_of_mem ho
  have hsrc : src = o.src1 ∨ src = o.src2 := by
    rcases hsrc with ⟨-, rfl⟩ | ⟨-, rfl⟩
    · exact .inl h1
    · exact .inr h2
  refine (h.mem_iff src).mpr ((hsources before o after hsplit src hsrc).imp_right fun hmem => ?_)
  rw [hsplit, List.map_append]
  exact List.mem_append_left _ hmem

open DependencyDetector in
/-- **The table of a plain program.** The detector and the scheduler end, with a table of the loads and
the operators of the program, in their order. -/
theorem plainTable_of_schedule {info : CollectInfo} {program : List AssignmentBlock}
    (h : ScalarProgram info (assignments program)) (hplain : PlainProgram info (assignments program)) :
    ∃ s T, detectDependencies info (basicBlocks program) = some s ∧ ASAP.scheduleFunction s.IM = some T ∧
      PlainTable (loadsOf (assignments program)) (operatorsOf id (assignments program)) T ∧
      T.instructionOrderVector = plainLog (loadsOf (assignments program)) (operatorsOf id (assignments program)) := by
  obtain ⟨s, hrun, hT⟩ := run_plainProgram (supplied_init h) h hplain ⟨rfl, rfl⟩ PlainTable.empty (by simp)
  have hdetect : detectDependencies info (basicBlocks program) =
      some { s with IM := s.IM.reorderInstructionVector } := by
    rw [detectDependencies, instructions_basicBlocks, hrun]
    rfl
  have hsources := sourced_operatorsOf id fun st hst => (hplain st hst).1
  rw [List.map_id] at hsources
  have hT := hT.reorderInstructionVector
  obtain ⟨T, hschedule⟩ := ASAP.exists_scheduleFunction (hT.closed hsources)
  obtain ⟨hT', horder⟩ := hT.schedule hschedule
  exact ⟨_, T, hdetect, hschedule, hT', horder⟩

end Octantis
