import Mathlib.Data.List.DropRight
import Std.Data.ExtTreeMap
import Octantis.Parsers.FieldList

/-!
# The graph of the scheduler

`fileToGraph` reads one operation from each line of the file and adds it to the graph: a
node for the operator, between the rows that it reads and the row of its result. A row that
carries the logic of an operation already is copied when it is to carry another one.
`graphToSDC` makes a constraint of every edge.

## The model

`std::map` is `ExtTreeMap`, and `operator[]` of a key that is not there is that of a default
node. The locals of `fileToGraph` that a line sets before they are read are arguments.
`popN` of a name of digits only, whose `back` is undefined in the end, is the empty name.
The colour and the time of a node, which nothing reads, and the messages are left out.

A file is described by its lines (`Line`). The variables and the constraints of the solver
are the columns that `_setVariableNameLP` numbers and the rows that `add_constraintex` gets;
the memory that it asks for is taken to be there.
-/

namespace Octantis

open Std

/-- A node of the graph. -/
structure Node where
  /-- `_id` -/
  id : Text
  /-- `_children` -/
  children : List Text
  /-- `_fathers` -/
  fathers : List Text
  /-- `_delay` -/
  delay : ℤ
  /-- `_LiM_id`: the logic that the row carries. -/
  limId : Text
  /-- `_LiM_type` -/
  limType : Text
  deriving DecidableEq, Repr

namespace Node

/-- `"REG"` -/
def REG : Text := "REG".toList

/-- `Node()` -/
def empty : Node := ⟨[], [], [], 0, [], []⟩

/-- `Node(id)` -/
def ofId (id : Text) : Node := ⟨id, [], [], 0, [], []⟩

/-- `Node(id, delay)` -/
def ofDelay (id : Text) (delay : ℤ) : Node := ⟨id, [], [], delay, [], REG⟩

/-- `Node(id, Old)` -/
def copy (id : Text) (Old : Node) : Node := ⟨id, [], Old.fathers, Old.delay, [], Old.limType⟩

def setChild (node : Node) (child : Text) : Node := { node with children := node.children ++ [child] }

def setFather (node : Node) (father : Text) : Node := { node with fathers := node.fathers ++ [father] }

/-- `popN`: the name without the digits at its end. -/
def popN (id : Text) : Text := id.rdropWhile Char.isDigit

/-- `setLiM`, unless the node carries logic already. -/
def setLiM (node : Node) (idLogic : Text) : Node :=
  if node.limId = [] then { node with limId := idLogic, limType := popN idLogic } else node

/-- `_op_recognized` -/
def opRecognized : List Text :=
  ["AND", "OR", "XOR", "NOT", "XNOR", "RSH", "ADD"].map String.toList

/-- `getType`: the operation, or a register. -/
def getType (node : Node) : Text := if popN node.id ∈ opRecognized then popN node.id else REG

end Node

/-- The nodes of a graph, by name. -/
abbrev NodeMap := ExtTreeMap Text Node

namespace NodeMap

/-- `graph[id]`, to be read. -/
def node (g : NodeMap) (id : Text) : Node := g[id]?.getD .empty

/-- `graph[id] = node`. -/
def set (g : NodeMap) (id : Text) (node : Node) : NodeMap := g.insert id node

/-- `graph[id]`, to be changed. -/
def update (g : NodeMap) (id : Text) (f : Node → Node) : NodeMap := g.set id (f (g.node id))

/-- The row carries logic: `setLiM` returns 1. -/
def CarriesLogic (g : NodeMap) (id : Text) : Prop := (g.node id).limId ≠ []

instance (g : NodeMap) (id : Text) : Decidable (g.CarriesLogic id) := by
  unfold CarriesLogic
  infer_instance

/-- A node that is not there is added. -/
def ensure (g : NodeMap) (id : Text) : NodeMap := g.insertIfNew id (.ofDelay id 1)

/-- `_graph[rs1+rs1]=Node(rs1+rs1, _graph[rs1])`. -/
def duplicate (g : NodeMap) (rs1 : Text) : NodeMap := g.set (rs1 ++ rs1) (.copy (rs1 ++ rs1) (g.node rs1))

/-- The logic of a row, or of a copy of it. -/
def placeOrCopy (g : NodeMap) (op_n rs1 : Text) : NodeMap × Text :=
  if g.CarriesLogic rs1 then ((g.duplicate rs1).update (rs1 ++ rs1) (·.setLiM op_n), rs1 ++ rs1)
  else (g.update rs1 (·.setLiM op_n), rs1)

/-- The logic goes to `rs2`, or to `rs1`, or to a copy of `rs1`. -/
def placeLogic (g : NodeMap) (op_n rs1 rs2 : Text) : NodeMap × Text :=
  if g.CarriesLogic rs2 then g.placeOrCopy op_n rs1 else (g.update rs2 (·.setLiM op_n), rs1)

/-- The edges between `rd` and `op_n`, and between the sources and `op_n`. -/
def addEdges (g : NodeMap) (rd op_n : Text) (sources : List Text) : NodeMap :=
  let g := g.update rd (·.setFather op_n)
  let g := g.update op_n (·.setChild rd)
  let g := sources.foldl (fun g rs => g.update rs (·.setChild op_n)) g
  sources.foldl (fun g rs => g.update op_n (·.setFather rs)) g

end NodeMap

/-- The graph. -/
structure SchedulerGraph where
  /-- `_graph` -/
  graph : NodeMap
  /-- `_roots_flag` -/
  rootsFlag : ExtTreeMap Text Bool
  /-- `_leaves_flag` -/
  leavesFlag : ExtTreeMap Text Bool
  /-- `_roots_graph` -/
  rootsGraph : List Text
  /-- `_leaves_graph` -/
  leavesGraph : List Text

namespace SchedulerGraph

/-- The graph before the first line. -/
def empty : SchedulerGraph := ⟨∅, ∅, ∅, [], []⟩

/-- The edges of an operation, and the flags of its rows. -/
def addEdges (s : SchedulerGraph) (graph : NodeMap) (rd op_n : Text) (sources : List Text) : SchedulerGraph :=
  { s with
    graph := graph.addEdges rd op_n sources
    rootsFlag := sources.foldl (fun flags rs => flags.insertIfNew rs true) (s.rootsFlag.insert rd false)
    leavesFlag := sources.foldl (fun flags rs => flags.insert rs false) (s.leavesFlag.insertIfNew rd true) }

/-- `_addNode` of an operation with two sources. -/
def addNode2 (s : SchedulerGraph) (rd op_n rs1 rs2 : Text) : SchedulerGraph :=
  let graph := (((s.graph.set op_n (.ofId op_n)).ensure rd).ensure rs1).ensure rs2
  let (graph, rs1) := graph.placeLogic op_n rs1 rs2
  s.addEdges graph rd op_n [rs1, rs2]

/-- `_addNode` of an operation with one source. -/
def addNode1 (s : SchedulerGraph) (rd op_n rs1 : Text) : SchedulerGraph :=
  let graph := ((s.graph.set op_n (.ofId op_n)).ensure rd).ensure rs1
  let (graph, rs1) := graph.placeOrCopy op_n rs1
  s.addEdges graph rd op_n [rs1]

end SchedulerGraph

/-! ### The file -/

/-- `"NOT"` -/
def notOp : Text := "NOT".toList

theorem and_ne_notOp : "AND".toList ≠ notOp := by decide

/-- A line of the file. -/
inductive Line where
  /-- `rd OP rs1 rs2` -/
  | two (rd op rs1 rs2 : Text) (h : op ≠ notOp)
  /-- `rd NOT rs1` -/
  | one (rd rs1 : Text)

namespace Line

/-- The operation. -/
def op : Line → Text
  | two _ op _ _ _ => op
  | one _ _ => notOp

/-- The row of the result. -/
def rd : Line → Text
  | two rd _ _ _ _ => rd
  | one rd _ => rd

/-- The first row that is read. -/
def rs1 : Line → Text
  | two _ _ rs1 _ _ => rs1
  | one _ rs1 => rs1

end Line

/-- `fileToGraph` between two lines: the graph and the number of the next one. -/
structure Reading where
  graph : SchedulerGraph
  n : ℕ

namespace Reading

/-- `op+std::to_string(n)`. -/
def op_n (r : Reading) (line : Line) : Text := line.op ++ (toString r.n).toList

/-- One line of `fileToGraph`. -/
def readLine (r : Reading) (line : Line) : Reading :=
  match line with
  | .two rd _ rs1 rs2 _ => ⟨r.graph.addNode2 rd (r.op_n line) rs1 rs2, r.n + 1⟩
  | .one rd rs1 => ⟨r.graph.addNode1 rd (r.op_n line) rs1, r.n + 1⟩

/-- `fileToGraph` before the first line. -/
def start : Reading := ⟨.empty, 1⟩

end Reading

namespace SchedulerGraph

/-- The names with the flag, as the two maps are gone through together. -/
def flagged (flags others : ExtTreeMap Text Bool) : List Text :=
  (flags.toList.zip others.toList).filterMap fun e => if e.1.2 then some e.1.1 else none

/-- **`fileToGraph`**. -/
def fileToGraph (lines : List Line) : SchedulerGraph :=
  let r := lines.foldl Reading.readLine .start
  { r.graph with
    rootsGraph := flagged r.graph.rootsFlag r.graph.leavesFlag
    leavesGraph := flagged r.graph.leavesFlag r.graph.rootsFlag }

/-! ### The system of constraints -/

/-- A constraint `GE`: the columns with their coefficients, and the bound. -/
structure Constraint where
  columns : List (ℕ × ℤ)
  bound : ℤ
  deriving DecidableEq, Repr

/-- The system: `_pos_id` and the rows. -/
structure System where
  posId : ExtTreeMap Text ℕ
  rows : List Constraint

/-- `_setVariableNameLP`. -/
def setVariableNameLP (posId : ExtTreeMap Text ℕ) (id : Text) : ExtTreeMap Text ℕ :=
  posId.insertIfNew id (1 + posId.size)

/-- The constraint of an edge: `T_child - T_id >= delay of the child`. -/
def addChild (g : NodeMap) (id : Text) (system : System) (child : Text) : System :=
  let posId := setVariableNameLP system.posId child
  ⟨posId, system.rows ++
    [⟨[(posId[id]?.getD 0, -1), (posId[child]?.getD 0, 1)], (g.node child).delay⟩]⟩

/-- The constraints of a node. -/
def addChildren (g : NodeMap) (system : System) (entry : Text × Node) : System :=
  entry.2.children.foldl (addChild g entry.1) ⟨setVariableNameLP system.posId entry.1, system.rows⟩

/-- **`graphToSDC`**. -/
def graphToSDC (s : SchedulerGraph) : System := s.graph.toList.foldl (addChildren s.graph) ⟨∅, []⟩

end SchedulerGraph

end Octantis
