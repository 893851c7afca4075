import Octantis.Lib.Restart
import Octantis.SchedulerGraph.Graph

/-!
# The scheduling of the rows

`resourceScheduling` and `resourceSchedulingMaxArea` place every register of the graph on a
row of the memory for the time of its life. The first takes new rows while there are any,
the second a row that is free; where there is neither, a constraint is added, everything is
cleared, and the function begins again with what the solver then gives.

## The model

The solver is `Answer`: some integer time for every column. Its constraints, which only it
reads, are left out, as are `_schedulingASAP` and `_schedulingALAP`, which nothing reads. A
map that is only looked up and added to is a function, that of default values where it is
empty; `_mobility_list`, which an attempt makes and empties, is the list of its names in
their order.

A step is `none` where the function begins again, and the whole is `none` where the solver
fails: the program exits.
-/

namespace Octantis

open Std Lib

/-- The sizes of the memory. -/
structure Sizes where
  /-- `_mem_size`: the number of rows, or 0 where that does not matter. -/
  memSize : ℕ
  /-- `_mux_size`: the number of nodes on a row. -/
  muxSize : ℕ
  two_le : 2 ≤ muxSize

/-- The sizes that the class is declared with. -/
def Sizes.default : Sizes := ⟨10, 4, by decide⟩

/-- What `asap_sdc` and `alap_sdc` get from the solver. -/
structure Answer where
  asap : Text → ℤ
  alap : Text → ℤ

/-- The data of the scheduling. -/
structure Scheduling where
  /-- `_graph` -/
  graph : NodeMap
  /-- The names of the columns. -/
  columns : List Text
  /-- `_resultASAP` -/
  resultASAP : ExtTreeMap Text ℤ
  /-- `_resultALAP` -/
  resultALAP : ExtTreeMap Text ℤ
  /-- `_type_usage` -/
  typeUsage : ExtTreeMap Text (ExtTreeMap Text ℕ)
  /-- `_scoreboard` -/
  scoreboard : Text → Text → ℤ → Option Text
  /-- `_scheduling` -/
  scheduling : ℤ → List Text
  /-- `_HWscheduling` -/
  HWscheduling : ℤ → List Text
  /-- `_HWgraph` -/
  HWgraph : NodeMap
  /-- `_node_to_HW` -/
  nodeToHW : Text → Text
  /-- `_HW_to_node` -/
  HWToNode : Text → List Text
  /-- `_mem_usage` -/
  memUsage : ℕ
  /-- `_recursion` -/
  recursion : ℕ

/-- `map[key].push_back(x)`. -/
def pushBack {κ : Type} [DecidableEq κ] (map : κ → List Text) (key : κ) (x : Text) : κ → List Text :=
  Function.update map key (map key ++ [x])

namespace Scheduling

/-- `_mobility_id`. -/
def mobility_id (s : Scheduling) : ExtTreeMap ℤ (List Text) :=
  s.resultASAP.toList.foldl (fun (mobilityList : ExtTreeMap ℤ (List Text)) entry =>
    let mob := s.resultALAP[entry.1]?.getD 0 - entry.2
    mobilityList.insert mob (mobilityList[mob]?.getD [] ++ [entry.1])) ∅

/-- The names in the order of the mobility list. -/
def order (s : Scheduling) : List Text := s.mobility_id.toList.flatMap (·.2)

/-! ### The life of a node -/

/-- `Tstart` -/
def Tstart (s : Scheduling) (id : Text) : ℤ := s.resultALAP[id]?.getD 0

/-- `Tend`: the latest of the children. -/
def Tend (s : Scheduling) (id : Text) : ℤ :=
  (s.graph.node id).children.foldl (fun Tend child => max (s.resultALAP[child]?.getD 0) Tend) (s.Tstart id)

/-- `LiMtype` -/
def LiMtype (s : Scheduling) (id : Text) : Text := (s.graph.node id).limType

/-- The values of `t`. -/
def times (s : Scheduling) (id : Text) : List ℤ :=
  (List.range (s.Tend id - s.Tstart id + 1).toNat).map fun (k : ℕ) => s.Tstart id + k

/-! ### The place of a node -/

/-- `"#"+std::to_string(_mem_usage)` -/
def newHWid (s : Scheduling) : Text := '#' :: (toString s.memUsage).toList

/-- The rows of the type, with the count of their nodes. -/
def usage (s : Scheduling) (LiMtype : Text) : ExtTreeMap Text ℕ := s.typeUsage[LiMtype]?.getD ∅

/-- The first row of the type that is free. -/
def available (s : Scheduling) (id : Text) : Option Text :=
  (s.usage (s.LiMtype id)).keys.find? fun HWid =>
    decide (∀ t ∈ s.times id, s.scoreboard (s.LiMtype id) HWid t = none)

/-- `_type_usage[LiMtype][HWid]=count`. -/
def setUsage (s : Scheduling) (LiMtype HWid : Text) (count : ℕ) : ExtTreeMap Text (ExtTreeMap Text ℕ) :=
  s.typeUsage.insert LiMtype ((s.usage LiMtype).insert HWid count)

/-- What is noted of a node that is placed. -/
def note (s : Scheduling) (id HWid : Text) : Scheduling :=
  { s with
    scoreboard := Function.update s.scoreboard (s.LiMtype id) (Function.update (s.scoreboard (s.LiMtype id)) HWid
      ((s.times id).foldl (fun board t => Function.update board t (some id)) (s.scoreboard (s.LiMtype id) HWid)))
    scheduling := pushBack s.scheduling (s.Tstart id) id
    HWscheduling := pushBack s.HWscheduling (s.Tstart id) HWid
    nodeToHW := Function.update (Function.update s.nodeToHW id HWid) (s.graph.node id).limId
      (s.LiMtype id ++ HWid)
    HWToNode := pushBack s.HWToNode HWid id }

/-- The node gets a row of its own. -/
def newRow (s : Scheduling) (id : Text) : Scheduling :=
  { s.note id s.newHWid with
    typeUsage := s.setUsage (s.LiMtype id) s.newHWid 1
    HWgraph := s.HWgraph.set s.newHWid (.ofDelay s.newHWid 1)
    -- it is the graph of the nodes that gets the logic of the row
    graph := if s.LiMtype id ≠ Node.REG then s.graph.update s.newHWid (·.setLiM (s.LiMtype id ++ s.newHWid))
      else s.graph
    memUsage := s.memUsage + 1 }

/-- The node gets a row that is there; a row that is full is not to be found again. -/
def reuseRow (s : Scheduling) (sizes : Sizes) (id HWid : Text) : Scheduling :=
  let count := (s.usage (s.LiMtype id))[HWid]?.getD 0 + 1
  { s.note id HWid with
    typeUsage :=
      if count = sizes.muxSize then
        s.typeUsage.insert (s.LiMtype id) (((s.usage (s.LiMtype id)).insert HWid count).erase HWid)
      else s.setUsage (s.LiMtype id) HWid count }

/-- One name of the list, in `resourceScheduling`. -/
def place (sizes : Sizes) (s : Scheduling) (id : Text) : Option Scheduling :=
  if (s.graph.node id).getType = Node.REG then
    if s.memUsage < sizes.memSize then some (s.newRow id)
    else
      match s.available id with
      | some HWid => some (s.reuseRow sizes id HWid)
      | none => if 0 < s.recursion then none else some s
  else some s

/-- One name of the list, in `resourceSchedulingMaxArea`. -/
def placeMaxArea (sizes : Sizes) (s : Scheduling) (id : Text) : Option Scheduling :=
  if (s.graph.node id).getType = Node.REG then
    match if s.LiMtype id ∈ s.typeUsage then s.available id else none with
    | some HWid => some (s.reuseRow sizes id HWid)
    | none =>
      if sizes.memSize = 0 ∨ s.memUsage < sizes.memSize then some (s.newRow id)
      else if 0 < s.recursion then none
      else some s
  else some s

/-! ### The attempts -/

/-- `_clear`: `_HW_to_node` and the graph are as they were. -/
def clear (s : Scheduling) : Scheduling :=
  { s with
    resultASAP := ∅, resultALAP := ∅, typeUsage := ∅, scoreboard := fun _ _ _ => none, scheduling := fun _ => [],
    HWscheduling := fun _ => [], HWgraph := ∅, nodeToHW := fun _ => [], memUsage := 0 }

/-- `asap_sdc` and `alap_sdc`. -/
def solve (s : Scheduling) (answer : Answer) : Scheduling :=
  { s with
    resultASAP := s.columns.foldl (fun result id => result.insert id (answer.asap id)) s.resultASAP
    resultALAP := s.columns.foldl (fun result id => result.insert id (answer.alap id)) s.resultALAP }

/-- The function begins again. -/
def restart (s : Scheduling) (answer : Answer) : Scheduling :=
  { s.clear.solve answer with recursion := s.recursion - 1 }

/-- `_connect_HWedge`. -/
def connect_HWedge (s : Scheduling) : Scheduling :=
  { s with
    HWgraph := s.graph.toList.foldl (fun HWgraph entry =>
      entry.2.children.foldl (fun (HWgraph : NodeMap) child =>
        if s.nodeToHW child ∈ (HWgraph.node (s.nodeToHW entry.1)).children then HWgraph
        else (HWgraph.update (s.nodeToHW entry.1) (·.setChild (s.nodeToHW child))).update (s.nodeToHW child)
          (·.setFather (s.nodeToHW entry.1))) HWgraph) s.HWgraph }

/-- **`resourceScheduling`**, with the answers that the solver gives after the first. -/
def resourceScheduling (sizes : Sizes) (answers : List Answer) (s : Scheduling) : Option Scheduling :=
  (attempts (place sizes) order restart answers s).map connect_HWedge

/-- **`resourceSchedulingMaxArea`**. -/
def resourceSchedulingMaxArea (sizes : Sizes) (answers : List Answer) (s : Scheduling) : Option Scheduling :=
  (attempts (placeMaxArea sizes) order restart answers s).map connect_HWedge

/-- The scheduling of a graph before the first attempt, with the first answer. -/
def start (sizes : Sizes) (graph : NodeMap) (answer : Answer) : Scheduling :=
  solve
    { graph := graph, columns := graph.keys, resultASAP := ∅, resultALAP := ∅, typeUsage := ∅
      scoreboard := fun _ _ _ => none, scheduling := fun _ => [], HWscheduling := fun _ => [], HWgraph := ∅
      nodeToHW := fun _ => [], HWToNode := fun _ => [], memUsage := 0, recursion := sizes.memSize * 6 } answer

end Scheduling

end Octantis
