import Octantis.OctantisPass
import Octantis.Binding.Reuse
import Octantis.CodeGeneration.Memory
import Octantis.CodeGeneration.MuxSelect
import Octantis.CodeGeneration.RowSignals
import Octantis.CodeGeneration.Execution
import Octantis.CodeGeneration.AccumulationWords
import Octantis.CodeGeneration.ProgramWords
import Octantis.CodeGeneration.DeclaredCells
import Octantis.CodeGeneration.Testbench
import Octantis.CodeGeneration.OrderedRuns
import Octantis.Binding.AccumulationSum
import Octantis.Binding.AccumulationReuse
import Octantis.Binding.Times
import Octantis.Binding.Names
import Octantis.Binding.Shape
import Octantis.Binding.BindingPhase
import Octantis.Binding.ElementRows
import Octantis.Analysis.RecordedStores
import Octantis.Analysis.AccumulationTags
import Octantis.Analysis.Operands
import Octantis.Analysis.Complements
import Octantis.Analysis.Entries
import Octantis.Analysis.ArraySizes
import Octantis.Analysis.Iterations
import Octantis.Analysis.LoopInfos
import Octantis.Analysis.LoopBody
import Octantis.Analysis.Accesses
import Octantis.Utils.MatrixAccess
import Octantis.Utils.ExpandedRows
import Octantis.Utils.WindowAccess
import Octantis.Utils.Termination
import Octantis.Utils.Pruning
import Octantis.Utils.PatternReads
import Octantis.Parsers.FieldList
import Octantis.Parsers.PrintConfig
import Octantis.Binding.AccumulationSets
import Octantis.Binding.NestProgram
import Octantis.SchedulerGraph.Edges
import Octantis.SchedulerGraph.Rows
import Octantis.SchedulerGraph.Postponing
import Octantis.Utils.InstructionOrder
import Octantis.Analysis.IterationVector
import Octantis.Analysis.LoadSources
import Octantis.Binding.ResultRows
