import UnitCompiler.Compile.OptionsFile
import UnitCompiler.Compile.Unit
import UnitCompiler.Ir.Interchange
import UnitCompiler.Json.Parser
import UnitCompiler.Json.Printer
import UnitCompiler.Machine.Run
import UnitCompiler.Tree.Interchange
import UnitCompiler.Proofs.Integer.TwosComplement
import UnitCompiler.Proofs.Compile.Actions
import UnitCompiler.Proofs.Compile.Assignments
import UnitCompiler.Proofs.Compile.Branches
import UnitCompiler.Proofs.Compile.Defers
import UnitCompiler.Proofs.Compile.Statements
import UnitCompiler.Proofs.Machine.Calls
import UnitCompiler.Proofs.Source.Unit
import UnitCompiler.Proofs.Compile.Entries
import UnitCompiler.Proofs.Compile.Functions
import UnitCompiler.Proofs.Compile.Units
import UnitCompiler.Proofs.Machine.Boot
import UnitCompiler.Proofs.Machine.Verified
import UnitCompiler.Proofs.Machine.Paths
import UnitCompiler.Proofs.Compile.Sessions
import UnitCompiler.Proofs.Compile.Hygiene
import UnitCompiler.Proofs.Compile.Inheritance
import UnitCompiler.Proofs.Source.Folding
import UnitCompiler.Proofs.Compile.Agreement
import UnitCompiler.Proofs.Types.Layout
import UnitCompiler.Proofs.Types.Signatures
import UnitCompiler.Proofs.Relocation.Reset
import UnitCompiler.Proofs.Compile.RoundTrip
import UnitCompiler.Proofs.Phases.Emitting
import UnitCompiler.Proofs.Machine.Registers
import UnitCompiler.Proofs.Machine.Endless
import UnitCompiler.Proofs.Compile.Names
import UnitCompiler.Proofs.Phases.Branches
import UnitCompiler.Proofs.Types.Cycles
import UnitCompiler.Proofs.Compile.Completion
import UnitCompiler.Proofs.Disciplines.Confinement
import UnitCompiler.Proofs.Order.Independence
import UnitCompiler.Proofs.Machine.FixedWidth
import UnitCompiler.Proofs.Machine.Footprint
import UnitCompiler.Proofs.Compile.FoldedOperations
import UnitCompiler.Proofs.Compile.ConstantPlaces
import UnitCompiler.Proofs.Types.ArrayLengths
import UnitCompiler.Proofs.Compile.InitialValues
import UnitCompiler.Proofs.Disciplines.Nesting
import UnitCompiler.Proofs.Disciplines.Scheduling
import UnitCompiler.Proofs.Compile.Instances
import UnitCompiler.Proofs.Types.Substitution
import UnitCompiler.Proofs.Ir.Graph
import UnitCompiler.Proofs.Relocation.Subtrees
import UnitCompiler.Proofs.Types.NaturalLayout
import UnitCompiler.Proofs.Machine.Loading
import UnitCompiler.Proofs.Machine.StackDiscipline
import UnitCompiler.Proofs.Compile.AggregateCasts
import UnitCompiler.Proofs.Machine.Masking
import UnitCompiler.Proofs.Compile.Scopes
import UnitCompiler.Proofs.Compile.Operators
import UnitCompiler.Proofs.Compile.Construction
import UnitCompiler.Proofs.Compile.Capture
import UnitCompiler.Proofs.Compile.FunctionValues
import UnitCompiler.Proofs.Phases.Failures
import UnitCompiler.Proofs.Phases.Consistency
