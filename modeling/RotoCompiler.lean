import RotoCompiler.Ast
import RotoCompiler.TypeChecker.TypeCycle
import RotoCompiler.TypeChecker.RecordAtoms
import RotoCompiler.TypeChecker.DivergenceSound
import RotoCompiler.TypeChecker.CompilationOrder
import RotoCompiler.TypeChecker.ImportOrder
import RotoCompiler.TypeChecker.PathCompression
import RotoCompiler.Lib.Outcome
import RotoCompiler.Value.ListEq
import RotoCompiler.Value.Allocation
import RotoCompiler.Value.ClonePanics
import RotoCompiler.Value.ListGet
import RotoCompiler.Value.TypedList
import RotoCompiler.Lir.LayoutAgreement
import RotoCompiler.Lir.RuntimeCallAgreement
import RotoCompiler.Parser.Lookahead
import RotoCompiler.Parser.OperatorParsing
import RotoCompiler.Parser.ReturnedValues
import RotoCompiler.Parser.TokenOperators
import RotoCompiler.Parser.FStrings
import RotoCompiler.Value.StringSlices
import RotoCompiler.Lir.Literals
import RotoCompiler.Lir.ProgramCalls
import RotoCompiler.Lir.Discriminants
import RotoCompiler.Lir.TypeChecks
import RotoCompiler.Lib.FieldPaths
import RotoCompiler.Mir.AssignmentAgreement
import RotoCompiler.Mir.DeadCode
import RotoCompiler.Runtime.LibraryImports
import RotoCompiler.Lir.ClosedCalls
import RotoCompiler.Runtime.Names
import RotoCompiler.TypeChecker.DistinctNames
import RotoCompiler.TypeChecker.Negation
import RotoCompiler.Lir.EqAgreement
import RotoCompiler.Mir.LoweredItems
import RotoCompiler.Lir.Temporaries
