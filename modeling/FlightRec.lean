import FlightRec.Backtraces
import FlightRec.Examine.Agreement
import FlightRec.Examine.Aliases
import FlightRec.Examine.Comms
import FlightRec.Examine.Enumerators
import FlightRec.Examine.EvalFailures
import FlightRec.Examine.Evaluations
import FlightRec.Examine.ExprCache
import FlightRec.Examine.FieldTypes
import FlightRec.Examine.Formatting
import FlightRec.Examine.Frames
import FlightRec.Examine.HeaderBreakpoints
import FlightRec.Examine.Holes
import FlightRec.Examine.Launch
import FlightRec.Examine.Locals
import FlightRec.Examine.Locations
import FlightRec.Examine.MemberOffsets
import FlightRec.Examine.Names
import FlightRec.Examine.Paging
import FlightRec.Examine.PointerReads
import FlightRec.Examine.Pointers
import FlightRec.Examine.Refs
import FlightRec.Examine.Runs
import FlightRec.Examine.SamePresentation
import FlightRec.Examine.Session
import FlightRec.Examine.ShortWrites
import FlightRec.Examine.Sizeofs
import FlightRec.Examine.Stack
import FlightRec.Examine.StreamEnds
import FlightRec.Examine.Strides
import FlightRec.Examine.ZeroSizes
import FlightRec.Expressions.Casts
import FlightRec.Expressions.Dispatch
import FlightRec.Expressions.Grammar
import FlightRec.Expressions.IntLiterals
import FlightRec.Expressions.IntegerMeaning
import FlightRec.Expressions.Lexer
import FlightRec.Expressions.Logical
import FlightRec.Expressions.Lvalues
import FlightRec.Expressions.MemCursor
import FlightRec.Expressions.Members
import FlightRec.Expressions.Parser
import FlightRec.Expressions.PointerLaws
import FlightRec.Expressions.StringLiterals
import FlightRec.Expressions.Traps
import FlightRec.Expressions.Unparse
import FlightRec.Fidelity
import FlightRec.Lib.Completion
import FlightRec.Lib.Integers
import FlightRec.Lib.Leb128
import FlightRec.Lib.Scanner
import FlightRec.Lib.Writer
import FlightRec.LiveExpressions
import FlightRec.LiveMemory
import FlightRec.Record.AbsPath
import FlightRec.Record.AbsentLines
import FlightRec.Record.BlockOffsets
import FlightRec.Record.BpfCallback
import FlightRec.Record.Breakpoints
import FlightRec.Record.Channel
import FlightRec.Record.CodeRanges
import FlightRec.Record.DbWorkers
import FlightRec.Record.Depth
import FlightRec.Record.FaultProgress
import FlightRec.Record.FaultProtocol
import FlightRec.Record.FifoName
import FlightRec.Record.FindPage
import FlightRec.Record.Heap
import FlightRec.Record.LineSearch
import FlightRec.Record.MemDiff
import FlightRec.Record.MemKeys
import FlightRec.Record.Pipeline
import FlightRec.Record.ProgramBreak
import FlightRec.Record.ResetDirty
import FlightRec.Record.ScopeForest
import FlightRec.Record.SourcePaths
import FlightRec.Record.UnitCache
import FlightRec.Recording
import FlightRec.Stingray.Budget
import FlightRec.Stingray.Refinement
import FlightRec.Stingray.Strings
