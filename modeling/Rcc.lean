import Rcc.TypingSound
import Rcc.ConstExprSound
import Rcc.FoldSound
import Rcc.FrameX86
import Rcc.FrameArm64
import Rcc.GenSound
import Rcc.StructLaw
import Rcc.PragmaPack
import Rcc.InitializerSound
import Rcc.Isolation
import Rcc.Lexer
import Rcc.MacroHistory
import Rcc.LexerLines
import Rcc.Names
import Rcc.Parser
import Rcc.Precedence
import Rcc.Spelling
import Rcc.Scoping
import Rcc.Substitute
import Rcc.Operands
import Rcc.Expand
import Rcc.Condition
import Rcc.PreprocessFile
import Rcc.Conditionals
import Rcc.OneLine
import Rcc.LineCounts
import Rcc.LinePositions
import Rcc.LineNumbers
import Rcc.Brackets
import Rcc.Cancelling
import Rcc.MacroBrackets
import Rcc.CanonicalPath
import Rcc.SpliceLaw
import Rcc.LexerLoop
import Rcc.PreprocessLoops
import Rcc.CommentScan
import Rcc.Pasting
import Rcc.MacroCongruence
import Rcc.Variadic
import Rcc.VariadicCalls
import Rcc.VariadicOperands
import Rcc.BluePaint
import Rcc.PackStack
import Rcc.QuoteString
import Rcc.IntegerConstants
import Rcc.MacroArrays
import Rcc.Renaming
import Rcc.CleanLines
import Rcc.MacroSteps
import Rcc.MacroDump
import Rcc.CLiteral
import Rcc.LiteralValues
import Rcc.GenConvert
import Rcc.GenConvertSound
import Rcc.GenPointer
import Rcc.GenPointerSound
import Rcc.StaticData
import Rcc.StrLit
import Rcc.WideLiterals
import Rcc.Jump
import Rcc.Switch
import Rcc.CondBranch
import Rcc.ArrayLength
import Rcc.ArrayLengthSound
import Rcc.DeadBranch
import Rcc.Lvalues
import Rcc.EnvSlots
import Rcc.MemberLookup
import Rcc.Arena
import Rcc.ArenaRuns
import Rcc.Interning
import Rcc.Peephole
import Rcc.PeepholeLoop
import Rcc.Recursion
import Rcc.Spilling
import Rcc.Ctfe
import Rcc.CtfeEnds
import Rcc.ConditionOps
import Rcc.ConstOps
import Rcc.CompileTime
import Rcc.TypeCompat
import Rcc.TypeCompatSound
import Rcc.LiveText
import Rcc.EndOfInput
import Rcc.EndOfInputSound
import Rcc.ArmImmediates
import Rcc.CallArgsSound
import Rcc.UnitLabels
import Rcc.CalleeSound
import Rcc.Declarators
import Rcc.DeclaratorsSound
import Rcc.TypeSpelling
import Rcc.SymbolsSound
