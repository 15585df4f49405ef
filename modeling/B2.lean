import B2.Flex.Scanner
import B2.Javascript.Grouping
import B2.Javascript.Program
import B2.Javascript.NumberText
import B2.Llvm.Destruction
import B2.Llvm.Failures
import B2.Llvm.Functions
import B2.Llvm.Metadata
import B2.Llvm.Occurrences
import B2.Llvm.OperandTypes
import B2.Llvm.Statements
import B2.Llvm.ValueClasses
import B2.Parser.IfChain
import B2.Parser.Lexer
import B2.Parser.RawText
import B2.Parser.LoopTargets
import B2.Parser.Reading
import B2.Parser.Session
import B2.Parser.Tags
import B2.Parser.StringLiteral
import B2.Parser.Unescape
import B2.Parser.WhitespaceControl
import B2.Passes.Coalescing
import B2.Passes.FoldComparisons
import B2.Passes.FoldTypes
import B2.Passes.FoldValues
import B2.Passes.IncludeCycles
import B2.Passes.IncludeFree
import B2.Passes.IncludeOwnership
import B2.Passes.IncludeTypes
import B2.Passes.NormalForm
import B2.Passes.RawBlocks
import B2.Passes.Splicing
import B2.Php.Buffer
import B2.Php.Folding
import B2.Php.LiteralPrints
import B2.Php.Steps
import B2.Render.IncludeScoping
import B2.Ecma.Evaluation
import B2.Javascript.UndefinedCheck
import B2.Passes.Pipeline
import B2.Php.Optimised
