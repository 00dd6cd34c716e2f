import ExprLang.Tree.Render
import ExprLang.Tree.Equality
import ExprLang.Main
import ExprLang.Proofs.OperatorGrammar
import ExprLang.Proofs.PrintedProgram
import ExprLang.Proofs.BlockEnd
import ExprLang.Proofs.Yield
import ExprLang.Proofs.Tokenization
import ExprLang.Proofs.ByteCursor
import ExprLang.Proofs.RenderedExpression
import ExprLang.Proofs.HoleAccount
import ExprLang.Proofs.Stepwise
import ExprLang.Proofs.Concatenation
import ExprLang.Proofs.Log
import ExprLang.Proofs.Moves
import ExprLang.Proofs.DiagnosticOrder
import ExprLang.Proofs.TokenStream
import ExprLang.Proofs.ReachedStates
import ExprLang.Proofs.NestingBound
import ExprLang.Proofs.TreeConsistency
import ExprLang.Proofs.UniqueReading
import ExprLang.Proofs.BindingValue
import ExprLang.Proofs.OperatorChain
import ExprLang.Proofs.ParameterList
import ExprLang.Proofs.IntegerLiteral
import ExprLang.Proofs.LostOperand
import ExprLang.Proofs.LexerSession
import ExprLang.Proofs.CommandOutput
import ExprLang.Proofs.FloorOrder
import ExprLang.Proofs.TokenDump
