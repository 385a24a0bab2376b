import IdlFrontend.Text.Basic
import IdlFrontend.Text.WhiteSpace
import IdlFrontend.Text.LineBreak
import IdlFrontend.Text.Numeral
import IdlFrontend.Source.Trigraph
import IdlFrontend.Source.Splice
import IdlFrontend.Source.Lexeme
import IdlFrontend.Preprocess.Error
import IdlFrontend.Macro.Table
import IdlFrontend.Macro.Expansion
import IdlFrontend.Condition.Expr
import IdlFrontend.Condition.Reading
import IdlFrontend.Preprocess.MarkedText
import IdlFrontend.Preprocess.Conditional
import IdlFrontend.Include.Store
import IdlFrontend.Preprocess.Directive
import IdlFrontend.Preprocess.Session
import IdlFrontend.Options
import IdlFrontend.Token.Keyword
import IdlFrontend.Token.Basic
import IdlFrontend.Token.Pattern
import IdlFrontend.Token.Rule
import IdlFrontend.Token.Pragma
import IdlFrontend.Token.Lexer
import IdlFrontend.Syntax.ScopedName
import IdlFrontend.Syntax.ConstExpr
import IdlFrontend.Syntax.TypeSpec
import IdlFrontend.Syntax.Definition
import IdlFrontend.Grammar.Error
import IdlFrontend.Grammar.Parser
import IdlFrontend.Grammar.Expr
import IdlFrontend.Grammar.Type
import IdlFrontend.Grammar.Member
import IdlFrontend.Grammar.Definition
import IdlFrontend.Syntax.Walk
import IdlFrontend.Syntax.Outline
import IdlFrontend.Error
import IdlFrontend.Frontend
import IdlFrontend.Include.Fault
import IdlFrontend.Include.Path
import IdlFrontend.Include.FileTable
import IdlFrontend.Include.Search
import IdlFrontend.CommandLine.Arguments
import IdlFrontend.CommandLine.Program
import IdlFrontend.Main
import IdlFrontend.Proofs.Macro.Define
import IdlFrontend.Proofs.Session.Run
import IdlFrontend.Proofs.Conditional.Blocks
import IdlFrontend.Proofs.Conditional.Lines
import IdlFrontend.Proofs.Macro.Closure
import IdlFrontend.Proofs.Lexeme.Whole
import IdlFrontend.Proofs.Lexeme.LineEnds
import IdlFrontend.Proofs.Lexeme.Condensed
import IdlFrontend.Proofs.MarkedText.Separation
import IdlFrontend.Proofs.Lexer.Run
import IdlFrontend.Proofs.Lexer.LineFeeds
import IdlFrontend.Proofs.Lexer.Modes
import IdlFrontend.Proofs.Lexer.Marker
import IdlFrontend.Proofs.Lexer.Stretches
import IdlFrontend.Proofs.Lexer.LineCount
import IdlFrontend.Proofs.MarkedText.WellMarked
import IdlFrontend.Proofs.MarkedText.Chunks
import IdlFrontend.Proofs.MarkedText.Reader
import IdlFrontend.Proofs.MarkedText.Condensed
import IdlFrontend.Proofs.Session.Origin
import IdlFrontend.Proofs.Session.Output
import IdlFrontend.Proofs.Session.Parallel
import IdlFrontend.Proofs.Session.PlainText
import IdlFrontend.Proofs.Marker.Consumed
import IdlFrontend.Proofs.Marker.Directives
import IdlFrontend.Proofs.Source.Tidy
import IdlFrontend.Proofs.Source.Place
import IdlFrontend.Proofs.Lexer.FirstChar
import IdlFrontend.Proofs.Lexer.Locality
import IdlFrontend.Proofs.Lexer.Continuation
import IdlFrontend.Proofs.Lexeme.Place
import IdlFrontend.Proofs.Lexer.TokenText
import IdlFrontend.Proofs.Lexeme.Compact
import IdlFrontend.Proofs.Layout.Basic
import IdlFrontend.Proofs.Layout.Steps
import IdlFrontend.Proofs.Layout.Lexemes
import IdlFrontend.Proofs.Layout.Output
import IdlFrontend.Proofs.Layout.PlainSource
import IdlFrontend.Proofs.Session.Transparent
import IdlFrontend.Proofs.Lexer.Regular
import IdlFrontend.Proofs.Lexer.Extension
import IdlFrontend.Proofs.Parser.Yields
import IdlFrontend.Proofs.Syntax.WellFormed
import IdlFrontend.Proofs.Parser.Types
import IdlFrontend.Proofs.Parser.Members
import IdlFrontend.Proofs.Parser.Definitions
import IdlFrontend.Proofs.Parser.Copies
import IdlFrontend.Proofs.Parser.Productions
import IdlFrontend.Proofs.Parser.Append
import IdlFrontend.Proofs.Macro.Hiding
import IdlFrontend.Proofs.Macro.Scoping
import IdlFrontend.Proofs.Macro.ObjectLike
import IdlFrontend.Proofs.Macro.Condensed
import IdlFrontend.Proofs.Macro.Argument
import IdlFrontend.Proofs.Macro.Spacing
import IdlFrontend.Proofs.Session.Condensed
import IdlFrontend.Proofs.Session.Suspension
import IdlFrontend.Proofs.Session.LineReader
import IdlFrontend.Proofs.Session.AtOnce
import IdlFrontend.Proofs.Session.Machine
import IdlFrontend.Proofs.Session.Preprocessor
import IdlFrontend.Proofs.Include.Replacement
import IdlFrontend.Proofs.Include.Spelling
import IdlFrontend.Proofs.Include.Cycle
import IdlFrontend.Proofs.Comment.Place
import IdlFrontend.Proofs.Comment.Unheeded
import IdlFrontend.Proofs.Comment.Line
import IdlFrontend.Proofs.Comment.Session
import IdlFrontend.Proofs.Session.Relabel
import IdlFrontend.Proofs.Source.WholeLines
import IdlFrontend.Proofs.Syntax.Visitor
import IdlFrontend.Proofs.Reading.Place
import IdlFrontend.Proofs.Reading.Reads
import IdlFrontend.Proofs.Reading.Sentence
import IdlFrontend.Proofs.Reading.Expr
import IdlFrontend.Proofs.Reading.Consumes
import IdlFrontend.Proofs.Reading.Accepted
import IdlFrontend.Proofs.Reading.Written
import IdlFrontend.Proofs.Reading.ConstExpr
import IdlFrontend.Proofs.Reading.Type
import IdlFrontend.Proofs.Reading.Property
import IdlFrontend.Proofs.Reading.Operation
import IdlFrontend.Proofs.Reading.Interface
import IdlFrontend.Proofs.Conditional.Answers
import IdlFrontend.Proofs.Conditional.Nesting
import IdlFrontend.Proofs.Include.Splice
import IdlFrontend.Proofs.Session.Watched
import IdlFrontend.Proofs.Parser.Loops
import IdlFrontend.Proofs.Parser.Outline
import IdlFrontend.Proofs.Marker.Pragmas
import IdlFrontend.Proofs.Lexeme.Lossless
import IdlFrontend.Proofs.Source.LogicalLines
import IdlFrontend.Proofs.Source.LineNumbers
import IdlFrontend.Proofs.Condition.Grammar
import IdlFrontend.Proofs.Condition.Reader
import IdlFrontend.Proofs.Condition.Literal
import IdlFrontend.Proofs.Condition.Value
import IdlFrontend.Proofs.Condition.Layout
import IdlFrontend.Proofs.Condition.Evaluate
import IdlFrontend.Proofs.Macro.Mentions
import IdlFrontend.Proofs.Macro.Invocation
import IdlFrontend.Proofs.Session.Numbering
import IdlFrontend.Proofs.Condition.Modular
import IdlFrontend.Proofs.Marker.SourceName
import IdlFrontend.Proofs.Macro.Lines
import IdlFrontend.Proofs.Lexer.Numeral
import IdlFrontend.Proofs.Lexer.Maximal
import IdlFrontend.Proofs.Lexer.Relexing
import IdlFrontend.Proofs.Reading.PropertyText
import IdlFrontend.Proofs.Reading.PropertyLists
import IdlFrontend.Proofs.Reading.LeadingProperties
import IdlFrontend.Proofs.Parser.Properties
import IdlFrontend.Proofs.Reading.Arguments
import IdlFrontend.Proofs.Lexer.Shift
import IdlFrontend.Proofs.Lexer.Fragment
import IdlFrontend.Proofs.Include.QuotedName
import IdlFrontend.Proofs.Reading.ScopedName
import IdlFrontend.Proofs.Session.FileMacro
import IdlFrontend.Proofs.Session.Sources
import IdlFrontend.Proofs.Source.Trigraph
import IdlFrontend.Proofs.Lexer.Termination
import IdlFrontend.Proofs.Lexeme.BlockComment
import IdlFrontend.Proofs.Macro.DefinitionText
import IdlFrontend.Proofs.Session.Predefinition
import IdlFrontend.Proofs.Lexer.Stack
import IdlFrontend.Proofs.Parser.History
import IdlFrontend.Proofs.Parser.Behaviour
import IdlFrontend.Proofs.Parser.Stack
import IdlFrontend.Proofs.Macro.Records
import IdlFrontend.Proofs.Macro.Positions
import IdlFrontend.Proofs.Session.WordRange
