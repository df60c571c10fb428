import CPreprocessor.CommandLine.Arguments
import CPreprocessor.CommandLine.Execute
import CPreprocessor.CommandLine.Word
import CPreprocessor.Diagnostic
import CPreprocessor.Directive
import CPreprocessor.Expansion.Arguments
import CPreprocessor.Expansion.Expand
import CPreprocessor.Expansion.Measure
import CPreprocessor.Expansion.Paste
import CPreprocessor.Expansion.Step
import CPreprocessor.Expansion.Substitution
import CPreprocessor.Expansion.Template
import CPreprocessor.Fault
import CPreprocessor.Files.Lookup
import CPreprocessor.Files.Path
import CPreprocessor.Files.Read
import CPreprocessor.Files.Tree
import CPreprocessor.Include.Reference
import CPreprocessor.Include.Stack
import CPreprocessor.Lexeme.Basic
import CPreprocessor.Lexeme.Enclosed
import CPreprocessor.Lexeme.Gap
import CPreprocessor.Lexeme.Punctuator
import CPreprocessor.Lexeme.Quoted
import CPreprocessor.Lexeme.Scan
import CPreprocessor.Lexeme.Word
import CPreprocessor.Literal.Merge
import CPreprocessor.Literal.Quote
import CPreprocessor.Macro.CommandLine
import CPreprocessor.Macro.Definition
import CPreprocessor.Macro.Parse
import CPreprocessor.Macro.Table
import CPreprocessor.Main
import CPreprocessor.Options
import CPreprocessor.Position
import CPreprocessor.Preprocessed
import CPreprocessor.Run
import CPreprocessor.Session
import CPreprocessor.Source.Newline
import CPreprocessor.Source.Splice
import CPreprocessor.SourceFile
import CPreprocessor.Text.Json
import CPreprocessor.Text.Quoted
import CPreprocessor.Text.Utf8
import CPreprocessor.Token.Basic
import CPreprocessor.Token.HideSet
import CPreprocessor.Token.Lex
import CPreprocessor.Token.Line
import CPreprocessor.Unicode.Class
import CPreprocessor.Unicode.Decimal
import CPreprocessor.Unicode.Digit
import CPreprocessor.Unicode.Letter
import CPreprocessor.Unicode.Numeric
import CPreprocessor.Unicode.Unprintable
import CPreprocessor.Proofs.Expansion.Drain
import CPreprocessor.Proofs.Expansion.Turns
import CPreprocessor.Proofs.Expansion.Placemarker
import CPreprocessor.Proofs.Expansion.Stream
import CPreprocessor.Proofs.Interleaving
import CPreprocessor.Proofs.Token.Shape
import CPreprocessor.Proofs.Expansion.Preserved
import CPreprocessor.Proofs.Expansion.Course
import CPreprocessor.Proofs.Directive
import CPreprocessor.Proofs.Reader
import CPreprocessor.Proofs.Pipeline
import CPreprocessor.Proofs.Source.Phases
import CPreprocessor.Proofs.Lexeme.Append
import CPreprocessor.Proofs.Literal.Adjacent
import CPreprocessor.Proofs.Inclusion
import CPreprocessor.Proofs.Unplaced.Substitution
import CPreprocessor.Proofs.Unplaced.Expansion
import CPreprocessor.Proofs.Unplaced.Directive
import CPreprocessor.Proofs.Macro.Equivalent
import CPreprocessor.Proofs.Include.Nesting
import CPreprocessor.Proofs.Expansion.Faults
import CPreprocessor.Proofs.Files.Walk
import CPreprocessor.Proofs.Files.Lookup
import CPreprocessor.Proofs.Include.Overlong
import CPreprocessor.Proofs.Include.Once
import CPreprocessor.Proofs.Include.Expanded
import CPreprocessor.Proofs.Include.Failing
import CPreprocessor.Proofs.Include.Resolution
import CPreprocessor.Proofs.Literal.Normal
import CPreprocessor.Proofs.Unfinished
import CPreprocessor.Proofs.Macro.Epoch
import CPreprocessor.Proofs.PlainText
import CPreprocessor.Proofs.Token.Render
import CPreprocessor.Proofs.Lexeme.Operands
import CPreprocessor.Proofs.Macro.CommandLine
import CPreprocessor.Proofs.Macro.WellFormed
import CPreprocessor.Proofs.Expansion.Operators
import CPreprocessor.Proofs.Expansion.Collect
import CPreprocessor.Proofs.Expansion.Refused
import CPreprocessor.Proofs.Expansion.Order
import CPreprocessor.Proofs.Expansion.ObjectLike
import CPreprocessor.Proofs.Expansion.SideBySide
import CPreprocessor.Proofs.Lexeme.Newline
import CPreprocessor.Proofs.Lexeme.Words
import CPreprocessor.Proofs.Lexeme.Seam
import CPreprocessor.Proofs.Macro.Signature
import CPreprocessor.Proofs.Macro.Dump
import CPreprocessor.Proofs.Macro.Grammar
import CPreprocessor.Proofs.TokenDump
import CPreprocessor.Proofs.LineBreak
import CPreprocessor.Proofs.Lexeme.Closing
import CPreprocessor.Proofs.Lexeme.Class
import CPreprocessor.Proofs.Token.Place
import CPreprocessor.Proofs.Token.Munch
import CPreprocessor.Proofs.Token.LeftOpen
import CPreprocessor.Proofs.Expansion.Stringize
import CPreprocessor.Proofs.Expansion.Variadic
import CPreprocessor.Proofs.Severity
import CPreprocessor.Proofs.Literal.Quote
import CPreprocessor.Proofs.Expansion.BalancedSplit
import CPreprocessor.Proofs.Lexeme.Single
import CPreprocessor.Proofs.Lexeme.Joined
import CPreprocessor.Proofs.Expansion.Joined
import CPreprocessor.Proofs.Lexeme.Mark
import CPreprocessor.Proofs.Lexeme.Read
import CPreprocessor.Proofs.Token.Layout
