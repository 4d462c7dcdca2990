import LuaRestyle.Command.Directory
import LuaRestyle.Command.Line
import LuaRestyle.Command.Run
import LuaRestyle.Layout.Blank
import LuaRestyle.Layout.Piece
import LuaRestyle.Layout.Spacing
import LuaRestyle.Layout.Style
import LuaRestyle.Layout.Tree
import LuaRestyle.Literal.Number
import LuaRestyle.Literal.Quote
import LuaRestyle.Literal.Shortest
import LuaRestyle.Literal.Value
import LuaRestyle.Main
import LuaRestyle.Naming.Basic
import LuaRestyle.Naming.Descriptive
import LuaRestyle.Naming.Short
import LuaRestyle.Naming.ShortName
import LuaRestyle.Parse.Cursor
import LuaRestyle.Parse.Error
import LuaRestyle.Parse.Expr
import LuaRestyle.Parse.Program
import LuaRestyle.Parse.Stat
import LuaRestyle.Position
import LuaRestyle.Proofs.Bytes.Boundary
import LuaRestyle.Proofs.Bytes.Literals
import LuaRestyle.Proofs.Bytes.Reader
import LuaRestyle.Proofs.Bytes.Scanners
import LuaRestyle.Proofs.Bytes.Tokens
import LuaRestyle.Proofs.Layout.Bare
import LuaRestyle.Proofs.Layout.Clear
import LuaRestyle.Proofs.Layout.Ink
import LuaRestyle.Proofs.Layout.Marks
import LuaRestyle.Proofs.Layout.Slots
import LuaRestyle.Proofs.Layout.Spelling
import LuaRestyle.Proofs.Literal.Evaluation
import LuaRestyle.Proofs.Literal.Invertible
import LuaRestyle.Proofs.Literal.Scalars
import LuaRestyle.Proofs.Naming.CaptureFree
import LuaRestyle.Proofs.Naming.Descriptive
import LuaRestyle.Proofs.Naming.Fresh
import LuaRestyle.Proofs.Naming.Least
import LuaRestyle.Proofs.Naming.Short
import LuaRestyle.Proofs.Naming.Stable
import LuaRestyle.Proofs.Naming.WordOrder
import LuaRestyle.Proofs.Parse.Abreast
import LuaRestyle.Proofs.Parse.Advance
import LuaRestyle.Proofs.Parse.Blame
import LuaRestyle.Proofs.Parse.Dealing
import LuaRestyle.Proofs.Parse.Ensures
import LuaRestyle.Proofs.Parse.Everywhere
import LuaRestyle.Proofs.Parse.ExprBack
import LuaRestyle.Proofs.Parse.ExprSource
import LuaRestyle.Proofs.Parse.Grammatical
import LuaRestyle.Proofs.Parse.Keeps
import LuaRestyle.Proofs.Parse.Levels
import LuaRestyle.Proofs.Parse.Mirror
import LuaRestyle.Proofs.Parse.NewLine
import LuaRestyle.Proofs.Parse.Offer
import LuaRestyle.Proofs.Parse.Outline
import LuaRestyle.Proofs.Parse.Passage
import LuaRestyle.Proofs.Parse.ProgramBack
import LuaRestyle.Proofs.Parse.ProgramSource
import LuaRestyle.Proofs.Parse.Repetition
import LuaRestyle.Proofs.Parse.Soundness
import LuaRestyle.Proofs.Parse.StatBack
import LuaRestyle.Proofs.Parse.StatSource
import LuaRestyle.Proofs.Restyle.Collision
import LuaRestyle.Proofs.Restyle.EveryOccurrence
import LuaRestyle.Proofs.Restyle.Faithful
import LuaRestyle.Proofs.Restyle.FaithfulNames
import LuaRestyle.Proofs.Restyle.Grouping
import LuaRestyle.Proofs.Restyle.LeastNames
import LuaRestyle.Proofs.Restyle.NormalForm
import LuaRestyle.Proofs.Restyle.Renaming
import LuaRestyle.Proofs.Restyle.RoundTrip
import LuaRestyle.Proofs.Scope.Balanced
import LuaRestyle.Proofs.Scope.Binding
import LuaRestyle.Proofs.Scope.Coherent
import LuaRestyle.Proofs.Scope.CoreSteps
import LuaRestyle.Proofs.Scope.Denotes
import LuaRestyle.Proofs.Scope.Growth
import LuaRestyle.Proofs.Scope.Lexical
import LuaRestyle.Proofs.Scope.Lookup
import LuaRestyle.Proofs.Scope.Orderly
import LuaRestyle.Proofs.Scope.References
import LuaRestyle.Proofs.Scope.Rename
import LuaRestyle.Proofs.Scope.Step
import LuaRestyle.Proofs.Token.Alone
import LuaRestyle.Proofs.Token.Exchange
import LuaRestyle.Proofs.Token.Halt
import LuaRestyle.Proofs.Token.LineBreak
import LuaRestyle.Proofs.Token.Lossless
import LuaRestyle.Proofs.Token.Misread
import LuaRestyle.Proofs.Token.Neighbours
import LuaRestyle.Proofs.Token.Numeral
import LuaRestyle.Proofs.Token.NumeralForm
import LuaRestyle.Proofs.Token.Positions
import LuaRestyle.Proofs.Token.Quoted
import LuaRestyle.Proofs.Token.Relex
import LuaRestyle.Proofs.Token.Stream
import LuaRestyle.Proofs.Token.StringForm
import LuaRestyle.Proofs.Tree.Core
import LuaRestyle.Proofs.Tree.Grammar
import LuaRestyle.Proofs.Tree.Layers
import LuaRestyle.Proofs.Tree.Node
import LuaRestyle.Proofs.Tree.Occurrences
import LuaRestyle.Proofs.Tree.Recast
import LuaRestyle.Proofs.Tree.Respell
import LuaRestyle.Proofs.Tree.RespellTwice
import LuaRestyle.Proofs.Tree.Site
import LuaRestyle.Restyle
import LuaRestyle.Scope.Basic
import LuaRestyle.Scope.Resolve
import LuaRestyle.Token
import LuaRestyle.Token.Fault
import LuaRestyle.Token.Lexer
import LuaRestyle.Token.LongBracket
import LuaRestyle.Token.Numeral
import LuaRestyle.Token.Quoted
import LuaRestyle.Token.Split
import LuaRestyle.Token.Trivia
import LuaRestyle.Tree.Basic
import LuaRestyle.Tree.Build
import LuaRestyle.Tree.Operator
