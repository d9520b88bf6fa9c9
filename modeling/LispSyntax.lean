import LispSyntax.Text.Basic
import LispSyntax.Text.Span
import LispSyntax.Text.Classes
import LispSyntax.Text.Quoted
import LispSyntax.Text.Lines
import LispSyntax.Kind
import LispSyntax.KindSet
import LispSyntax.Fault
import LispSyntax.Registry
import LispSyntax.Registry.Core
import LispSyntax.Trivia
import LispSyntax.Diagnostic
import LispSyntax.Diagnostic.Snippet
import LispSyntax.Token
import LispSyntax.Token.Lexeme
import LispSyntax.Token.Scan
import LispSyntax.Trivia.Read
import LispSyntax.Token.Read
import LispSyntax.Token.Stream
import LispSyntax.Tree
import LispSyntax.Tree.Builder
import LispSyntax.Tree.Dump
import LispSyntax.Event
import LispSyntax.Grammar.Sequence
import LispSyntax.Grammar.Binding
import LispSyntax.Grammar.Collection
import LispSyntax.Grammar.Form
import LispSyntax.Parse
import LispSyntax.Number.Binary64
import LispSyntax.Ast.Literal
import LispSyntax.Ast.Form
import LispSyntax.CommandLine
import LispSyntax.Main
import LispSyntax.Proofs.Soundness
import LispSyntax.Proofs.Completeness
import LispSyntax.Proofs.Lossless
import LispSyntax.Proofs.Trivia
import LispSyntax.Proofs.Classification
import LispSyntax.Proofs.Layout
import LispSyntax.Proofs.Lexical.Recognition
import LispSyntax.Proofs.Correspondence
import LispSyntax.Proofs.Independence
import LispSyntax.Proofs.Concatenation
import LispSyntax.Proofs.Delimiters.Form
import LispSyntax.Proofs.Touching
import LispSyntax.Proofs.Typed
import LispSyntax.Proofs.Typed.Parts
import LispSyntax.Proofs.Literal.Printing
import LispSyntax.Proofs.Literal.Decoding
import LispSyntax.Proofs.Literal.Plus
import LispSyntax.Proofs.Derivation
import LispSyntax.Proofs.Derivation.Extent
import LispSyntax.Proofs.Derivation.Lookups
import LispSyntax.Proofs.Derivation.Pairing
import LispSyntax.Proofs.Lookups
import LispSyntax.Proofs.Pairing
import LispSyntax.Proofs.Skipping
import LispSyntax.Proofs.Origin.Parenthesized
import LispSyntax.Proofs.Conditions
import LispSyntax.Proofs.Heads
import LispSyntax.Proofs.Unreadable.Form
import LispSyntax.Proofs.Styles
import LispSyntax.Proofs.Height.Form
import LispSyntax.Proofs.Located
import LispSyntax.Proofs.Stream
import LispSyntax.Proofs.Rebuilding
import LispSyntax.Proofs.Positions
import LispSyntax.Proofs.Progress
import LispSyntax.Proofs.Marking.Finish
import LispSyntax.Proofs.Filled
