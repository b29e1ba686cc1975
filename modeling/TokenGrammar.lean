import TokenGrammar.Main
import TokenGrammar.Reader
import TokenGrammar.Proofs.Reader.Encoded
import TokenGrammar.Proofs.Reader.Replay
import TokenGrammar.Proofs.Token.Lexeme
import TokenGrammar.Proofs.Tokenizer.Consistent
import TokenGrammar.Proofs.Tokenizer.View
import TokenGrammar.Proofs.Tokenizer.Progress
import TokenGrammar.Proofs.Graph.Acyclic
import TokenGrammar.Proofs.Graph.Cycle
import TokenGrammar.Proofs.Grammar.Defect
import TokenGrammar.Proofs.Grammar.Build
import TokenGrammar.Proofs.Match.Moves
import TokenGrammar.Proofs.Match.Forward
import TokenGrammar.Proofs.Match.Suffix
import TokenGrammar.Proofs.Match.Lockstep
import TokenGrammar.Proofs.Match.Bounds
import TokenGrammar.Proofs.Match.Counters
import TokenGrammar.Proofs.Match.ZeroProgress
import TokenGrammar.Proofs.Match.Termination
import TokenGrammar.Proofs.Match.Fault
import TokenGrammar.Proofs.Tokenizer.Delivery
import TokenGrammar.Proofs.Tokenizer.Spelling
import TokenGrammar.Proofs.Tokenizer.Ignoring
import TokenGrammar.Proofs.Tokenizer.Fields
import TokenGrammar.Proofs.Match.Transparency
import TokenGrammar.Proofs.Text.Lowercase
import TokenGrammar.Proofs.Text.Sorted
import TokenGrammar.Proofs.Turtle.Script
import TokenGrammar.Proofs.Turtle.Leaves
import TokenGrammar.Proofs.Turtle.Name
import TokenGrammar.Proofs.Turtle.Statement
import TokenGrammar.Proofs.Turtle.Soundness
import TokenGrammar.Proofs.Turtle.Gives
import TokenGrammar.Proofs.Turtle.Completeness
import TokenGrammar.Proofs.Match.Likeness
import TokenGrammar.Proofs.Match.TokenTexts
import TokenGrammar.Proofs.Token.Variation
import TokenGrammar.Proofs.Tokenizer.LineBreaks
import TokenGrammar.Proofs.Match.LetterCase
import TokenGrammar.Proofs.Registry.History
import TokenGrammar.Proofs.Token.Terminator
import TokenGrammar.Proofs.Token.Lines
import TokenGrammar.Proofs.Tokenizer.Lines
import TokenGrammar.Proofs.Reader.WellFormed
import TokenGrammar.Proofs.Token.Extent
import TokenGrammar.Proofs.Tokenizer.Division
import TokenGrammar.Proofs.Tokenizer.Ending
import TokenGrammar.Proofs.Token.Reprint
import TokenGrammar.Proofs.Tokenizer.Printing
import TokenGrammar.Proofs.Match.Consumption
import TokenGrammar.Proofs.Rule.LeftRecursion
import TokenGrammar.Proofs.Tokenizer.TakeBack
import TokenGrammar.Proofs.Turtle.RejectionLine
import TokenGrammar.Proofs.Rule.Unreachable
import TokenGrammar.Proofs.Match.LeadingRun
import TokenGrammar.Proofs.Match.Identifier
import TokenGrammar.Proofs.Grammar.Identifier
import TokenGrammar.Proofs.Match.Optional
import TokenGrammar.Proofs.Rule.LeastMarks
import TokenGrammar.Proofs.CommandLine.InputArgs
import TokenGrammar.Proofs.Reader.Lookahead
import TokenGrammar.Proofs.Reader.Scanner
import TokenGrammar.Proofs.Text.Escaped
import TokenGrammar.Proofs.Report.Listing
