import ConfigConstants.Declaration.CallReader
import ConfigConstants.File.Loading
import ConfigConstants.File.Tree
import ConfigConstants.Proofs.Text.Runs
import ConfigConstants.Proofs.Text.EndedLines
import ConfigConstants.Proofs.Lexeme.Rules
import ConfigConstants.Proofs.Lexeme.Locality
import ConfigConstants.Proofs.Lexeme.Members
import ConfigConstants.Proofs.Lexeme.Arguments
import ConfigConstants.Proofs.Comment.Automaton
import ConfigConstants.Proofs.Comment.CarriedFlag
import ConfigConstants.Proofs.Comment.Erased
import ConfigConstants.Proofs.Comment.Transducer
import ConfigConstants.Proofs.Comment.TransducedEnds
import ConfigConstants.Proofs.Declaration.Run
import ConfigConstants.Proofs.Declaration.Drain
import ConfigConstants.Proofs.Declaration.Windows
import ConfigConstants.Proofs.Declaration.StandingCalls
import ConfigConstants.Proofs.Declaration.Placement
import ConfigConstants.Proofs.Declaration.Mention
import ConfigConstants.Proofs.Source.Content
import ConfigConstants.Proofs.Source.Stripping
import ConfigConstants.Proofs.Source.Statement
import ConfigConstants.Proofs.Source.Written
import ConfigConstants.Proofs.Source.StrippedErasure
import ConfigConstants.Proofs.Source.Erasure
import ConfigConstants.Proofs.Constants.LastWins
import ConfigConstants.Proofs.Source.LineBreak
import ConfigConstants.Proofs.Source.Scan
import ConfigConstants.Proofs.Source.Log
import ConfigConstants.Proofs.Source.CountedScan
import ConfigConstants.Proofs.Lexeme.ByteReader
import ConfigConstants.Proofs.Lexeme.ByteAgreement
import ConfigConstants.Proofs.Lexeme.Lossless
import ConfigConstants.Proofs.Lexeme.ClosingMarks
import ConfigConstants.Proofs.Lexeme.Stretch
import ConfigConstants.Proofs.Lexeme.Grammar
import ConfigConstants.Proofs.Source.Relaid
import ConfigConstants.Proofs.Literal.Decimal
import ConfigConstants.Proofs.Constants.Comparison
import ConfigConstants.Proofs.Source.Skipped
import ConfigConstants.Proofs.Source.StrippedEnd
import ConfigConstants.Proofs.Source.Diagnostics
import ConfigConstants.Proofs.Source.LeadingComment
import ConfigConstants.Proofs.Lexeme.Joined
import ConfigConstants.Proofs.Declaration.Semicolon
import ConfigConstants.Proofs.Declaration.Separator
import ConfigConstants.Proofs.File.Outcome
import ConfigConstants.Proofs.Source.Thorough
import ConfigConstants.Proofs.Literal.Tally
import ConfigConstants.Proofs.Literal.Expression
import ConfigConstants.Proofs.Lexeme.Numbers
import ConfigConstants.Proofs.Literal.Form
import ConfigConstants.Proofs.Declaration.Literals
import ConfigConstants.Proofs.Literal.Integer
import ConfigConstants.Proofs.Binary64.Rounding
import ConfigConstants.Proofs.Literal.Scientific
import ConfigConstants.Proofs.Literal.Attempts
import ConfigConstants.Proofs.Declaration.ConstOffsets
import ConfigConstants.Proofs.Declaration.ConstParts
import ConfigConstants.Proofs.Declaration.Started
import ConfigConstants.Proofs.Declaration.Accounting
import ConfigConstants.Proofs.Source.StrippedComment
import ConfigConstants.Proofs.Text.AsciiBytes
import ConfigConstants.Proofs.File.DecodedLines
import ConfigConstants.Proofs.File.ExtensionHistory
import ConfigConstants.Proofs.Declaration.Registers
