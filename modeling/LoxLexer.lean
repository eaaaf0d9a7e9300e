import LoxLexer.Main
import LoxLexer.Position.LineMap
import LoxLexer.Text.Bytes
import LoxLexer.Cursor.Basic
import LoxLexer.Cursor.Scan
import LoxLexer.Cursor.Pieces
import LoxLexer.Cursor.Searching
import LoxLexer.Proofs.Walking
import LoxLexer.Piece.Fits
import LoxLexer.Proofs.Places
import LoxLexer.Proofs.Reconstruction
import LoxLexer.Proofs.Modes
import LoxLexer.Proofs.Grammar
import LoxLexer.Proofs.Lines
import LoxLexer.Proofs.Rounds
import LoxLexer.Proofs.Composition
import LoxLexer.Proofs.Restart
import LoxLexer.Proofs.Extension
import LoxLexer.Proofs.Blanking
import LoxLexer.Proofs.Rounding
import LoxLexer.Proofs.ShortestDecimal
import LoxLexer.Proofs.DecimalText
import LoxLexer.Proofs.JsonGrammar
import LoxLexer.Proofs.JsonText
import LoxLexer.Proofs.JsonLexed
import LoxLexer.Proofs.NumberText
import LoxLexer.Proofs.Batch
import LoxLexer.Proofs.Spelling
import LoxLexer.Proofs.NumberValues
import LoxLexer.Proofs.Listing
import LoxLexer.Proofs.Formats
import LoxLexer.Proofs.NumberDigits
import LoxLexer.Proofs.Lexemes
import LoxLexer.Proofs.LineIndex
import LoxLexer.Proofs.Intervals
import LoxLexer.Proofs.Substitution
import LoxLexer.Proofs.ReportPlaces
