import CrossAssembler.Main
import CrossAssembler.Proofs.Instruction.Widths
import CrossAssembler.Proofs.Expression.Grammar
import CrossAssembler.Proofs.Assembly.Settling
import CrossAssembler.Proofs.Assembly.FinalPass
import CrossAssembler.Proofs.Symbol.Restoring
import CrossAssembler.Proofs.Expression.Modes
import CrossAssembler.Proofs.Expression.Integers
import CrossAssembler.Proofs.Expression.Comparison
import CrossAssembler.Proofs.Source.Lines
import CrossAssembler.Proofs.Source.Comments
import CrossAssembler.Proofs.Assembly.Stopping
import CrossAssembler.Proofs.Diagnostics.Reports
import CrossAssembler.Proofs.Scopes.Bounds
import CrossAssembler.Proofs.Assembly.Listing
import CrossAssembler.Proofs.Assembly.Windows
import CrossAssembler.Proofs.Assembly.DataGroups
import CrossAssembler.Proofs.Assembly.Messages
import CrossAssembler.Proofs.Assembly.HexData
