import EventMarkup.Command.FileTree
import EventMarkup.Main
import EventMarkup.Proofs.Spelling
import EventMarkup.Proofs.Peg.Ending
import EventMarkup.Proofs.Peg.Local
import EventMarkup.Proofs.Script.Ending
import EventMarkup.Proofs.Script.Inside
import EventMarkup.Proofs.Bindings
import EventMarkup.Proofs.Lineage
import EventMarkup.Proofs.Faults
import EventMarkup.Proofs.Behaviour
import EventMarkup.Proofs.Interpolated
import EventMarkup.Proofs.Arguments
import EventMarkup.Proofs.Emission
import EventMarkup.Proofs.Judgement
import EventMarkup.Proofs.Script.Lines
import EventMarkup.Proofs.Script.Insertion
import EventMarkup.Proofs.WellFormed
import EventMarkup.Proofs.Comments
import EventMarkup.Proofs.Closings
import EventMarkup.Proofs.Iterations
import EventMarkup.Proofs.Script.Chain
import EventMarkup.Proofs.Script.Fragments
import EventMarkup.Proofs.Command.Building
import EventMarkup.Proofs.Iteration.Spacing
import EventMarkup.Proofs.Script.Leading
import EventMarkup.Proofs.KeyGuard
import EventMarkup.Proofs.Quotation
import EventMarkup.Proofs.Script.LineEndings
import EventMarkup.Proofs.Script.Forms
import EventMarkup.Proofs.NumericKeys
import EventMarkup.Proofs.DocumentOrder
import EventMarkup.Proofs.Fragments
import EventMarkup.Proofs.Cursor.Safety
import EventMarkup.Proofs.Activation
