import Offside.Binding.Table
import Offside.Editor
import Offside.Main
import Offside.Proofs.Binding.Faults
import Offside.Proofs.Binding.FirstReads
import Offside.Proofs.Binding.Fits
import Offside.Proofs.Binding.Known
import Offside.Proofs.Binding.Nesting
import Offside.Proofs.Binding.Pieces
import Offside.Proofs.Binding.Provenance
import Offside.Proofs.Binding.Returns
import Offside.Proofs.Binding.Supers
import Offside.Proofs.Binding.Tracking
import Offside.Proofs.Binding.Within
import Offside.Proofs.Editor.Index
import Offside.Proofs.Editor.Indexing
import Offside.Proofs.Editor.Positions
import Offside.Proofs.Machine.Agreement
import Offside.Proofs.Machine.Arrivals
import Offside.Proofs.Machine.Assignments
import Offside.Proofs.Machine.Chronicle
import Offside.Proofs.Machine.Dispatch
import Offside.Proofs.Machine.Equivariance
import Offside.Proofs.Machine.Evaluation
import Offside.Proofs.Machine.Faithful
import Offside.Proofs.Machine.Inspection
import Offside.Proofs.Machine.Keeping
import Offside.Proofs.Machine.Ledger
import Offside.Proofs.Machine.Nesting
import Offside.Proofs.Machine.Origins
import Offside.Proofs.Machine.Padding
import Offside.Proofs.Machine.Reach
import Offside.Proofs.Machine.Returns
import Offside.Proofs.Machine.Rules
import Offside.Proofs.Machine.Sound
import Offside.Proofs.Machine.Tour
import Offside.Proofs.Machine.Upholding
import Offside.Proofs.Machine.Upkeep
import Offside.Proofs.Machine.Watch
import Offside.Proofs.Reader.Bounds
import Offside.Proofs.Reader.Breaks
import Offside.Proofs.Reader.ByHand
import Offside.Proofs.Reader.Complaints
import Offside.Proofs.Reader.Completeness
import Offside.Proofs.Reader.Consumption
import Offside.Proofs.Reader.Exactness
import Offside.Proofs.Reader.Forward
import Offside.Proofs.Reader.Grammar
import Offside.Proofs.Reader.Kinds
import Offside.Proofs.Reader.Lines
import Offside.Proofs.Reader.Measuring
import Offside.Proofs.Reader.Parentheses
import Offside.Proofs.Reader.Phrases
import Offside.Proofs.Reader.Plain
import Offside.Proofs.Reader.Recovery
import Offside.Proofs.Reader.RoundTrip
import Offside.Proofs.Reader.Soundness
import Offside.Proofs.Reader.Spelling
import Offside.Proofs.Reader.Spread
import Offside.Proofs.Reader.Spreading
import Offside.Proofs.Reader.Totality
import Offside.Proofs.Repl
import Offside.Proofs.Session
import Offside.Proofs.Session.Assignments
import Offside.Proofs.Session.Checking
import Offside.Proofs.Session.Dispatch
import Offside.Proofs.Session.Heap
import Offside.Proofs.Session.Nesting
import Offside.Proofs.Session.Order
import Offside.Proofs.Session.Pieces
import Offside.Proofs.Session.Restoring
import Offside.Proofs.Session.Returns
import Offside.Proofs.Steps
import Offside.Proofs.Token.CarriageReturns
import Offside.Proofs.Token.Fitting
import Offside.Proofs.Token.Insertion
import Offside.Proofs.Token.Literals
import Offside.Proofs.Token.Moving
import Offside.Proofs.Token.Rendering
import Offside.Proofs.Token.Tiling
