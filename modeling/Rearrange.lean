import Rearrange.Check
import Rearrange.CommandLine.Arguments
import Rearrange.CommandLine.FrontEnd
import Rearrange.CommandLine.Run
import Rearrange.CommandLine.Scanner
import Rearrange.Datum.Basic
import Rearrange.Datum.Json
import Rearrange.Datum.Written
import Rearrange.Decimal.Shortest
import Rearrange.Display
import Rearrange.Display.Plain
import Rearrange.Main
import Rearrange.Markup
import Rearrange.Note
import Rearrange.Parse.Basic
import Rearrange.Parse.Error
import Rearrange.Parse.Outline
import Rearrange.Parse.Scan
import Rearrange.Placement
import Rearrange.Proofs.Check
import Rearrange.Proofs.CommandLine.CheckFile
import Rearrange.Proofs.CommandLine.FrontEnd
import Rearrange.Proofs.CommandLine.ListPlacements
import Rearrange.Proofs.CommandLine.MoveNode
import Rearrange.Proofs.CommandLine.Run
import Rearrange.Proofs.CommandLine.Scanner
import Rearrange.Proofs.Display.ParseError
import Rearrange.Proofs.Display.Placements
import Rearrange.Proofs.Display.Styles
import Rearrange.Proofs.Markup
import Rearrange.Proofs.Markup.Tags
import Rearrange.Proofs.Parse.Calls
import Rearrange.Proofs.Parse.Defect
import Rearrange.Proofs.Parse.Grammar
import Rearrange.Proofs.Parse.Halving
import Rearrange.Proofs.Parse.Printed
import Rearrange.Proofs.Parse.Reading
import Rearrange.Proofs.Parse.RoundTrip
import Rearrange.Proofs.Parse.Viable
import Rearrange.Proofs.Placement
import Rearrange.Proofs.Placement.Distinct
import Rearrange.Proofs.Placement.Made
import Rearrange.Proofs.Placement.Spliced
import Rearrange.Proofs.Scan.Close
import Rearrange.Proofs.Scan.Depth
import Rearrange.Proofs.Scan.Operators
import Rearrange.Proofs.Scan.Restart
import Rearrange.Proofs.Session.Addresses
import Rearrange.Proofs.Session.Commit
import Rearrange.Proofs.Session.Failure
import Rearrange.Proofs.Session.Invariant
import Rearrange.Proofs.Session.Labels
import Rearrange.Proofs.Session.Move
import Rearrange.Proofs.Session.MoveLaws
import Rearrange.Proofs.Session.Observations
import Rearrange.Proofs.Session.Reachable
import Rearrange.Proofs.Session.Rearrangements
import Rearrange.Proofs.Session.Relocation
import Rearrange.Proofs.Session.Start
import Rearrange.Proofs.Session.Step
import Rearrange.Proofs.Session.Twins
import Rearrange.Proofs.Session.View
import Rearrange.Proofs.Store.Copy
import Rearrange.Proofs.Store.Datum
import Rearrange.Proofs.Store.Entry
import Rearrange.Proofs.Store.Flatten
import Rearrange.Proofs.Store.FlattenInPlace
import Rearrange.Proofs.Store.Graft
import Rearrange.Proofs.Store.Grow
import Rearrange.Proofs.Store.Merging
import Rearrange.Proofs.Store.Number
import Rearrange.Proofs.Store.Operands
import Rearrange.Proofs.Store.Owns
import Rearrange.Proofs.Store.Path
import Rearrange.Proofs.Store.Plant
import Rearrange.Proofs.Store.Relink
import Rearrange.Proofs.Store.Sweep
import Rearrange.Proofs.Store.Upward
import Rearrange.Proofs.Text.Blank
import Rearrange.Proofs.Text.Numeral
import Rearrange.Proofs.Text.Quoted
import Rearrange.Proofs.Tree.Basic
import Rearrange.Proofs.Tree.Canonical
import Rearrange.Proofs.Tree.Characters
import Rearrange.Proofs.Tree.Datum
import Rearrange.Proofs.Tree.Flatten
import Rearrange.Proofs.Tree.Graft
import Rearrange.Proofs.Tree.Indented
import Rearrange.Proofs.Tree.Merging
import Rearrange.Proofs.Tree.Moved
import Rearrange.Proofs.Tree.Place
import Rearrange.Proofs.Tree.Preorder
import Rearrange.Proofs.Tree.Rearranged
import Rearrange.Proofs.Tree.Reorder
import Rearrange.Session.Basic
import Rearrange.Session.Command
import Rearrange.Settings
import Rearrange.Store.Basic
import Rearrange.Store.Edit
import Rearrange.Store.Liveness
import Rearrange.Store.Path
import Rearrange.Store.Plant
import Rearrange.Store.View
import Rearrange.Text.Blank
import Rearrange.Text.Boundaries
import Rearrange.Text.LetterCase
import Rearrange.Text.LetterCase.Table
import Rearrange.Text.Lines
import Rearrange.Text.Numeral
import Rearrange.Text.Printable
import Rearrange.Text.Quoted
import Rearrange.Text.Similarity
import Rearrange.Text.Slice
import Rearrange.Threshold
import Rearrange.Tree.Basic
import Rearrange.Tree.Datum
import Rearrange.Tree.Flat
import Rearrange.Tree.Flatten
import Rearrange.Workspace
