import Flowchart.Main
import Flowchart.Proofs.Layout.Apart
import Flowchart.Proofs.Text
import Flowchart.Session
import Flowchart.Proofs.Pieces
import Flowchart.Proofs.Fragment.Partition
import Flowchart.Proofs.Block.Braces
import Flowchart.Proofs.Block.Reads
import Flowchart.Proofs.Block.Stop
import Flowchart.Proofs.Pieces.Local
import Flowchart.Proofs.Pieces.Plain
import Flowchart.Proofs.Fragment.Lines
import Flowchart.Proofs.Code
import Flowchart.Proofs.Code.Lines
import Flowchart.Proofs.Code.Rules
import Flowchart.Proofs.Code.RoundTrip
import Flowchart.Proofs.Geometry.Line
import Flowchart.Proofs.Layout.Figure
import Flowchart.Proofs.Layout.Frame
import Flowchart.Proofs.Layout.Clear
import Flowchart.Proofs.Layout.Connected
import Flowchart.Proofs.Block.Similar
import Flowchart.Proofs.Fragment.Rescan
import Flowchart.Proofs.Pieces.Tail
import Flowchart.Proofs.Fragment.Insertion
import Flowchart.Proofs.Repair
import Flowchart.Proofs.Flow
import Flowchart.Proofs.Block.Origin
import Flowchart.Proofs.Block.Opening
import Flowchart.Proofs.Layout.Contents
import Flowchart.Proofs.Block.Limit
import Flowchart.Proofs.Layout.Depth
import Flowchart.Proofs.Chart
import Flowchart.Proofs.Scalar
import Flowchart.Proofs.Layout.Moved
import Flowchart.Proofs.Layout.Columns
import Flowchart.Proofs.Layout.Axes
import Flowchart.Proofs.Fragment.Scanners
import Flowchart.Proofs.Fragment.Joined
import Flowchart.Proofs.Block.Closing
import Flowchart.Proofs.Repair.Line
import Flowchart.Proofs.Repair.Again
import Flowchart.Proofs.Repair.Insertions
import Flowchart.Proofs.Files
import Flowchart.Proofs.Command
import Flowchart.Proofs.Block.Unpaired
import Flowchart.Proofs.Fragment.Terminator
import Flowchart.Proofs.Repair.Reported
import Flowchart.Proofs.Repair.Condition
import Flowchart.Proofs.Repair.Unclosed
import Flowchart.Proofs.Repair.Terminated
import Flowchart.Proofs.Repair.Located
import Flowchart.Proofs.Layout.Extent
import Flowchart.Proofs.Layout.Lanes
import Flowchart.Proofs.Layout.Orthogonal
import Flowchart.Proofs.Drawing
import Flowchart.Proofs.Svg
import Flowchart.Proofs.Statement.Group
import Flowchart.Proofs.Drawing.Label
import Flowchart.Proofs.Statement.Clause
import Flowchart.Proofs.Statement.Output
import Flowchart.Proofs.Statement.Argument
import Flowchart.Proofs.Statement.Keyword
import Flowchart.Proofs.Color
import Flowchart.Proofs.Block.Advance
