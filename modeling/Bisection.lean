import Bisection.Area
import Bisection.Command.Run
import Bisection.Document.AreaList
import Bisection.Document.Listing
import Bisection.Document.NodeList
import Bisection.Main
import Bisection.Partition.Query
import Bisection.Partition.Tree
import Bisection.Proofs.Ancestry
import Bisection.Proofs.AreaDocument
import Bisection.Proofs.AreaReading
import Bisection.Proofs.AreaRewriting
import Bisection.Proofs.CameraLimits
import Bisection.Proofs.Capacity
import Bisection.Proofs.Charges
import Bisection.Proofs.Commands
import Bisection.Proofs.CommentPlaces
import Bisection.Proofs.CommentTrees
import Bisection.Proofs.CommentedLists
import Bisection.Proofs.Events
import Bisection.Proofs.LastCuts
import Bisection.Proofs.Lookup
import Bisection.Proofs.Navigation
import Bisection.Proofs.NodeReading
import Bisection.Proofs.Ordering
import Bisection.Proofs.Outcome
import Bisection.Proofs.Overlaps
import Bisection.Proofs.PointRuns
import Bisection.Proofs.PrefixCode
import Bisection.Proofs.Prolog
import Bisection.Proofs.Pruning
import Bisection.Proofs.Retention
import Bisection.Proofs.Scanning
import Bisection.Proofs.TextNodes
import Bisection.View.Viewer
