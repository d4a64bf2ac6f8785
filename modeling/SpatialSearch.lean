import SpatialSearch.Json.DomainForms
import SpatialSearch.Json.Printer
import SpatialSearch.Json.Reader
import SpatialSearch.Description.Group
import SpatialSearch.Script
import SpatialSearch.Proofs.EmptyBoxes
import SpatialSearch.Proofs.Exchanges
import SpatialSearch.Proofs.Mismatches
import SpatialSearch.Proofs.NearestMethods
import SpatialSearch.Proofs.Refusals
import SpatialSearch.Proofs.HeapRuns
import SpatialSearch.Proofs.Gathers
import SpatialSearch.Proofs.Verdicts
import SpatialSearch.Proofs.QueryTables
import SpatialSearch.Proofs.Routing
import SpatialSearch.Proofs.CoveringRadius
import SpatialSearch.Proofs.Assembly
import SpatialSearch.Proofs.Network
import SpatialSearch.Proofs.Responses
import SpatialSearch.Proofs.Splits
import SpatialSearch.Proofs.Streams
import SpatialSearch.Proofs.Rows
import SpatialSearch.Proofs.NeighborOrder
import SpatialSearch.Proofs.Drains
import SpatialSearch.Proofs.ExactGeometry
import SpatialSearch.Proofs.JointBounds
import SpatialSearch.Proofs.EvenSplits
import SpatialSearch.Proofs.ExactCounts
import SpatialSearch.Proofs.Pruning
import SpatialSearch.Proofs.TableTexts
