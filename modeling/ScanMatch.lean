import ScanMatch.Config.Codec
import ScanMatch.Config.MatchConfig
import ScanMatch.Decimal.Numeral
import ScanMatch.Decimal.Shortest
import ScanMatch.Fault
import ScanMatch.Geometry.Angle
import ScanMatch.Geometry.Point
import ScanMatch.Geometry.Pose
import ScanMatch.Matching
import ScanMatch.Prior.Gaussian
import ScanMatch.Prior.Quadratic
import ScanMatch.Proofs.BestFirst
import ScanMatch.Proofs.Bounds
import ScanMatch.Proofs.Charge
import ScanMatch.Proofs.Conditioning
import ScanMatch.Proofs.Construction
import ScanMatch.Proofs.Correlation
import ScanMatch.Proofs.Ensures
import ScanMatch.Proofs.Exact
import ScanMatch.Proofs.Levels
import ScanMatch.Proofs.Order
import ScanMatch.Proofs.Partition
import ScanMatch.Proofs.PseudoInverse
import ScanMatch.Proofs.Quadratic
import ScanMatch.Proofs.Run
import ScanMatch.Proofs.Steps
import ScanMatch.Proofs.Window
import ScanMatch.Proofs.Wrapping
import ScanMatch.Raster.Grid
import ScanMatch.Raster.Pyramid
import ScanMatch.Refine.Alignment
import ScanMatch.Refine.Climb
import ScanMatch.Refine.RigidFit
import ScanMatch.Scalar
import ScanMatch.Scalar.Binary
import ScanMatch.Scan.Cache
import ScanMatch.Scan.CellSet
import ScanMatch.Search.Block
import ScanMatch.Search.Engine
import ScanMatch.Search.Frontier
import ScanMatch.Search.Registration
import ScanMatch.Search.Request
import ScanMatch.Yaml.Codec
import ScanMatch.Yaml.Document
import ScanMatch.Yaml.Node
import ScanMatch.Yaml.Scalar
import ScanMatch.Yaml.Text
import ScanMatch.Yaml.Token
import ScanMatch.Yaml.Value
import ScanMatch.Proofs.CacheHistory
import ScanMatch.Proofs.Climbing
import ScanMatch.Proofs.Agreement
import ScanMatch.Proofs.Freshness
import ScanMatch.Proofs.Yield
import ScanMatch.Proofs.Accounting
import ScanMatch.Proofs.Draining
import ScanMatch.Proofs.Independence
import ScanMatch.Proofs.Memo
import ScanMatch.Proofs.Ranges
import ScanMatch.Proofs.Merging
import ScanMatch.Proofs.Completion
import ScanMatch.Proofs.Binary64
import ScanMatch.Proofs.Usability
import ScanMatch.Proofs.Plane
import ScanMatch.Proofs.Fitting
import ScanMatch.Proofs.Neighbours
import ScanMatch.Proofs.Rounds
import ScanMatch.Proofs.Rotations
import ScanMatch.Proofs.Sampling
import ScanMatch.Proofs.Literals
import ScanMatch.Proofs.Frames
import ScanMatch.Proofs.Balance
import ScanMatch.Proofs.Exhaustion
import ScanMatch.Proofs.Scanning
import ScanMatch.Proofs.Documents
import ScanMatch.Proofs.Decimals
import ScanMatch.Proofs.Shortest
import ScanMatch.Proofs.Numerals
import ScanMatch.Proofs.Restoring
import ScanMatch.Proofs.Motions
import ScanMatch.Proofs.MoorePenrose
import ScanMatch.Proofs.Overrides
import ScanMatch.Proofs.Minimum
import ScanMatch.Proofs.Admissibility
import ScanMatch.Proofs.Canonical
import ScanMatch.Proofs.Coarsening
import ScanMatch.Proofs.LeastSquares
import ScanMatch.Proofs.Outliers
import ScanMatch.Proofs.Scores
import ScanMatch.Proofs.Ascent
import ScanMatch.Proofs.Centers
