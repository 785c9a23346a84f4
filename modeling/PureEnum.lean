import PureEnum.Enum.Trace
import PureEnum.Enum.Screen
import PureEnum.Json.Reader
import PureEnum.Log.Directives
import PureEnum.Log.Format
import PureEnum.Tree.Encode
import PureEnum.Tree.Decode.Depth
import PureEnum.Tree.Rename
import PureEnum.Proofs.Recognition
import PureEnum.Proofs.Result
import PureEnum.Proofs.Profile
import PureEnum.Proofs.Settled
import PureEnum.Proofs.Sharing
import PureEnum.Proofs.Reach
import PureEnum.Proofs.SecondRun
import PureEnum.Proofs.Enclosure
import PureEnum.Proofs.Unwrap
import PureEnum.Proofs.Success
import PureEnum.Proofs.Scan
import PureEnum.Proofs.Discard
import PureEnum.Proofs.Sighting
import PureEnum.Proofs.Relabeling
import PureEnum.Proofs.Locality
import PureEnum.Proofs.Room
import PureEnum.Proofs.Account
import PureEnum.Proofs.RoundTrip
import PureEnum.Proofs.Detection
import PureEnum.Proofs.Constancy
import PureEnum.Proofs.Search
import PureEnum.Json.Nodes
import PureEnum.Proofs.Replacement
import PureEnum.Proofs.Shape
import PureEnum.Tree.Mark
import PureEnum.Proofs.Rebuild
import PureEnum.Enum.Walk
import PureEnum.Proofs.Descent
import PureEnum.Proofs.Collector
import PureEnum.Proofs.Session
import PureEnum.Proofs.Literal
import PureEnum.Proofs.Indentation
import PureEnum.Proofs.Defects
import PureEnum.Proofs.StatementLists
import PureEnum.Proofs.Filters
import PureEnum.Proofs.Renaming
import PureEnum.Proofs.Reading
