import Bytewax.Window.SessionValues
import Bytewax.Window.SlidingValues
import Bytewax.Window.SlidingOnce
import Bytewax.Window.SessionChains
import Bytewax.Window.Watermark
import Bytewax.Window.Bookkeeping
import Bytewax.Operators.UnaryResume
import Bytewax.Operators.UnaryEof
import Bytewax.Operators.InputSnapshots
import Bytewax.Operators.OutputOnce
import Bytewax.Operators.CalcPrimaries
import Bytewax.Operators.UnaryTransparent
import Bytewax.Operators.UnaryNotify
import Bytewax.Operators.UnaryTrace
import Bytewax.Operators.Snapshots
import Bytewax.Operators.Collect
import Bytewax.Operators.Join
import Bytewax.Operators.ReduceFinal
import Bytewax.Recovery.Commit
import Bytewax.Recovery.ConsistentCut
import Bytewax.Recovery.ResumePoint
import Bytewax.Operators.UnaryBacked
import Bytewax.Sources.Polling
import Bytewax.Sources.PartKeys
import Bytewax.Sources.Kafka
import Bytewax.Sources.Testing
import Bytewax.Operators.NotificatorContract
import Bytewax.Sources.CsvFiles
import Bytewax.Dataflow.Encoder
import Bytewax.Dataflow.Links
import Bytewax.Dataflow.Rendered
import Bytewax.Dataflow.Traversal
import Bytewax.Timely.Primaries
import Bytewax.Timely.Cluster
import Bytewax.Timely.LoadCluster
import Bytewax.Recovery.CommitOrder
import Bytewax.Recovery.ResumeCalc
