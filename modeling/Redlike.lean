import Redlike.Lib.Incremental
import Redlike.Lib.TtlMap
import Redlike.Lib.Linear
import Redlike.Lib.Words
import Redlike.Lib.Files
import Redlike.Lib.Settling
import Redlike.Lib.Durable
import Redlike.Resp.Bytes
import Redlike.Resp.Frame
import Redlike.Resp.Parser
import Redlike.Resp.Chunking
import Redlike.Resp.Grammar
import Redlike.Resp.Agreement
import Redlike.Resp.RoundTrip
import Redlike.Resp.Inline
import Redlike.Resp.Image
import Redlike.Resp.Checked
import Redlike.Resp.Panics
import Redlike.Resp.History
import Redlike.Resp.Consumption
import Redlike.Resp.Capacity
import Redlike.Resp.Layout
import Redlike.Store.Model
import Redlike.Store.Ideal
import Redlike.Store.Refinement
import Redlike.Store.Concurrent
import Redlike.Store.Locks
import Redlike.Store.Placement
import Redlike.Store.Linearizability
import Redlike.Store.Serial
import Redlike.Store.Wakeup
import Redlike.Snapshot.Model
import Redlike.Snapshot.Exact
import Redlike.Snapshot.Restore
import Redlike.Snapshot.Drift
import Redlike.Store.Coverage
import Redlike.Store.Sweep
import Redlike.Store.Previous
import Redlike.Snapshot.Taking
import Redlike.Archive.Model
import Redlike.Archive.Atomic
import Redlike.Archive.Paths
import Redlike.Archive.Durable
import Redlike.Connection.Command
import Redlike.Connection.Table
import Redlike.Connection.Names
import Redlike.Connection.Typed
import Redlike.Connection.Format
import Redlike.Connection.Model
import Redlike.Connection.Request
import Redlike.Connection.Auth
import Redlike.Connection.Replies
import Redlike.Store.Expire
import Redlike.Store.Keys
import Redlike.Store.View
import Redlike.Store.Once
import Redlike.Snapshot.Continuity
import Redlike.Store.Progress
import Redlike.Server.Model
import Redlike.Server.Tasks
import Redlike.Server.Progress
import Redlike.Server.Visible
import Redlike.Server.Shutdown
import Redlike.Server.Wire
import Redlike.Server.Authority
import Redlike.Server.Guesses
import Redlike.Server.Lives
