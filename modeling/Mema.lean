import Mema.Lib.Bytes
import Mema.Lib.Nesting
import Mema.Lib.Spans
import Mema.Lib.Chunks
import Mema.Lib.Framing
import Mema.Lib.Buffered
import Mema.Record.Layout
import Mema.Record.Views
import Mema.Trace.Buffer
import Mema.Runtime.Hooks
import Mema.Runtime.Switch
import Mema.Memadump.Trace
import Mema.Trace.NoLoss
import Mema.Viewer.Reader
import Mema.Trace.RoundTrip
import Mema.Viewer.FuncTree
import Mema.Viewer.Vertices
import Mema.Viewer.Depth
import Mema.Trace.CrossProducer
import Mema.Runtime.Monitoring
import Mema.Trace.SwitchSafety
import Mema.Lib.Coalesce
import Mema.Memadump.Instrument
import Mema.Memadump.Simulation
import Mema.Lib.Machine
import Mema.Viewer.Loader
import Mema.Viewer.Interleaving
import Mema.Runtime.Threads
import Mema.Trace.MultiThreaded
import Mema.Lib.Search
import Mema.Viewer.PageTable
import Mema.Viewer.Compaction
import Mema.Memadump.Counters
import Mema.Memapass.Pass
import Mema.Memapass.Paths
import Mema.Memapass.Unwinding
import Mema.Trace.Compression
import Mema.Runtime.Forking
import Mema.Trace.ForkSafety
import Mema.Viewer.Drawing
import Mema.Viewer.Scheduling
import Mema.Viewer.Drawable
import Mema.Viewer.Requests
import Mema.Viewer.Deadlock
import Mema.Runtime.Scope
import Mema.Viewer.Mismatch
import Mema.Runtime.SymbolScan
import Mema.Runtime.FailedSetUp
import Mema.Runtime.AfterClose
import Mema.Lib.Keyed
import Mema.Viewer.Binary
import Mema.Viewer.Symbols
import Mema.Viewer.Dwarf
import Mema.Viewer.StackQueries
import Mema.Lib.Utf8
import Mema.Viewer.MapText
import Mema.Lib.Substring
import Mema.Runtime.Options
import Mema.Trace.ByteAccounting
import Mema.Trace.SlotReuse
import Mema.Viewer.Navigation
import Mema.Lib.Memory
import Mema.Lz4.Block
import Mema.Lz4.Uncompress
import Mema.Lz4.Compress
import Mema.Lz4.Matching
import Mema.Lz4.Writing
import Mema.Lz4.RoundTrip
import Mema.Trace.Lz4Traces
import Mema.Memapass.Activations
import Mema.Trace.BuiltStacks
import Mema.Viewer.Accepting
import Mema.Trace.CutOff
import Mema.Memadump.Details
import Mema.Memadump.Session
import Mema.Memadump.Report
import Mema.Memadump.Agreement
import Mema.Viewer.Progress
import Mema.Lz4.Limited
