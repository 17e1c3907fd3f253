import NvStream.Lib.Mem
import NvStream.Lib.LittleEndian
import NvStream.Lib.LoadProg
import NvStream.Lib.PersistTrace
import NvStream.Lib.SortedMap
import NvStream.Lib.InverseMaps
import NvStream.Layout
import NvStream.Log.Basic
import NvStream.Log.Invariant
import NvStream.Log.Framing
import NvStream.Log.Crash
import NvStream.Log.Readers
import NvStream.Log.SingleAppend
import NvStream.Log.Rows
import NvStream.MemoryManager
import NvStream.NvsStore.Basic
import NvStream.NvsStore.Records
import NvStream.NvsStore.Lookup
import NvStream.NvsStore.Runs
import NvStream.NvsStore.RoundTrip
import NvStream.NvsStore.MemcpyBuild
import NvStream.NvsStore.Getters
import NvStream.DeltaStore.Chunks
import NvStream.DeltaStore.Basic
import NvStream.DeltaStore.Framing
import NvStream.DeltaStore.DirtyPages
import NvStream.DeltaStore.Reconstruct
import NvStream.DeltaStore.Calls
import NvStream.NvsStore.Calls
import NvStream.NvsStore.Freshness
import NvStream.NvsStore.KeyIdentity
import NvStream.NvsStore.Overrun
import NvStream.NvsStore.Oversize
import NvStream.Directory.Basic
import NvStream.Directory.Safety
import NvStream.Directory.Opening
import NvStream.Directory.Crash
import NvStream.Directory.Launch
import NvStream.Directory.Relaunch
import NvStream.Directory.Segment
import NvStream.Lib.Decimal
import NvStream.NvsStore.Isolation
import NvStream.FileStore.Basic
import NvStream.FileStore.Names
import NvStream.Lib.Blocks
import NvStream.Stores.Interchange
import NvStream.Stores.Versions
import NvStream.Stores.Addresses
import NvStream.DeltaStore.Capacity
import NvStream.DeltaStore.Decode
import NvStream.DeltaStore.Faults
import NvStream.DeltaStore.ReadSide
import NvStream.Stores.Vectors
import NvStream.Stores.Batches
import NvStream.Stores.Savings
import NvStream.Stores.Timing
import NvStream.Stores.Manager
import NvStream.Lib.Tally
import NvStream.Stores.Statistics
import NvStream.Lib.Following
import NvStream.NvsStore.AnyBytes
import NvStream.NvsStore.Damage
import NvStream.NvsStore.Reading
import NvStream.NvsStore.Cluster
import NvStream.NvsStore.Linearize
import NvStream.NvsStore.Checkpoint
import NvStream.NvsStore.Space
import NvStream.Stores.Restart
