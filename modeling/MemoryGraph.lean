import MemoryGraph.Store.Derived
import MemoryGraph.Server.Slot
import MemoryGraph.Server.InstallSpec
import MemoryGraph.Server.SnapshotDirSpec
import MemoryGraph.Batch.Refusal
import MemoryGraph.Server.Resend
import MemoryGraph.Batch.OpenBatch
import MemoryGraph.Codec.RandomAccess
import MemoryGraph.Read.Ascent
import MemoryGraph.Raft.InFlight
import MemoryGraph.Server.Reads
import MemoryGraph.Access.Forward
import MemoryGraph.Raft.Append
import MemoryGraph.Ingest.Batches
import MemoryGraph.Batch.Lossless
import MemoryGraph.Batch.Version
import MemoryGraph.Codec.PostingLaws
import MemoryGraph.PathLaws
import MemoryGraph.Names.Shared
import MemoryGraph.Store.RevPack
import MemoryGraph.Store.DictProbe
import MemoryGraph.Codec.Hostile
import MemoryGraph.Backup.Calendar
import MemoryGraph.Access.Expiry
import MemoryGraph.Server.HandleRuns
import MemoryGraph.Backup.UploaderRuns
import MemoryGraph.Backup.Restore
import MemoryGraph.Lang.Python
import MemoryGraph.Lang.Asm
import MemoryGraph.Lang.Closers
import MemoryGraph.Lang.NestedEnds
import MemoryGraph.Store.LazySorted
import MemoryGraph.Mcp.Paging
import MemoryGraph.Read.FileMap
import MemoryGraph.Store.Rebuild
