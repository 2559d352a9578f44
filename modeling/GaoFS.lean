import GaoFS.Library.Runs
import GaoFS.Library.Rounds
import GaoFS.Library.NumberText
import GaoFS.Library.ByteFile
import GaoFS.Library.Blocks
import GaoFS.Arithmetic
import GaoFS.Chunks
import GaoFS.ForwardData
import GaoFS.SrvData
import GaoFS.WriteRun
import GaoFS.ChunkStorage
import GaoFS.FirstChunkRecord
import GaoFS.DataOps
import GaoFS.FirstChunkFile
import GaoFS.FirstChunkRace
import GaoFS.ReadRun
import GaoFS.ReadPlan
import GaoFS.MergeOperator
import GaoFS.MetadataKey
import GaoFS.Library.OrderedMap
import GaoFS.MetadataDB
import GaoFS.CreateRace
import GaoFS.ForwardTruncate
import GaoFS.Library.Wire
import GaoFS.RpcTypes
import GaoFS.ForwardRemove
import GaoFS.Dirents
import GaoFS.Listing
import GaoFS.GaofsFunctions
import GaoFS.Library.RootedTree
import GaoFS.Tree
import GaoFS.FileSizes
import GaoFS.ErrorReplies
import GaoFS.FileMap
import GaoFS.Descriptors
import GaoFS.DaemonTruncate
import GaoFS.Library.Paths
import GaoFS.Resolve
import GaoFS.ResolveLexical
import GaoFS.WriteWait
import GaoFS.ReadWait
import GaoFS.WriteHandler
import GaoFS.ChunkIo
import GaoFS.ChunkRanges
import GaoFS.Library.Columns
import GaoFS.DirentBuffers
import GaoFS.Getdents
import GaoFS.ResolveWalk
import GaoFS.Relativize
import GaoFS.ResolveLinks
import GaoFS.SymlinkHooks
import GaoFS.HookResults
import GaoFS.Statistics
import GaoFS.VectorIo
import GaoFS.FilePositions
import GaoFS.Hostfile
import GaoFS.InternalDescriptors
import GaoFS.WorkingDirectory
import GaoFS.FollowLinks
import GaoFS.StoredWrites
import GaoFS.WritesInFlight
import GaoFS.FileContents
import GaoFS.ConcurrentWrites
import GaoFS.FairWrites
import GaoFS.ChunkOrder
import GaoFS.PlacedChunks
import GaoFS.FileTree
import GaoFS.FileTable
import GaoFS.StoredFiles
import GaoFS.FileSystem
import GaoFS.Sessions
import GaoFS.Naming
import GaoFS.Programs
