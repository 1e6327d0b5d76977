import Kvtsjl.KeyMap
import Kvtsjl.Composition
import Kvtsjl.CommitOrder
import Kvtsjl.Keys
import Kvtsjl.Memory
import Kvtsjl.Lib.Prog
import Kvtsjl.Lib.Dict
import Kvtsjl.Lib.Trace
import Kvtsjl.Lib.Delimited
import Kvtsjl.Lib.Script
import Kvtsjl.Concurrent
import Kvtsjl.NoLostUpdate
import Kvtsjl.Closure
import Kvtsjl.Lib.Buckets
import Kvtsjl.TermIndex
import Kvtsjl.IndexedSearch
import Kvtsjl.Tree
import Kvtsjl.CommitSide
import Kvtsjl.Existence
import Kvtsjl.Lib.Closed
import Kvtsjl.Steps
import Kvtsjl.Kinds
import Kvtsjl.Unsupported
import Kvtsjl.Waiting
import Kvtsjl.Answers
import Kvtsjl.ValueViews
import Kvtsjl.KeyViews
import Kvtsjl.Lib.Percent
import Kvtsjl.ObjectKeys
import Kvtsjl.MissingKeys
import Kvtsjl.Fill
import Kvtsjl.FillNests
import Kvtsjl.Lib.Expiring
import Kvtsjl.SqlStore
import Kvtsjl.SqlExpiry
import Kvtsjl.ObjectStore
import Kvtsjl.LazyExpiry
import Kvtsjl.SharedTable
import Kvtsjl.CompareAndWrite
import Kvtsjl.ScopedKeys
import Kvtsjl.FsWriters
import Kvtsjl.Redis
import Kvtsjl.RedisStore
import Kvtsjl.WriteExpiry
import Kvtsjl.RedisUpdates
import Kvtsjl.FlushSyncs
import Kvtsjl.Lib.Session
import Kvtsjl.Sqlite
import Kvtsjl.Scan
import Kvtsjl.ObjectPaths
import Kvtsjl.ReadingKeys
import Kvtsjl.InKeys
import Kvtsjl.Cascade
import Kvtsjl.LeafScan
import Kvtsjl.ScanViews
import Kvtsjl.ScanLimits
import Kvtsjl.Lib.Listing
import Kvtsjl.Lib.Paging
import Kvtsjl.ObjectScan
import Kvtsjl.PrefixScans
import Kvtsjl.SqlScans
import Kvtsjl.SqlPrefixScans
import Kvtsjl.RedisScans
import Kvtsjl.ValueScans
import Kvtsjl.MemoryScans
import Kvtsjl.ScopedScans
import Kvtsjl.ObjectCollection
import Kvtsjl.EarlyBinding
import Kvtsjl.Lib.Stable
import Kvtsjl.SqlCollection
import Kvtsjl.KeysetScans
import Kvtsjl.Lib.Lifetime
import Kvtsjl.ZipLife
import Kvtsjl.Groups
import Kvtsjl.Cursors
import Kvtsjl.VectorIndex
import Kvtsjl.VectorSearch
import Kvtsjl.VectorPatch
import Kvtsjl.LiveSearch
import Kvtsjl.Lib.Chunks
import Kvtsjl.Lib.Frames
import Kvtsjl.Lib.Utf8
import Kvtsjl.StreamingSerDe
import Kvtsjl.StreamedDecoding
import Kvtsjl.ExpiredKeys
import Kvtsjl.Streams
import Kvtsjl.StreamedReads
import Kvtsjl.BlobOps
import Kvtsjl.ChunkReader
import Kvtsjl.SqlTableName
import Kvtsjl.StreamedWrites
import Kvtsjl.Lib.Parts
import Kvtsjl.Collection
import Kvtsjl.LimitedScans
import Kvtsjl.FsDriver
import Kvtsjl.FanOut
import Kvtsjl.JoinedViews
import Kvtsjl.MemorySource
import Kvtsjl.DeleteWhere
import Kvtsjl.Scoping
import Kvtsjl.ExpiringMap
import Kvtsjl.MapNodes
import Kvtsjl.MapTrees
