import Linkrs.Mvcc.EdgeAuthority
import Linkrs.Mvcc.Settlement
import Linkrs.Certify.Review
import Linkrs.Manager.Visibility
import Linkrs.Manager.CheckpointSnapshot
import Linkrs.Manager.Watermarks
import Linkrs.Wal.GroupCommit
import Linkrs.Wal.TornTail
import Linkrs.Wal.SkipCorruption
import Linkrs.Wal.Reopen
import Linkrs.Storage.Startup
import Linkrs.Storage.AutoCommitLog
import Linkrs.Index.CursorFence
import Linkrs.Index.VertexCursor
import Linkrs.Index.Manifest
import Linkrs.Wal.Parallel
import Linkrs.Vertex.IdRestart
import Linkrs.Edge.CsrRefinement
import Linkrs.Query.SetOperator
import Linkrs.Query.BitAggregates
import Linkrs.Query.FullOuterJoin
import Linkrs.Query.LeftJoin
import Linkrs.Query.SpilledJoin
import Linkrs.Query.SpilledAggregate
import Linkrs.Context.RecordMutation
import Linkrs.Context.UndoFile
import Linkrs.Core.OrderedKeys
import Linkrs.Query.CompiledAgreement
import Linkrs.Query.ConstantFolding
import Linkrs.Storage.StagingBudget
import Linkrs.Vertex.ShardLayout
import Linkrs.Wal.DryReplay
