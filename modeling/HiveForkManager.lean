import HiveForkManager.ShadowRewind
import HiveForkManager.HeadViews
import HiveForkManager.CleanupViews
import HiveForkManager.WalRecovery
import HiveForkManager.CustomJsonTypes
import HiveForkManager.RendezvousTrigger
import HiveForkManager.LiveDumper
import HiveForkManager.LiteMode
import HiveForkManager.FailedBlocks
import HiveForkManager.EventsCleanup
import HiveForkManager.ExactlyOnce
import HiveForkManager.NonForking
import HiveForkManager.Registry
import HiveForkManager.QueryHandlers
import HiveForkManager.IndexDependencies
import HiveForkManager.JcsText
import HiveForkManager.StageSelection
import HiveForkManager.Restart
import HiveForkManager.Pruning
import HiveForkManager.ExtendedViews
import HiveForkManager.Metadata
import HiveForkManager.LiteRefinement
import HiveForkManager.DetachSafety
import HiveForkManager.CustomJsonIndexRuns
import HiveForkManager.JsonbRoundTrip
import HiveForkManager.SequenceOrder
import HiveForkManager.PeerSync
import HiveForkManager.AssetUniqueId
import HiveForkManager.SqlLiteral
import HiveForkManager.LogNames
import HiveForkManager.ChunksSplitter
import HiveForkManager.AccountNumbering
import HiveForkManager.StripNullEscapes
import HiveForkManager.IndexText
import HiveForkManager.OperationHex
import HiveForkManager.TimePoint
import HiveForkManager.Base58
