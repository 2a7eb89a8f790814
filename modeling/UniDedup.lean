import UniDedup.Chunking.Extremum
import UniDedup.Chunking.Fingerprint
import UniDedup.Chunking.Rechunk
import UniDedup.Client.Assembling
import UniDedup.Client.Command
import UniDedup.Client.GroupSize
import UniDedup.Client.RecipeTable
import UniDedup.Client.Routing
import UniDedup.Client.StatefulRouting
import UniDedup.Client.StatelessRouting
import UniDedup.Client.TransferOrder
import UniDedup.Lib.Channel
import UniDedup.Lib.Comparing
import UniDedup.Lib.Linked
import UniDedup.Lib.Loop
import UniDedup.Lib.Recency
import UniDedup.Node.BackupPath
import UniDedup.Node.BufferRuns
import UniDedup.Node.BufferedFingerprints
import UniDedup.Node.CappedRuns
import UniDedup.Node.ContainerChunk
import UniDedup.Node.Deletion
import UniDedup.Node.Exact
import UniDedup.Node.Handover
import UniDedup.Node.HistoryAware
import UniDedup.Node.Hygiene
import UniDedup.Node.KeyValueHistory
import UniDedup.Node.LruCache
import UniDedup.Node.MinSampling
import UniDedup.Node.Progress
import UniDedup.Node.RestoreAgreement
import UniDedup.Node.SegmentIds
import UniDedup.Node.Segmenting
import UniDedup.Node.SimilarSegments
import UniDedup.Node.Waiting
import UniDedup.Storage.Agents
import UniDedup.Storage.ConfigFields
import UniDedup.Storage.Coverage
import UniDedup.Storage.Decoding
import UniDedup.Storage.EncodeRuns
import UniDedup.Storage.Faithful
import UniDedup.Storage.Fetches
import UniDedup.Storage.Instructions
import UniDedup.Storage.Inversion
import UniDedup.Storage.LocalRepair
import UniDedup.Storage.Location
import UniDedup.Storage.StripeRepair
import UniDedup.Storage.NonSystematic
import UniDedup.Storage.PacketSlices
import UniDedup.Storage.PlacementRuns
import UniDedup.Storage.PoolRuns
import UniDedup.Storage.RepairLocks
import UniDedup.Storage.RepairRuns
import UniDedup.Storage.Restart
import UniDedup.Storage.SliceExchange
import UniDedup.Storage.Sorting
import UniDedup.Storage.StagedRecovery
import UniDedup.Storage.WireRoundTrip
