import KairosFlux.Aiplane.Context
import KairosFlux.Aiplane.Edges
import KairosFlux.Client.Pool
import KairosFlux.Client.Watchdog
import KairosFlux.Cluster.Routing
import KairosFlux.Jobctl.Budget
import KairosFlux.Jobctl.Recovery
import KairosFlux.Jobctl.Retries
import KairosFlux.Jobctl.Slots
import KairosFlux.Jobctl.V2Store
import KairosFlux.Kairnet.Negotiate
import KairosFlux.Raft.ApplyStream
import KairosFlux.Raft.Writes
import KairosFlux.Raft.SnapshotData
import KairosFlux.Service.BoundedReplay
import KairosFlux.Service.Breaker
import KairosFlux.Service.ConcurrentPuts
import KairosFlux.Service.DeliveryRounds
import KairosFlux.Service.EmptyValues
import KairosFlux.Service.FileSink
import KairosFlux.Service.Immutability
import KairosFlux.Service.PutRetries
import KairosFlux.Service.Recovery
import KairosFlux.Service.ReplayResponses
import KairosFlux.Service.SnapshotReads
import KairosFlux.Service.Windows
import KairosFlux.Storage.Backpressure
import KairosFlux.Storage.BlockCache
import KairosFlux.Storage.FlushReads
import KairosFlux.Storage.TableReads
import KairosFlux.Temporal.RecordFormats
