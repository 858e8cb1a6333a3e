import Mir.Availability.BatchDB
import Mir.Availability.Conservation
import Mir.Availability.Reconstruction
import Mir.BatchFetcher.EpochTags
import Mir.BatchFetcher.Ordering
import Mir.Bcb.Consistency
import Mir.Checkpoint.Agreement
import Mir.EventLog.Reader
import Mir.EventLog.Recorder
import Mir.Iss.CommonCheckpoint
import Mir.Iss.LeaderOrder
import Mir.Iss.Policies
import Mir.Iss.Received
import Mir.Mempool.Identifiers
import Mir.Mempool.RequestEpochs
import Mir.Mempool.Storage
import Mir.Net.Receiving
import Mir.Node.Unexpected
import Mir.Orderers.Agreement
import Mir.Orderers.Decided
import Mir.Orderers.Proposals
import Mir.Orderers.Reproposed
import Mir.Orderers.ViewChangeMessages
import Mir.Orderers.ViewTimers
import Mir.StdEvents.Serialization
import Mir.ThreshCrypto.Marshalling
import Mir.Util.SizedBuffer
