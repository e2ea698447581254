import Hummin.DeltaTrusted
import Hummin.DeltaWireSafety
import Hummin.DeltaPending
import Hummin.ChannelOrder
import Hummin.OutputWindow
import Hummin.LinkTextRoundTrip
import Hummin.LinkPayload
import Hummin.SessionTree
import Hummin.Truncate
import Hummin.CompactionCut
import Hummin.WriterRuns
import Hummin.RecordCacheTables
import Hummin.DocumentReload
import Hummin.DurableWaitsRuns
import Hummin.SessionLineOutcomes
import Hummin.MemoryDocumentsHistory
import Hummin.RemoteCallsRuns
import Hummin.ReplayTrim
import Hummin.RelayRuns
import Hummin.DeriveJson
import Hummin.ProviderSent
import Hummin.DirectoryLock
import Hummin.InboxRuns
import Hummin.ContextRangeRuns
import Hummin.MainScreenRuns
import Hummin.AgentLoopRuns
import Hummin.TranscriptToolChanges
import Hummin.StdinBufferReads
import Hummin.StreamingJsonReplay
import Hummin.AgentsBrokerRuns
import Hummin.CronSchedulerRuns
import Hummin.CronDaily
import Hummin.Replica
import Hummin.SessionRuns
