import TailSync.ByzantinePeers
import TailSync.Causality
import TailSync.ConcurrentApplies
import TailSync.CrashWindow
import TailSync.CrashWrites
import TailSync.CrossDials
import TailSync.DeltaCodecs
import TailSync.DeltaSizes
import TailSync.DeltaTransfers
import TailSync.DiscoveryDials
import TailSync.FailedApplies
import TailSync.FileServing
import TailSync.FinalDeletions
import TailSync.Handshakes
import TailSync.HonestSessions
import TailSync.HostPorts
import TailSync.IndexJoins
import TailSync.IndexRestarts
import TailSync.ManagerClose
import TailSync.MeshConvergence
import TailSync.MeshTrust
import TailSync.NotifyFanouts
import TailSync.NotifyHints
import TailSync.NotifyKeys
import TailSync.OpStreams
import TailSync.PathIdentity
import TailSync.PeerAddresses
import TailSync.PeerIdentity
import TailSync.PeerPulls
import TailSync.PlainSearch
import TailSync.PullFlights
import TailSync.ReconciledDisks
import TailSync.RollingSums
import TailSync.SafePaths
import TailSync.ScannedApplies
import TailSync.SessionStreams
import TailSync.Shutdown
import TailSync.UnchangedBlocks
import TailSync.UnscannedEdits
import TailSync.UnsyncedGuard
import TailSync.Watching
