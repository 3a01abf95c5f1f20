import OpenshiftConsole.NodeTerminal.Cleanup
import OpenshiftConsole.NodeTerminal.ExecMode
import OpenshiftConsole.NodeTerminal.Pipeline
import OpenshiftConsole.NodeTerminal.FreshIds
import OpenshiftConsole.NodeTerminal.Membership
import OpenshiftConsole.NodeTerminal.MountNs
import OpenshiftConsole.Filesystem.Spawn
import OpenshiftConsole.Filesystem.ExtractBelow
import OpenshiftConsole.Filesystem.ExtractBudget
import OpenshiftConsole.Filesystem.Service
import OpenshiftConsole.Filesystem.PoolRuns
import OpenshiftConsole.Filesystem.PoolKills
import OpenshiftConsole.Filesystem.IdMap
import OpenshiftConsole.Filesystem.Sandbox
import OpenshiftConsole.Filesystem.BrowserTab
import OpenshiftConsole.Filesystem.Upload
import OpenshiftConsole.Filesystem.TarRoundTrip
import OpenshiftConsole.Filesystem.KeepsNodes
import OpenshiftConsole.Filesystem.DateTimePreferences
import OpenshiftConsole.Filesystem.Delete
import OpenshiftConsole.Filesystem.ReadWhole
import OpenshiftConsole.Filesystem.Resized
import OpenshiftConsole.Filesystem.ArchiveNames
import OpenshiftConsole.Filesystem.ArchiveStream
import OpenshiftConsole.Filesystem.Times
import OpenshiftConsole.Filesystem.Touched
import OpenshiftConsole.Filesystem.Compress
import OpenshiftConsole.Filesystem.Visible
import OpenshiftConsole.Logging.AnsiTokens
import OpenshiftConsole.Logging.DroppedLines
import OpenshiftConsole.Logging.JsonRoundTrip
import OpenshiftConsole.Logging.LevelClass
import OpenshiftConsole.Logging.MessageSpans
import OpenshiftConsole.Logging.Geometry
import OpenshiftConsole.Logging.SequenceNumbers
import OpenshiftConsole.Logging.EntryCache
import OpenshiftConsole.Logging.Viewer
import OpenshiftConsole.Logging.GrowingLog
import OpenshiftConsole.Logging.PageAccounting
import OpenshiftConsole.Logging.JournalPaging
import OpenshiftConsole.Terminal.PortForward
import OpenshiftConsole.Terminal.NodeTerminalTab
import OpenshiftConsole.Terminal.ExecChannel
import OpenshiftConsole.Terminal.PosixTimeZone
import OpenshiftConsole.Terminal.TypeText
import OpenshiftConsole.Terminal.VncRetries
import OpenshiftConsole.Terminal.Endpoints
import OpenshiftConsole.Terminal.CurrentUser
import OpenshiftConsole.Synchronizer.Projects
import OpenshiftConsole.Synchronizer.NodeLabels
import OpenshiftConsole.Synchronizer.LabelValues
import OpenshiftConsole.ExternalDns.DnsMessage
import OpenshiftConsole.ExternalDns.DnsRoundTrip
import OpenshiftConsole.ExternalDns.DnsComplete
import OpenshiftConsole.ExternalDns.DnsQuery
import OpenshiftConsole.ExternalDns.Lookup
import OpenshiftConsole.ExternalDns.DnsLookup
import OpenshiftConsole.CertManager.CertCheck
import OpenshiftConsole.CertManager.Hostnames
import OpenshiftConsole.CertManager.Inspect
import OpenshiftConsole.Logging.JournalRequest
import OpenshiftConsole.Library.Bootstring
import OpenshiftConsole.Backend.Credentials
import OpenshiftConsole.Backend.Objects
import OpenshiftConsole.Flux.Reconcile
import OpenshiftConsole.Flux.Consumers
import OpenshiftConsole.Filesystem.Proxy
import OpenshiftConsole.Filesystem.Resolver
import OpenshiftConsole.Logging.JournalProxy
import OpenshiftConsole.Library.Interaction
import OpenshiftConsole.CertManager.Punycode
import OpenshiftConsole.Library.ControlLoop
import OpenshiftConsole.Synchronizer.ProjectRuns
