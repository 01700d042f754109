import EngineConsole.Transition
import EngineConsole.CreditFlow
import EngineConsole.Proto
import EngineConsole.FlowControl
import EngineConsole.LinkAnswers
import EngineConsole.LinkLife
import EngineConsole.LinkPending
import EngineConsole.LinkPace
import EngineConsole.FrameStream
import EngineConsole.CrashLogic
import EngineConsole.NodeFiles
import EngineConsole.FsWrite
import EngineConsole.UploadAtomic
import EngineConsole.Regex
import EngineConsole.Router
import EngineConsole.Security
import EngineConsole.Requests
import EngineConsole.DownloadJob
import EngineConsole.JobOrder
import EngineConsole.OneWorker
import EngineConsole.JobEnds
import EngineConsole.Downloads
import EngineConsole.DownloadEnds
import EngineConsole.DownloadClashes
import EngineConsole.Refetch
import EngineConsole.ModelRefs
import EngineConsole.Labels
import EngineConsole.Adoption
import EngineConsole.CopiedBytes
import EngineConsole.Snapshots
import EngineConsole.Ports
import EngineConsole.InstanceStates
import EngineConsole.SharedCopies
import EngineConsole.Confinement
import EngineConsole.Arena
import EngineConsole.Listing
import EngineConsole.ImageRule
import EngineConsole.DerivedIds
import EngineConsole.Globs
import EngineConsole.Scanner
import EngineConsole.Metrics
import EngineConsole.LogRing
import EngineConsole.Mailbox
import EngineConsole.EventBus
import EngineConsole.ScriptJobs
import EngineConsole.ScriptStreams
import EngineConsole.MergedLibrary
import EngineConsole.Cleaning
import EngineConsole.StrictArgs
import EngineConsole.CacheDirs
import EngineConsole.Progress
import EngineConsole.Preamble
import EngineConsole.HttpMessage
import EngineConsole.DecodedPaths
import EngineConsole.HttpForward
import EngineConsole.KvSizing
import EngineConsole.Bootstrap
import EngineConsole.Transactions
import EngineConsole.Store
import EngineConsole.LineStream
import EngineConsole.NodeWriter
import EngineConsole.ScriptRun
import EngineConsole.BudgetReader
import EngineConsole.Gguf
import EngineConsole.HttpRelay
import EngineConsole.PosixPath
import EngineConsole.ClearWay
import EngineConsole.SnapshotLinks
import EngineConsole.Validation
import EngineConsole.MountTable
import EngineConsole.MountInfo
import EngineConsole.JsonSyntax
import EngineConsole.JsonReader
import EngineConsole.PyJson
import EngineConsole.IterationStats
import EngineConsole.JsonArena
import EngineConsole.JsonReaders
import EngineConsole.PyLines
import EngineConsole.EventStream
import EngineConsole.ShellWords
import EngineConsole.Shorten
import EngineConsole.Replace
import EngineConsole.Exposition
import EngineConsole.Precedence
import EngineConsole.Masking
import EngineConsole.Base64
import EngineConsole.FitTail
import EngineConsole.ProbeAnswer
import EngineConsole.EditScripts
import EngineConsole.LineDiff
import EngineConsole.Wizard
import EngineConsole.Limbs
import EngineConsole.Binary64
import EngineConsole.PyInts
import EngineConsole.ChatRecord
import EngineConsole.RealPath
import EngineConsole.SharedLaunch
import EngineConsole.ImageCache
import EngineConsole.MaskedCommands
import EngineConsole.StreamSlots
import EngineConsole.AuditPages
import EngineConsole.FilteredMetrics
