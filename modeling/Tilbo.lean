import Tilbo.Bookmarks.Inject
import Tilbo.Daemon.CopyEnds
import Tilbo.Daemon.CopyPaste
import Tilbo.Daemon.Edits
import Tilbo.Daemon.Embeddings
import Tilbo.Daemon.FailedReads
import Tilbo.Daemon.FileActions
import Tilbo.Daemon.Ghosts
import Tilbo.Daemon.GuiBundle
import Tilbo.Daemon.Harvests
import Tilbo.Daemon.IndexTruth
import Tilbo.Daemon.Mirror
import Tilbo.Daemon.NewNames
import Tilbo.Daemon.Notices
import Tilbo.Daemon.Overrides
import Tilbo.Daemon.Passes
import Tilbo.Daemon.Pins
import Tilbo.Daemon.Resume
import Tilbo.Daemon.TagReports
import Tilbo.Desktopfile.LaunchApp
import Tilbo.Fuse.Browse
import Tilbo.Fuse.Flicker
import Tilbo.Fuse.Inodes
import Tilbo.Fuse.Recent
import Tilbo.Fuse.Retag
import Tilbo.Fuse.RoundTrip
import Tilbo.Graph.Refinement
import Tilbo.Harvester.Epub
import Tilbo.Index.BatchTags
import Tilbo.Index.Consistency
import Tilbo.Index.InsertId
import Tilbo.Index.Migrate
import Tilbo.Index.MimeLookup
import Tilbo.Index.Purge
import Tilbo.Index.SearchFts
import Tilbo.Index.SearchMeta
import Tilbo.Index.SearchText
import Tilbo.Index.VectorSearch
import Tilbo.Ipc.Answers
import Tilbo.Ipc.Broadcast
import Tilbo.Ipc.Exchange
import Tilbo.Ipc.Shutdown
import Tilbo.Ipc.Stranded
import Tilbo.Pipeline.Merge
import Tilbo.Quickshell.LateAnswers
import Tilbo.Quickshell.SearchChips
import Tilbo.Quickshell.TagPatches
import Tilbo.Quickshell.TilboDaemon
import Tilbo.Rules.Order
import Tilbo.Rules.Registry
import Tilbo.Rules.Stored
import Tilbo.Sidecar.Reuse
import Tilbo.Sync.Converges
import Tilbo.Thumbnail.Freshness
import Tilbo.Thumbnail.SingleFlight
import Tilbo.Trash.Naming
import Tilbo.Trash.TrashInfo
import Tilbo.Watch.Coverage
import Tilbo.Watch.Debounce
import Tilbo.Watch.Inotify
import Tilbo.Watch.Mounts
import Tilbo.Watch.Policy
import Tilbo.Xattr.RoundTrip
