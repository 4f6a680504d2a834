import SDownload.Lib.Arrivals
import SDownload.Lib.Dict
import SDownload.Lib.Except
import SDownload.Lib.FileSystem
import SDownload.Lib.FirstOccurrences
import SDownload.Lib.FixedWidth
import SDownload.Lib.Inevitable
import SDownload.Lib.Interleaving
import SDownload.Lib.Intervals
import SDownload.Lib.Json
import SDownload.Lib.Layers
import SDownload.Lib.Measure
import SDownload.Lib.Numerals
import SDownload.Lib.Occurrences
import SDownload.Lib.Ownership
import SDownload.Lib.Paths
import SDownload.Lib.Registers
import SDownload.Lib.Run
import SDownload.Lib.Shift
import SDownload.Lib.Sums
import SDownload.Lib.Worklist
import SDownload.Models.Chunk
import SDownload.Models.Names
import SDownload.Models.Observers
import SDownload.Models.Stats
import SDownload.Ranges.Coverage
import SDownload.Ranges.Gaps
import SDownload.Ranges.Operations
import SDownload.Ranges.PlanMerge
import SDownload.Ranges.Planner
import SDownload.Ranges.Shortest
import SDownload.Strategies.Plans
import SDownload.Strategies.Runs
import SDownload.Strategies.Strategies
import SDownload.Storage.Assemble
import SDownload.Storage.Crop
import SDownload.Storage.Merge
import SDownload.Storage.Reconstruct
import SDownload.Manager.Assembly
import SDownload.Manager.Atomicity
import SDownload.Manager.Cleanup
import SDownload.Manager.Counting
import SDownload.Manager.Downloads
import SDownload.Manager.Endings
import SDownload.Manager.Evolution
import SDownload.Manager.Inversion
import SDownload.Manager.Links
import SDownload.Manager.Neighbours
import SDownload.Manager.Operations
import SDownload.Manager.Progress
import SDownload.Manager.Quiescence
import SDownload.Manager.Registry
import SDownload.Manager.Reports
import SDownload.Manager.Shares
import SDownload.Manager.Sharing
import SDownload.Manager.Slices
import SDownload.Manager.Splitting
import SDownload.Manager.Successions
import SDownload.Manager.Tables
import SDownload.Manager.Tasks
import SDownload.Manager.Termination
import SDownload.Manager.Waits
import SDownload.Manager.World
import SDownload.Recovery.Completion
import SDownload.Recovery.Crash
import SDownload.Recovery.Dates
import SDownload.Recovery.Directory
import SDownload.Recovery.Lives
import SDownload.Recovery.Metadata
import SDownload.Recovery.Naming
import SDownload.Recovery.Purge
import SDownload.Recovery.RecoveryDownload
import SDownload.Recovery.Resume
import SDownload.Recovery.RoundTrip
import SDownload.Recovery.Sessions
import SDownload.Recovery.Vouching
import SDownload.Throttling.FixedWindow
import SDownload.Throttling.Stream
import SDownload.Throttling.Throttler
import SDownload.Throttling.TokenBucket
import SDownload.Throttling.Transparency
import SDownload.Http.BadLinks
import SDownload.Http.Crawl
import SDownload.Http.DepthLimit
import SDownload.Http.Discovery
import SDownload.Http.Disposition
import SDownload.Http.Extractors
import SDownload.Http.FileInfo
import SDownload.Http.Keys
import SDownload.Http.Levels
import SDownload.Http.PatternFilter
import SDownload.Http.Pipeline
import SDownload.Http.Probe
