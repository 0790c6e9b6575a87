import JobProvenance.Lib.CString
import JobProvenance.Lib.Exec
import JobProvenance.Lib.System
import JobProvenance.Lib.Base64
import JobProvenance.Lib.Table
import JobProvenance.Lib.Sql
import JobProvenance.Common.Attr
import JobProvenance.Common.Schema
import JobProvenance.Common.TypePlugin
import JobProvenance.Index.Database
import JobProvenance.Primary.Backend
import JobProvenance.Primary.Tags
import JobProvenance.Primary.TagRace
import JobProvenance.Primary.Upload
import JobProvenance.Index.Query
import JobProvenance.Index.QueryParse
import JobProvenance.Index.QueryMeaning
import JobProvenance.Index.QueryExact
import JobProvenance.Index.Update
import JobProvenance.Index.UpdateRetry
import JobProvenance.Feed.Condition
import JobProvenance.Primary.Feeds
import JobProvenance.Primary.Metadata
import JobProvenance.Primary.Conditions
import JobProvenance.Lib.Batch
import JobProvenance.Primary.Sending
import JobProvenance.Primary.History
import JobProvenance.Primary.HistoryExact
import JobProvenance.Primary.Attrs
import JobProvenance.Primary.Matching
import JobProvenance.Primary.Requests
import JobProvenance.Primary.Continuous
import JobProvenance.Primary.Bulk
import JobProvenance.Index.FeedCaller
import JobProvenance.Index.FeedLock
import JobProvenance.Primary.Plugins
import JobProvenance.Primary.Spoof
import JobProvenance.Primary.Deadline
import JobProvenance.Primary.Isolation
import JobProvenance.Primary.FeedTable
import JobProvenance.Primary.Purges
import JobProvenance.Primary.MatchRace
import JobProvenance.Primary.Server
import JobProvenance.Primary.Confinement
import JobProvenance.Index.LockSearch
import JobProvenance.Index.Server
import JobProvenance.Index.FeedFlags
import JobProvenance.Index.Delivered
import JobProvenance.Index.ReconnectPolicy
import JobProvenance.Lib.SqlData
import JobProvenance.Index.Injection
import JobProvenance.Index.IndexOrder
import JobProvenance.Primary.Decisions
import JobProvenance.Primary.TagHandover
import JobProvenance.Common.DeferredQueue
import JobProvenance.Client.Fault
import JobProvenance.Client.Importer
import JobProvenance.Client.Transfer
import JobProvenance.Primary.Compression
import JobProvenance.Primary.DeferredArgs
import JobProvenance.Lib.FileTree
import JobProvenance.Primary.JobFiles
import JobProvenance.Primary.Registration
import JobProvenance.Common.AttrBuffer
import JobProvenance.Common.AttrOrder
import JobProvenance.Common.AttrParse
import JobProvenance.Index.GrowingArray
import JobProvenance.Index.StoredQueries
import JobProvenance.Lib.NullArray
import JobProvenance.Primary.FileHandles
import JobProvenance.Primary.HandleCache
import JobProvenance.Primary.NullLists
import JobProvenance.Primary.TagsRead
import JobProvenance.Primary.Deliveries
import JobProvenance.Feed.Handshake
import JobProvenance.Index.LazyInsert
import JobProvenance.Primary.Copies
import JobProvenance.Client.MessageLines
import JobProvenance.Client.UploadFiles
import JobProvenance.Index.Answers
import JobProvenance.Index.Feeding
import JobProvenance.Primary.Sandbox
import JobProvenance.Primary.SandboxArchive
import JobProvenance.Primary.SandboxContract
import JobProvenance.Primary.SandboxHandles
import JobProvenance.Index.FedAnswers
import JobProvenance.Index.ColumnWidths
import JobProvenance.Index.Admission
import JobProvenance.Primary.Authz
import JobProvenance.Index.JobsTable
import JobProvenance.Index.Options
import JobProvenance.Lib.Terminated
import JobProvenance.Primary.AttrUnion
import JobProvenance.Primary.FeedSplit
import JobProvenance.Primary.FileNames
import JobProvenance.Primary.Mkdirpath
import JobProvenance.Primary.Namespaces
import JobProvenance.Primary.Due
import JobProvenance.Primary.Gap
import JobProvenance.Primary.Pathname
import JobProvenance.Primary.Provenance
import JobProvenance.Lib.NamedFile
import JobProvenance.Primary.LogFile
import JobProvenance.Primary.LogQueue
import JobProvenance.Primary.Transfers
import JobProvenance.Primary.TagSerial
import JobProvenance.Client.Registrations
import JobProvenance.Client.Reports
import JobProvenance.Index.Startup
import JobProvenance.Index.StartRuns
import JobProvenance.Feed.EndToEnd
