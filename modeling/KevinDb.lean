import KevinDb.Compaction.Updates
import KevinDb.Compaction.Preservation
import KevinDb.Compaction.Deletion
import KevinDb.Compaction.Replay
import KevinDb.Compaction.Visibility
import KevinDb.Query.Live
import KevinDb.Ingest.Partition
import KevinDb.Ingest.Idempotency
import KevinDb.Ingest.Isolation
import KevinDb.Query.RootFilter
import KevinDb.Query.Cleanup
import KevinDb.Query.CoalescedReads
import KevinDb.Query.FilterSplit
import KevinDb.Query.FilterHole
import KevinDb.Query.FilterNegation
import KevinDb.Query.FilterNumbers
import KevinDb.Query.FilterSubstring
import KevinDb.Compaction.Lease
import KevinDb.Server.Projects
import KevinDb.Query.Distributed
import KevinDb.Query.Paging
import KevinDb.Server.DirectRuns
import KevinDb.Feedback.Convergence
import KevinDb.Aggregate.Refresh
import KevinDb.Aggregate.Cells
import KevinDb.Lib.Utf8
import KevinDb.Query.FilterParser
import KevinDb.Query.TreeFilterWrap
import KevinDb.Query.FilterText
import KevinDb.Lib.NestedSet
import KevinDb.Query.TreeModes
import KevinDb.Query.TreeInverse
import KevinDb.Server.CacheRaces
import KevinDb.Server.StructuredTranslation
import KevinDb.Thread.Totals
import KevinDb.Aggregate.Buckets
import KevinDb.Aggregate.Sums
import KevinDb.Aggregate.Counting
import KevinDb.Server.Times
import KevinDb.Thread.Pages
import KevinDb.Query.Orphans
import KevinDb.Search.Lists
import KevinDb.Search.Rejection
import KevinDb.Search.RowGroups
import KevinDb.Lib.Glob
import KevinDb.Lib.Lines
import KevinDb.Lib.Utf8Bytes
import KevinDb.Query.SearchDictionaries
import KevinDb.Query.SearchListed
