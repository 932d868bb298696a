import Gfm.Jobs.FairGaps
import Gfm.Jobs.LedgerPruning
import Gfm.Jobs.FailurePaths
import Gfm.Jobs.Cancellation
import Gfm.Jobs.DrainFates
import Gfm.Jobs.IsolatedRuns
import Gfm.Search.Proximities
import Gfm.Search.DateFilters
import Gfm.Search.Quoting
import Gfm.Jobs.Retries
import Gfm.Store.ContentMaintenance
import Gfm.Ops.ByteVerification
import Gfm.Ops.SparseCopy
import Gfm.Index.ContentIndexing
import Gfm.Search.EditBound
import Gfm.TornAppend
import Gfm.Store.PromotionSafety
import Gfm.Store.RecordLookup
import Gfm.Store.BatchAgreement
import Gfm.Store.SegmentRoundTrip
import Gfm.Store.ContentPanics
import Gfm.Search.DeepGateExact
import Gfm.Index.PersistentRecovery
import Gfm.Index.EventOrder
import Gfm.Index.QueueFairness
import Gfm.Store.ManifestConvergence
import Gfm.Ops.RetryLimit
import Gfm.Ops.TrashRoundTrip
import Gfm.MetadataUpdates
import Gfm.Store.Durable
import Gfm.Store.DictionaryLookup
import Gfm.Store.PrefixLookup
import Gfm.Store.SubstringLookup
import Gfm.Store.MetadataLookup
import Gfm.Store.ColumnsLookup
import Gfm.Preview.Scheduling
import Gfm.Search.CacheKey
import Gfm.Search.UpdatedContent
import Gfm.Index.SessionCaches
import Gfm.Index.RepairSchedule
import Gfm.Index.StateFiles
import Gfm.Content.CsvTables
import Gfm.Content.JsonDocuments
import Gfm.Content.QuarantineFile
import Gfm.Content.TarSafety
import Gfm.Content.PdfText
import Gfm.Content.PdfDictionaries
import Gfm.Content.OfficeBudget
import Gfm.Content.Snippets
import Gfm.Index.LiveSharded
import Gfm.Content.Mime
import Gfm.Content.Transfer
import Gfm.Index.LiveRecords
