import Cheshire.Config.AttributeMaps
import Cheshire.Config.ClassTreeShape
import Cheshire.Config.ContinuationCache
import Cheshire.FileIo.RecordHistory
import Cheshire.Index.ClassNumbers
import Cheshire.Index.ClusterLines
import Cheshire.Index.ComponentRemoval
import Cheshire.Index.DiacriticsBounds
import Cheshire.Index.GlobalCounters
import Cheshire.Index.KeywordReadings
import Cheshire.Index.LoaderAgreement
import Cheshire.Index.PrimaryPolicy
import Cheshire.Index.ProximityPositions
import Cheshire.Index.TagLists
import Cheshire.Index.VectorIndex
import Cheshire.Index.YearRanges
import Cheshire.Lists.ListCalls
import Cheshire.Marc.ConvMarcUnicode
import Cheshire.Marc.ReadMarc2
import Cheshire.Marc.TransHistory
import Cheshire.Search.BitmapAgreement
import Cheshire.Search.ComponentMinmax
import Cheshire.Search.ComponentWeights
import Cheshire.Search.DateRanges
import Cheshire.Search.DbmsTranslation
import Cheshire.Search.DocidSearch
import Cheshire.Search.MergeLocality
import Cheshire.Search.MergeSymmetry
import Cheshire.Search.NgramResults
import Cheshire.Search.PageMapping
import Cheshire.Search.PageMergeBest
import Cheshire.Search.PhraseMatch
import Cheshire.Search.PivotNormalisation
import Cheshire.Search.ProximityLevels
import Cheshire.Search.ResultStoreHistory
import Cheshire.Search.ResultSubset
import Cheshire.Srw.ConversionIndependence
import Cheshire.Srw.CqlTokens
import Cheshire.Srw.ResultSetNames
import Cheshire.Srw.XcqlRoundTrip
import Cheshire.Utils.FlatRoundTrip
import Cheshire.Zpdu.AsnNodes
import Cheshire.Zpdu.FaithfulCopies
import Cheshire.Zserver.BitmapPresents
import Cheshire.Zserver.ClientConnection
import Cheshire.Zserver.DeleteHistories
import Cheshire.Zserver.IndexScan
import Cheshire.Zserver.SearchSessions
import Cheshire.Zserver.SortResults
