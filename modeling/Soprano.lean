import Soprano.Library.Calendar
import Soprano.Library.Codec
import Soprano.Library.Base64
import Soprano.Library.Escape
import Soprano.Qt.Text
import Soprano.Qt.Url
import Soprano.Qt.DateTime
import Soprano.DateTime
import Soprano.Qt.Variant
import Soprano.Vocabulary
import Soprano.LiteralValue
import Soprano.Node
import Soprano.DBus
import Soprano.Error
import Soprano.DataStream
import Soprano.N3
import Soprano.N3NodeParser
import Soprano.NQuadSerializer
import Soprano.NQuadParser
import Soprano.Server.Commands
import Soprano.Server.ServerConnection
import Soprano.Client.ClientConnection
import Soprano.Session
import Soprano.Library.Saturation
import Soprano.Qt.Arg
import Soprano.Inference.Rule
import Soprano.Inference.Sparql
import Soprano.Inference.ParentModel
import Soprano.Library.Sharing
import Soprano.BindingSet
import Soprano.Framing
import Soprano.Server.IteratorTables
import Soprano.Client.ClientModel
import Soprano.Client.OpenIterators
import Soprano.Library.Runs
import Soprano.Server.ServerCore
import Soprano.Server.ModelPool
import Soprano.Server.DBusServerAdaptor
import Soprano.DBusError
import Soprano.Server.DBusModelAdaptor
import Soprano.Client.DBusModel
import Soprano.Util.AsyncModel
import Soprano.Util.AsyncIterators
import Soprano.Util.AsyncIteratorBackend
import Soprano.Inference.InferenceModel
import Soprano.Inference.Instances
import Soprano.Inference.Additions
import Soprano.Inference.Engine
import Soprano.Inference.Closure
import Soprano.Inference.Clearing
import Soprano.Util.AsyncIteratorClose
import Soprano.Util.ExtReadWriteLock
import Soprano.Util.MutexModel
import Soprano.Util.MutexIterators
import Soprano.LiteralData
import Soprano.Equality
import Soprano.Inference.RuleSet
import Soprano.Inference.Termination
import Soprano.Library.View
import Soprano.Index.Document
import Soprano.Index.CLuceneIndex
import Soprano.Index.IndexFilterModel
import Soprano.Virtuoso.Odbc
import Soprano.Virtuoso.QueryResult
import Soprano.Virtuoso.QueryResultIteratorBackend
import Soprano.Virtuoso.VirtuosoModel
import Soprano.Virtuoso.Errors
import Soprano.Virtuoso.DefaultGraph
import Soprano.Qt.Set
import Soprano.Graph
import Soprano.Util.AsyncQuery
import Soprano.Util.AsyncQueryClose
import Soprano.Library.Holder
import Soprano.Redland.MultiMutex
import Soprano.Util.AsyncIteratorError
import Soprano.NQuadOffsets
import Soprano.NQuadDocument
import Soprano.Inference.Removal
import Soprano.Inference.Sources
import Soprano.Inference.Bookkeeping
import Soprano.Virtuoso.SameQuad
import Soprano.Util.SignalCacheModel
import Soprano.Iterator
import Soprano.GraphIterator
import Soprano.NRLModel
import Soprano.NRLCardinality
import Soprano.NRLGraphs
import Soprano.DateTimeOffset
import Soprano.Inference.GraphPattern
import Soprano.Library.Embedding
import Soprano.LanguageTag
import Soprano.Redland.RedlandQueryResult
import Soprano.Redland.OpenIterators
import Soprano.Redland.RedlandModel
import Soprano.Server.DBusExport
import Soprano.Client.SocketStream
import Soprano.Library.Cascade
import Soprano.Inference.RemovedGraphs
import Soprano.Inference.PerfectUpdate
import Soprano.Library.Selection
import Soprano.SparqlText
import Soprano.PrefixExpansion
import Soprano.N3Token
import Soprano.LiteralVariant
import Soprano.Index.IndexQuery
import Soprano.Index.RebuildIndex
import Soprano.Index.TextField
import Soprano.Library.Template
import Soprano.Virtuoso.Placeholders
import Soprano.Virtuoso.ConnectionThreads
import Soprano.Virtuoso.ConnectionLives
import Soprano.Virtuoso.ConnectionPool
import Soprano.Library.Loop
import Soprano.Server.ServerDataStream
import Soprano.LanguageTagValidity
import Soprano.Raptor.Serializer
import Soprano.Raptor.Parser
import Soprano.Library.Separated
import Soprano.Virtuoso.VersionGates
import Soprano.Library.Memory
import Soprano.Virtuoso.CharData
import Soprano.Virtuoso.RdfBox
import Soprano.Tools.Onto2VocabularyClass
import Soprano.Client.SparqlEndpoint
import Soprano.Client.SparqlModel
import Soprano.Client.SparqlSelection
import Soprano.Inference.OptimizedQueries
import Soprano.Server.LockFile
import Soprano.Virtuoso.VirtuosoController
import Soprano.Library.Pattern
import Soprano.Virtuoso.BulkRemoval
import Soprano.Library.Regex
import Soprano.Inference.RuleParser
import Soprano.Inference.RuleTerms
import Soprano.Inference.RuleLines
import Soprano.Inference.RuleFile
