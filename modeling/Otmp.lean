import Otmp.Basic
import Otmp.CowWriter.Freeze
import Otmp.CowWriter.Overlay
import Otmp.CowWriter.Refinement
import Otmp.CowWriter.Storage
import Otmp.DataFusion.AdapterBindings
import Otmp.DataFusion.AdapterCreate
import Otmp.DataFusion.AdapterFamilies
import Otmp.DataFusion.AdapterPlaces
import Otmp.DataFusion.AdapterRows
import Otmp.DataFusion.AdapterSpecs
import Otmp.DataFusion.Arrow
import Otmp.DataFusion.ConservativeStatistics
import Otmp.DataFusion.FooterAccounting
import Otmp.DataFusion.FooterBounds
import Otmp.DataFusion.FooterCache
import Otmp.DataFusion.FooterGrammar
import Otmp.DataFusion.FooterRuns
import Otmp.DataFusion.Meaning
import Otmp.DataFusion.Pruning
import Otmp.DataFusion.SchemaAdapter
import Otmp.DataFusion.Statistics
import Otmp.Foundation.Bytes
import Otmp.Foundation.Cbor
import Otmp.Foundation.CborReaders
import Otmp.Foundation.Chain
import Otmp.Foundation.Checked
import Otmp.Foundation.Chunks
import Otmp.Foundation.Claims
import Otmp.Foundation.CompactThrift
import Otmp.Foundation.Cursor
import Otmp.Foundation.Halving
import Otmp.Foundation.HashChain
import Otmp.Foundation.Keyed
import Otmp.Foundation.Loop
import Otmp.Foundation.Overriding
import Otmp.Foundation.Recognizers
import Otmp.Foundation.Register
import Otmp.Foundation.Run
import Otmp.Foundation.Sorting
import Otmp.Foundation.Text
import Otmp.Foundation.TextReaders
import Otmp.Foundation.TwosComplement
import Otmp.Image.Ancestry
import Otmp.Image.AppendInvariant
import Otmp.Image.Database
import Otmp.Image.Invariant
import Otmp.Image.MutationSpecs
import Otmp.Image.Mutations
import Otmp.Image.Relations
import Otmp.Image.SchemaHistory
import Otmp.Image.SchemaRows
import Otmp.Image.SchemaTables
import Otmp.Image.Schemas
import Otmp.Image.Storable
import Otmp.Image.StoredSchemas
import Otmp.Protocol.CanonicalText
import Otmp.Protocol.CheckpointIndex
import Otmp.Protocol.Commits
import Otmp.Protocol.Generations
import Otmp.Protocol.JsonText
import Otmp.Protocol.Locations
import Otmp.Protocol.Members
import Otmp.Protocol.NodeCodecs
import Otmp.Protocol.NodeReaders
import Otmp.Protocol.ObjectCodecs
import Otmp.Protocol.Objects
import Otmp.Protocol.OneEncoding
import Otmp.Protocol.PageMap
import Otmp.Protocol.PageMapDecode
import Otmp.Protocol.PageMapNodes
import Otmp.Protocol.PagePack
import Otmp.Protocol.PagePackRoundTrip
import Otmp.Protocol.PagePackSafety
import Otmp.Protocol.Records
import Otmp.Protocol.References
import Otmp.Protocol.ScalarCbor
import Otmp.Protocol.ScalarDecode
import Otmp.Protocol.ScalarOrder
import Otmp.Protocol.ScalarSpelling
import Otmp.Protocol.SchemaEquality
import Otmp.Protocol.SchemaFacts
import Otmp.Protocol.SchemaJson
import Otmp.Protocol.SchemaValidate
import Otmp.Protocol.TypedScalar
import Otmp.Protocol.Types
import Otmp.Protocol.Value
import Otmp.Protocol.WrittenForms
import Otmp.Reader.Cache
import Otmp.Reader.CacheInvariant
import Otmp.Reader.CacheRuns
import Otmp.Reader.Schema
import Otmp.Reader.SchemaAgreement
import Otmp.Reader.SchemaReadBack
import Otmp.Runtime.AdditiveEvolution
import Otmp.Runtime.AdditiveSchemas
import Otmp.Runtime.AncestryWalks
import Otmp.Runtime.Append
import Otmp.Runtime.CheckpointIndexBuild
import Otmp.Runtime.CheckpointIndexComplete
import Otmp.Runtime.CheckpointIndexPaths
import Otmp.Runtime.CheckpointIndexTree
import Otmp.Runtime.ExactlyOnce
import Otmp.Runtime.FieldIdentity
import Otmp.Runtime.HeadStore
import Otmp.Runtime.History
import Otmp.Runtime.HistoryRuns
import Otmp.Runtime.IncrementalImages
import Otmp.Runtime.Initialization
import Otmp.Runtime.Intents
import Otmp.Runtime.PageTree
import Otmp.Runtime.PageTreeEnds
import Otmp.Runtime.PageTreeImages
import Otmp.Runtime.PageTreeLaw
import Otmp.Runtime.PageTreeLoad
import Otmp.Runtime.PageTreePersist
import Otmp.Runtime.PageTreeRuns
import Otmp.Runtime.PageTreeShape
import Otmp.Runtime.PageTreeUpdate
import Otmp.Runtime.PinnedHeads
import Otmp.Runtime.Publication
import Otmp.Runtime.PublicationRuns
import Otmp.Runtime.PublicationSafety
import Otmp.Runtime.Rebase
import Otmp.Runtime.Requests
import Otmp.Runtime.Results
import Otmp.Runtime.Retained
import Otmp.Runtime.Retries
import Otmp.Runtime.SchemaRuns
import Otmp.Runtime.Staging
import Otmp.Runtime.StagingCleanup
import Otmp.Runtime.StateHash
import Otmp.Runtime.StoredWalks
import Otmp.Runtime.TransactionInvariant
import Otmp.Runtime.Transactions
