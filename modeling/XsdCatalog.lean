import XsdCatalog.Main
import XsdCatalog.Proofs.GroupReachability
import XsdCatalog.Proofs.GroupRecursion
import XsdCatalog.Proofs.Filing
import XsdCatalog.Proofs.OwnerAttributes
import XsdCatalog.Proofs.ExpansionRoutes
import XsdCatalog.Proofs.Loading
import XsdCatalog.Proofs.RegistryContents
import XsdCatalog.Proofs.Encoding
import XsdCatalog.Proofs.LineEnds
import XsdCatalog.Proofs.Spelling
import XsdCatalog.Proofs.Lexeme
import XsdCatalog.Proofs.Content
import XsdCatalog.Proofs.TreeReading
import XsdCatalog.Proofs.DocumentShape
import XsdCatalog.Proofs.Scanning
import XsdCatalog.Proofs.Seeking
import XsdCatalog.Proofs.Extraction
import XsdCatalog.Proofs.Occurrence
import XsdCatalog.Proofs.FragmentOfLocation
import XsdCatalog.Proofs.NormalSpelling
import XsdCatalog.Proofs.NormalReading
import XsdCatalog.Proofs.TagDeclarations
import XsdCatalog.Proofs.Bindings
import XsdCatalog.Proofs.FragmentTree
import XsdCatalog.Proofs.Portability
import XsdCatalog.Proofs.Components
import XsdCatalog.Proofs.Splitting
import XsdCatalog.Proofs.CacheBudget
import XsdCatalog.Proofs.LoadDiagnostics
import XsdCatalog.Proofs.UnresolvedReferences
import XsdCatalog.Proofs.Reordering
import XsdCatalog.Proofs.NameKeys
import XsdCatalog.Proofs.CacheExpiry
import XsdCatalog.Proofs.ProvidedTexts
import XsdCatalog.Proofs.MemberOrder
import XsdCatalog.Proofs.FollowedReferences
import XsdCatalog.Proofs.RelativeLocations
import XsdCatalog.Proofs.CollectedFiles
import XsdCatalog.Proofs.Recutting
import XsdCatalog.Proofs.BytePlaces
import XsdCatalog.Proofs.TagSearch
import XsdCatalog.Proofs.MatchedElement
import XsdCatalog.Proofs.InheritedDeclarations
import XsdCatalog.Proofs.CutSources
import XsdCatalog.Proofs.RelabelledComponents
import XsdCatalog.Proofs.RelabelledCatalogs
import XsdCatalog.Proofs.Qualifiers
import XsdCatalog.Proofs.ReaderPlaces
import XsdCatalog.Proofs.IgnoredNodes
import XsdCatalog.Proofs.Eviction
import XsdCatalog.Proofs.DepthFirst
import XsdCatalog.Proofs.SameLines
import XsdCatalog.Proofs.SamePieces
import XsdCatalog.Proofs.CarriageReturns
import XsdCatalog.Proofs.WrittenPieces
import XsdCatalog.Proofs.Rereading
import XsdCatalog.Proofs.TrailingDeclarations
import XsdCatalog.Proofs.FragmentsOfFragments
import XsdCatalog.Proofs.EscapedPaths
import XsdCatalog.Proofs.DuplicateWarnings
import XsdCatalog.Proofs.Lookups
import XsdCatalog.Proofs.TopLevel
import XsdCatalog.Proofs.WrittenNames
import XsdCatalog.Proofs.OpenTags
import XsdCatalog.Proofs.NameResolution
import XsdCatalog.Proofs.PercentDecoding
import XsdCatalog.Proofs.LocationKinds
import XsdCatalog.Proofs.DisplayedKeys
import XsdCatalog.Proofs.ContentTerms
import XsdCatalog.Proofs.SimpleTypeShapes
import XsdCatalog.Proofs.OccurrenceBounds
import XsdCatalog.Proofs.ChunkedReading
import XsdCatalog.Proofs.LineEndCount
