import Birdai.Base.CheckedWords
import Birdai.Base.Outcomes
import Birdai.Base.BoundedLoop
import Birdai.Base.BinaryProducts
import Birdai.Base.OrderedKeys
import Birdai.Base.BandSums
import Birdai.Base.KeyedFolds
import Birdai.Base.ByteCodecs
import Birdai.Base.Words
import Birdai.Base.PowerFloors
import Birdai.Base.PrefixCodes
import Birdai.Base.NamedFields
import Birdai.Base.PagedReads
import Birdai.Base.VersionMaps
import Birdai.Base.Asking
import Birdai.Base.JoinSets
import Birdai.Base.Cursors
import Birdai.Base.LabelledRuns
import Birdai.Base.AtomicWrites
import Birdai.Base.Tallies
import Birdai.Base.BlockScans
import Birdai.Amm.WideArith
import Birdai.Amm.SwapExactIn
import Birdai.Amm.PricingSpecs
import Birdai.Amm.StepRounding
import Birdai.Amm.WalkShape
import Birdai.Amm.StepOrder
import Birdai.Amm.LargerSwap
import Birdai.Amm.PricingDomain
import Birdai.Amm.RangeLadder
import Birdai.Amm.StepBands
import Birdai.Amm.TickMath
import Birdai.Amm.TickInverse
import Birdai.Amm.TickAccuracy
import Birdai.Amm.FeeRounding
import Birdai.Amm.ClosedForms
import Birdai.Amm.WideExpressions
import Birdai.Tick.TickIndex
import Birdai.Tick.TickBook
import Birdai.Tick.TickHistory
import Birdai.Tick.SkipLinks
import Birdai.Tick.FloorPrices
import Birdai.Venue.CetusPool
import Birdai.Venue.Priceable
import Birdai.Move.MoveTypes
import Birdai.Move.Signatures
import Birdai.Venue.AnyVenue
import Birdai.Quote.BookTraversal
import Birdai.Quote.HiddenBook
import Birdai.Quote.RoundTrip
import Birdai.Quote.RangeShortcut
import Birdai.Quote.TickLocality
import Birdai.Quote.QuoteErrors
import Birdai.Quote.ThinRanges
import Birdai.Quote.SwapRuns
import Birdai.Quote.Solvency
import Birdai.Quote.ExecutionPrice
import Birdai.Resolve.PackageVersions
import Birdai.Venue.OracleNames
import Birdai.Venue.SwapShape
import Birdai.Venue.Verdict
import Birdai.Venue.StaticScans
import Birdai.Resolve.LayoutRegistry
import Birdai.Resolve.Eviction
import Birdai.Resolve.Fingerprint
import Birdai.Resolve.PlainLayouts
import Birdai.Resolve.PackageStore
import Birdai.Resolve.Capture
import Birdai.State.Manager
import Birdai.Venue.Classification
import Birdai.Quote.EndogenousRuns
import Birdai.Resolve.PackageLineage
import Birdai.State.PhaseSpecs
import Birdai.State.OrderedFold
import Birdai.State.Replay
import Birdai.State.Accounting
import Birdai.State.ChildIndex
import Birdai.State.TickRace
import Birdai.Move.FieldVisitor
import Birdai.Move.ValueBytes
import Birdai.Move.Drivers
import Birdai.Move.Dump
import Birdai.Move.DumpRuns
import Birdai.Move.DumpReplay
import Birdai.Move.DumpSpans
import Birdai.Move.WireValues
import Birdai.Move.DumpValues
import Birdai.Tick.NodeDecoders
import Birdai.Quote.GridTicks
import Birdai.Venue.PoolDecoder
import Birdai.Venue.VenueDecoders
import Birdai.Tick.PagedNodes
import Birdai.Tick.Snapshots
import Birdai.Resolve.FixtureSet
import Birdai.Resolve.FixtureFiles
import Birdai.Resolve.OfflineChildren
import Birdai.Resolve.OfflineTicks
import Birdai.Resolve.OfflineSession
import Birdai.Resolve.OfflineLayouts
import Birdai.Resolve.CapturedLayouts
import Birdai.Resolve.RecordedReads
import Birdai.Resolve.TwoCaches
import Birdai.Resolve.ObjectFetch
import Birdai.Resolve.Endpoints
import Birdai.State.CapturedRuns
import Birdai.State.LiveFollow
