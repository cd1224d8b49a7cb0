import Rulebook.Limits.Json
import Rulebook.Record.Json
import Rulebook.Proofs.PrintedForm
import Rulebook.Proofs.StoredSources
import Rulebook.Proofs.LeafScan
import Rulebook.Proofs.ChangeLog
import Rulebook.Proofs.RestoredRules
import Rulebook.Proofs.LoadedStores
import Rulebook.Proofs.EngineRuns
import Rulebook.Proofs.ReloadedRuns
import Rulebook.Proofs.CombinedRules
import Rulebook.Proofs.CombinationLimits
import Rulebook.Proofs.Reprinting
import Rulebook.Proofs.FlatScan
import Rulebook.Proofs.PayloadLayout
import Rulebook.Proofs.CanonicalTrees
import Rulebook.Proofs.DecodedLayout
import Rulebook.Proofs.CanonicalSnapshots
import Rulebook.Proofs.TextSize
import Rulebook.Proofs.TallTrees
import Rulebook.Proofs.LimitPositions
import Rulebook.Proofs.CombinationFaults
import Rulebook.Proofs.ViablePrefixes
import Rulebook.Proofs.DamagedFrames
import Rulebook.Proofs.DelimitedPayloads
import Rulebook.Proofs.ByteOrder
import Rulebook.Proofs.OrderedDoubles
import Rulebook.Proofs.OperatorLaws
import Rulebook.Proofs.MixedNumbers
import Rulebook.Proofs.LeastLimits
import Rulebook.Proofs.TableLookups
import Rulebook.Proofs.RequestFootprints
import Rulebook.Proofs.UnrelatedRequests
import Rulebook.Proofs.SoundDocuments
import Rulebook.Proofs.FinalValues
import Rulebook.Proofs.JsonRecords
import Rulebook.Proofs.CombinedTokens
