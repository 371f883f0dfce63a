import CertLedger.TlvCodec
import CertLedger.FallibleState
import CertLedger.CallTraces
import CertLedger.FrontierSearch
import CertLedger.OrderedContainers
import CertLedger.EndorsementDag
import CertLedger.NdnObjects
import CertLedger.RecordCodec
import CertLedger.EdgeStateCodec
import CertLedger.LedgerIndexCodec
import CertLedger.InterlockPolicies
import CertLedger.DagEngine
import CertLedger.DagStates
import CertLedger.DagHarvest
import CertLedger.DagRefinement
import CertLedger.DagRuns
import CertLedger.EndorsementRuns
import CertLedger.DagEffects
import CertLedger.DagAncestors
import CertLedger.StorageCalls
import CertLedger.LedgerLevelDB
import CertLedger.HarvestRuns
import CertLedger.TrackerRuns
import CertLedger.AppendRuns
import CertLedger.LedgerNetwork
import CertLedger.NetworkRuns
import CertLedger.DagRestart
import CertLedger.LedgerQueries
import CertLedger.ReplyRuns
import CertLedger.PayloadRuns
import CertLedger.AppendLedger
import CertLedger.EventRuns
import CertLedger.BroadcastNetwork
import CertLedger.SegmentRuns
import CertLedger.AppendVerdicts
import CertLedger.AppendRetries
import CertLedger.CheckerOrigins
import CertLedger.CheckerVerdicts
import CertLedger.QueryAnswers
import CertLedger.PipelineRuns
import CertLedger.PipelineProgress
import CertLedger.PayloadIndex
import CertLedger.AppendNetwork
import CertLedger.AttestedAnswers
import CertLedger.CheckOutcomes
