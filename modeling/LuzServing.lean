import LuzServing.Machine
import LuzServing.RowStore
import LuzServing.CandidateMaskRows
import LuzServing.Engram
import LuzServing.CandidateMaskRuns
import LuzServing.EngramHash
import LuzServing.EngramColumns
import LuzServing.EngramLayout
import LuzServing.EngramPrimes
import LuzServing.EngramRuns
import LuzServing.Fp4Bridge
import LuzServing.Fp4BridgeRows
import LuzServing.Fp4BridgeRuns
import LuzServing.LateLayerRuns
import LuzServing.Pool
import LuzServing.PoolInvariant
import LuzServing.PoolRuns
import LuzServing.RankRanges
import LuzServing.RequestWindowLayout
import LuzServing.RequestWindowRuns
import LuzServing.RowStoreCache
import LuzServing.RowStoreRuns
import LuzServing.PackEngram
import LuzServing.Fp4Agreement
import LuzServing.CandidateBlocks
import LuzServing.DenseIndexerRuns
import LuzServing.TailRelayout
import LuzServing.PairStateRuns
import LuzServing.AcceptRuns
import LuzServing.LastChunkMaskRuns
import LuzServing.FastArgmax
import LuzServing.CompressedKv
import LuzServing.TailContextParallel
import LuzServing.Tp3Pad
import LuzServing.ColumnPad
import LuzServing.TopkTransform
import LuzServing.PrefillReuse
import LuzServing.KvLayout
import LuzServing.PackedTokens
import LuzServing.PageSplit
import LuzServing.DecodePlan
import LuzServing.DecodePlanRuns
import LuzServing.ScaleRepair
import LuzServing.TokenInputs
import LuzServing.WindowBudget
import LuzServing.MoeB12x
import LuzServing.Dictionaries
import LuzServing.EngineSteps
import LuzServing.BatchMerge
import LuzServing.SharedWindow
import LuzServing.ReportTables
import LuzServing.ReleaseArtifact
import LuzServing.DecodeVariants
import LuzServing.PartialMaps
import LuzServing.SlotPages
import LuzServing.CompressedPools
import LuzServing.IndexPageTables
import LuzServing.DirectReads
import LuzServing.PersistentBuffers
import LuzServing.Regex
import LuzServing.Redaction
import LuzServing.SpecOutput
import LuzServing.PrefillRuns
import LuzServing.Retraction
import LuzServing.CheckpointOrder
import LuzServing.EngramStreamSpec
