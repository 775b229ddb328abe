import Llmx.Runs
import Llmx.RingLayout
import Llmx.Stretches
import Llmx.Worklist
import Llmx.LogitRows
import Llmx.PassRounds
import Llmx.PassOrder
import Llmx.PassOvertaking
import Llmx.RoomPlan
import Llmx.RoomSound
import Llmx.BlockPool
import Llmx.KVSequence
import Llmx.KVTables
import Llmx.KVOwnership
import Llmx.SpecAccept
import Llmx.HistoryDigests
import Llmx.DigestRows
import Llmx.DiskIndex
import Llmx.DiskPath
import Llmx.DiskWrites
import Llmx.DiskEviction
import Llmx.Layered
import Llmx.LayerSplit
import Llmx.LayerPlan
import Llmx.LayerSearch
import Llmx.LayerChecks
import Llmx.Tiling
import Llmx.ShardParts
import Llmx.ShardTensors
import Llmx.ShardCopies
import Llmx.ShardPack
import Llmx.ShardOwners
import Llmx.ShardMembers
import Llmx.Contest
import Llmx.ReuseQuestion
import Llmx.ReuseWorld
import Llmx.ReuseAnswers
import Llmx.Ledger
import Llmx.LedgerRoom
import Llmx.LedgerPause
import Llmx.LedgerGrowth
import Llmx.LedgerRounds
import Llmx.LedgerSafe
import Llmx.SlotPool
import Llmx.StateHolds
import Llmx.SlotWorld
import Llmx.SlotRuns
import Llmx.SlotSafe
import Llmx.Tags
import Llmx.ReplySplit
import Llmx.ReplyStreams
import Llmx.Utf8
import Llmx.JsonParser
import Llmx.JsonGrammar
import Llmx.JsonStrings
import Llmx.JsonNumbers
import Llmx.JsonAccepts
import Llmx.JsonExact
import Llmx.ReadRing
import Llmx.ReadRingSafe
import Llmx.ReadRingRuns
import Llmx.HttpRequest
import Llmx.HttpArrival
import Llmx.Triples
import Llmx.UpperBound
import Llmx.Concats
import Llmx.GgufReader
import Llmx.GgufFiles
import Llmx.GgufWriter
import Llmx.GgufSafe
import Llmx.GgufSpans
import Llmx.GgufYields
import Llmx.GgufRoundTrip
import Llmx.GgufWritten
import Llmx.GgufJoined
import Llmx.BitLists
import Llmx.CanonicalCodes
import Llmx.Inflate
import Llmx.InflateHuffman
import Llmx.Deflate
import Llmx.InflateTables
import Llmx.InflateBlocks
import Llmx.InflateUndoes
import Llmx.JobThreads
import Llmx.JobSafe
import Llmx.OpenIndex
import Llmx.HotRowsIndex
import Llmx.HotRowsSafe
import Llmx.HotRowsRuns
import Llmx.ShaStream
import Llmx.HubManifest
import Llmx.HubPull
import Llmx.HubNames
import Llmx.HubPullDisk
import Llmx.HubPullSafe
import Llmx.HubPullRuns
import Llmx.HostTier
import Llmx.HostLedger
import Llmx.WriteBackPlan
import Llmx.HostOps
import Llmx.HostRuns
import Llmx.ShardWindows
import Llmx.DiskHeader
import Llmx.RowArgmax
import Llmx.MessageEndRuns
import Llmx.FirstKept
import Llmx.CutRows
import Llmx.RoomMinimal
import Llmx.PromptSliceBest
import Llmx.ChunkSearch
import Llmx.RankingRuns
import Llmx.PngImage
import Llmx.DiskRoomKept
import Llmx.LayerShares
import Llmx.CopySlabs
import Llmx.PromptLookup
import Llmx.AdmitWaiting
import Llmx.TemplateInts
import Llmx.TemplateSlices
import Llmx.BytePairs
import Llmx.CutInside
import Llmx.GrowthPauses
import Llmx.Tally
import Llmx.KVBudget
import Llmx.FreedSlots
import Llmx.Freed
import Llmx.ToolCallSplit
import Llmx.ToolCallReader
import Llmx.ToolCallOpenings
import Llmx.ToolCallStreams
import Llmx.ReplyText
import Llmx.ToolCallQuotes
import Llmx.ToolCallObjects
import Llmx.ToolCallCuts
import Llmx.ToolCallReading
import Llmx.ToolCallReplies
import Llmx.ToolCallGivenUp
import Llmx.TemplateJson
import Llmx.TemplateText
import Llmx.TemplateGrammar
import Llmx.TemplateRoundTrip
import Llmx.TemplateWritten
import Llmx.StopTexts
import Llmx.StopTrim
import Llmx.Fips180
import Llmx.ShaStandard
import Llmx.ShaRuns
import Llmx.HttpFraming
import Llmx.InflateChecked
import Llmx.InflateSafe
import Llmx.InflateLimits
import Llmx.PngText
import Llmx.OrderedRegex
import Llmx.QwenPieces
import Llmx.JoyaiPieces
import Llmx.StreamedRead
import Llmx.StreamedFiles
import Llmx.StreamedDefers
import Llmx.HotRowsListed
import Llmx.LookupRows
import Llmx.LookupSpans
import Llmx.LookupRowsSafe
import Llmx.ShaVectors
import Llmx.ShaExtensions
import Llmx.AlignedReads
import Llmx.TopLogprobs
import Llmx.HubSelect
import Llmx.KVRows
import Llmx.KVHistories
import Llmx.Rounding
import Llmx.HalfFloats
import Llmx.SmallFloats
import Llmx.ByteLetters
import Llmx.Tokenizer
import Llmx.CyclicChecks
import Llmx.StoreRuns
import Llmx.DiskEntry
import Llmx.DiskJobs
import Llmx.DiskJobsLined
import Llmx.DiskJobsKept
import Llmx.DiskEvicts
import Llmx.DiskStops
