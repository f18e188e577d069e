import RagflowMineru.Agent.IterationEntry
import RagflowMineru.Agent.Canvas.Readiness
import RagflowMineru.Agent.Canvas.Events
import RagflowMineru.Agent.Canvas.Resume
import RagflowMineru.Agent.Canvas.IterationBody
import RagflowMineru.Flow.Pipeline
import RagflowMineru.Chat.ThinkLossless
import RagflowMineru.Search.Totals
import RagflowMineru.Library.Driven
import RagflowMineru.Library.Expiring
import RagflowMineru.GraphRag.Caches
import RagflowMineru.GraphRag.CacheRuns
import RagflowMineru.Document.Counters
import RagflowMineru.Search.MetaFilter
import RagflowMineru.Sandbox.ContainerPool
import RagflowMineru.Sandbox.PythonSyntax
import RagflowMineru.Sandbox.SecurityAnalyzer
import RagflowMineru.Memories.Messages
import RagflowMineru.Memories.Saving
import RagflowMineru.Memories.SizeCache
import RagflowMineru.Memories.MessageIds
import RagflowMineru.Library.Processes
import RagflowMineru.GraphRag.TaskLock
import RagflowMineru.Redis.Requeue
import RagflowMineru.Redis.SecretKey
import RagflowMineru.Redis.TokenBucket
import RagflowMineru.Document.ChunkStore
import RagflowMineru.GraphRag.BatchMerge
import RagflowMineru.Raptor.Layers
import RagflowMineru.Raptor.Storing
import RagflowMineru.Document.TaskProgress
import RagflowMineru.Search.TokenMerge
import RagflowMineru.Library.Lru
import RagflowMineru.Search.EmbeddingLru
import RagflowMineru.Search.HybridSimilarity
import RagflowMineru.MinerU.ContentList
import RagflowMineru.MinerU.Sections
import RagflowMineru.GraphRag.MergeNodes
import RagflowMineru.GraphRag.Rebuild
import RagflowMineru.GraphRag.Mirror
import RagflowMineru.Library.Html
import RagflowMineru.MinerU.Otsl
import RagflowMineru.Cli.Lexer
import RagflowMineru.Cli.Parser
import RagflowMineru.Cli.Grammar
import RagflowMineru.Cli.Reading
import RagflowMineru.Cli.Forms
import RagflowMineru.Cli.Acceptance
import RagflowMineru.Analyzer.Tokenizer
import RagflowMineru.Analyzer.Modes
import RagflowMineru.Library.Substitute
import RagflowMineru.Agent.StringFormat
import RagflowMineru.Agent.Switch
import RagflowMineru.Library.Buckets
import RagflowMineru.MinerU.SpanChars
import RagflowMineru.Library.FileTree
import RagflowMineru.MinerU.ZipExtract
import RagflowMineru.Library.Absorb
import RagflowMineru.MinerU.Boxes
import RagflowMineru.MinerU.Overlaps
import RagflowMineru.Library.Placement
import RagflowMineru.MinerU.TieUp
import RagflowMineru.MinerU.TwoLayer
import RagflowMineru.Library.Gathering
import RagflowMineru.MinerU.ParaBlocks
import RagflowMineru.MinerU.ParaSplit
import RagflowMineru.Library.Scanning
import RagflowMineru.Agent.MessageText
import RagflowMineru.Library.Scatter
import RagflowMineru.MinerU.BatchAnalyze
import RagflowMineru.Library.GridFill
import RagflowMineru.MinerU.TableMerge
import RagflowMineru.Agent.ListOperations
import RagflowMineru.Agent.References
import RagflowMineru.Library.Outline
import RagflowMineru.Nlp.Bullets
import RagflowMineru.Nlp.TreeMerge
import RagflowMineru.Library.SinglePop
import RagflowMineru.Nlp.HierarchicalMerge
import RagflowMineru.Nlp.Delimiters
import RagflowMineru.Nlp.NaiveMerge
import RagflowMineru.Nlp.ImageMerge
import RagflowMineru.Nlp.BuildCks
import RagflowMineru.Nlp.MediaContext
import RagflowMineru.Nlp.TableContext
import RagflowMineru.Flow.Headings
import RagflowMineru.Search.Citations
import RagflowMineru.Flow.HeadingPaths
import RagflowMineru.Nlp.ChildChunks
import RagflowMineru.Library.Carrying
import RagflowMineru.Search.MetaValues
import RagflowMineru.Document.TaskPages
import RagflowMineru.Document.MetadataUpdate
import RagflowMineru.Agent.DataOperations
import RagflowMineru.Library.Leaders
import RagflowMineru.Library.Offers
import RagflowMineru.Analyzer.BestTokens
import RagflowMineru.MinerU.Intervals
import RagflowMineru.Analyzer.Packing
import RagflowMineru.Library.Pruning
import RagflowMineru.MinerU.SpanOverlaps
import RagflowMineru.Library.Tracking
import RagflowMineru.MinerU.HighIouTables
import RagflowMineru.MinerU.TieUpDistance
import RagflowMineru.MinerU.OtslErrors
import RagflowMineru.MinerU.OtslShape
import RagflowMineru.Analyzer.Segmentation
import RagflowMineru.Library.Alignment
import RagflowMineru.Analyzer.Lossless
import RagflowMineru.Analyzer.FinePositions
import RagflowMineru.MinerU.PageRanges
import RagflowMineru.Deepdoc.ExcelRows
import RagflowMineru.Deepdoc.PositionTags
import RagflowMineru.Deepdoc.RotatedTables
import RagflowMineru.Deepdoc.HtmlBlocks
import RagflowMineru.Library.Runs
import RagflowMineru.MinerU.XyCut
import RagflowMineru.Deepdoc.MarkdownElements
import RagflowMineru.Library.Nested
import RagflowMineru.Deepdoc.JsonSplit
import RagflowMineru.Chat.KbPrompt
import RagflowMineru.Chat.MessageFitIn
import RagflowMineru.Chat.CitationRepair
import RagflowMineru.Deepdoc.FindOverlapped
import RagflowMineru.Deepdoc.TextMerge
import RagflowMineru.Library.Grouping
import RagflowMineru.Deepdoc.TableFigures
import RagflowMineru.Deepdoc.ForPages
import RagflowMineru.Deepdoc.CropPositions
import RagflowMineru.Library.ConsumerGroup
import RagflowMineru.Redis.TaskQueue
import RagflowMineru.Redis.TaskCustody
import RagflowMineru.Analyzer.Pool
import RagflowMineru.Analyzer.PoolRuns
import RagflowMineru.Library.Retrying
import RagflowMineru.Chat.ToolLoop
import RagflowMineru.Chat.ToolRuns
import RagflowMineru.Library.CellGrid
import RagflowMineru.Deepdoc.TableGrid
import RagflowMineru.Deepdoc.TableSpans
import RagflowMineru.Deepdoc.TableText
import RagflowMineru.Connector.SyncLogs
import RagflowMineru.Connector.SyncRuns
import RagflowMineru.Connector.SyncRecovery
import RagflowMineru.Analyzer.CoarseSpans
