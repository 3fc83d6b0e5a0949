import WebSpider.Text.Decimal
import WebSpider.Bits.Hamming
import WebSpider.Effects.Program
import WebSpider.Effects.Run
import WebSpider.Json.Value
import WebSpider.Json.Loads
import WebSpider.Json.Scanner
import WebSpider.Json.Decoder
import WebSpider.Json.Dumps
import WebSpider.Processor.World
import WebSpider.Processor.Dedupe
import WebSpider.Processor.Neardup
import WebSpider.Processor.Batch
import WebSpider.Processor.Phases
import WebSpider.Processor.BatchSpec
import WebSpider.Processor.System
import WebSpider.Processor.SelfDuplicate
import WebSpider.Processor.DeadLetter
import WebSpider.Processor.Replay
import WebSpider.Processor.Progress
import WebSpider.Processor.Separation
import WebSpider.Processor.Pool
import WebSpider.Crawler.Time
import WebSpider.Crawler.Stream
import WebSpider.Crawler.Scheduler
import WebSpider.Crawler.Cursor
import WebSpider.Text.Lines
import WebSpider.Vectors.Chunker
import WebSpider.Vectors.Export
import WebSpider.Json.Lexical
import WebSpider.Json.Lines
import WebSpider.Vectors.ChunkFile
import WebSpider.Vectors.Embed
import WebSpider.Vectors.Join
import WebSpider.Text.Csv
import WebSpider.Vectors.ArrayLiteral
import WebSpider.Vectors.Import
import WebSpider.Vectors.BulkLoad
import WebSpider.Vectors.Sync
import WebSpider.Fetcher.TokenBucket
import WebSpider.Sft.Pairs
import WebSpider.Crawler.Workers
import WebSpider.Crawler.Ledger
import WebSpider.Crawler.Heartbeat
import WebSpider.Crawler.Channels
import WebSpider.Crawler.Coverage
import WebSpider.Crawler.FiniteSource
import WebSpider.Processor.Ghosts
import WebSpider.Processor.Orphans
import WebSpider.Vectors.Provenance
import WebSpider.Text.Paragraphs
import WebSpider.Vectors.Grouping
import WebSpider.Vectors.Sections
import WebSpider.Vectors.CodeBlocks
import WebSpider.Crawler.Refinement
import WebSpider.Dashboard.Throttle
import WebSpider.Fetcher.RateBound
import WebSpider.Lists.Outline
import WebSpider.Vectors.HeadingPath
import WebSpider.Text.PaddedOrder
import WebSpider.Crawler.TimeOrder
import WebSpider.Crawler.LatestCursor
import WebSpider.Processor.ReplayLoop
import WebSpider.Backup.Retention
import WebSpider.Effects.Retry
import WebSpider.Sources.Source
import WebSpider.Sources.DevTo
import WebSpider.Sources.StackExchange
import WebSpider.Effects.Process
import WebSpider.Fetcher.FetchOne
import WebSpider.Fetcher.FetchMany
import WebSpider.Pipeline.Delivery
import WebSpider.Bits.Majority
import WebSpider.Processor.Stability
import WebSpider.Processor.Banding
import WebSpider.Vectors.LoadedArrays
import WebSpider.Vectors.Ranges
import WebSpider.Lists.InOrder
import WebSpider.Vectors.Coverage
import WebSpider.Lists.Amounts
import WebSpider.Processor.Accounting
import WebSpider.Processor.Counters
import WebSpider.Embedder.Request
import WebSpider.Embedder.Run
import WebSpider.Embedder.Alignment
import WebSpider.Embedder.Streak
import WebSpider.Embedder.Refinement
import WebSpider.Quality.CodeSpans
import WebSpider.Quality.CodeCount
import WebSpider.Html.References
import WebSpider.Html.Tokenizer
import WebSpider.Dashboard.Markup
import WebSpider.Floats.Arithmetic
import WebSpider.Floats.Literals
import WebSpider.Fetcher.HostOverrides
import WebSpider.Fetcher.FloatBucket
import WebSpider.Text.Utf8
import WebSpider.Json.Marshal
import WebSpider.Wire.Message
import WebSpider.Sources.Rss
import WebSpider.Lists.Grouped
import WebSpider.Monitor.Sampler
import WebSpider.Monitor.Retention
import WebSpider.Monitor.Activity
import WebSpider.Lists.Recent
import WebSpider.Dashboard.QueryCache
import WebSpider.Text.Like
import WebSpider.Dashboard.Listing
import WebSpider.Dashboard.Connections
import WebSpider.Floats.Monotone
import WebSpider.Dashboard.Freshness
import WebSpider.Quality.Gate
import WebSpider.Crawler.Configured
import WebSpider.Pipeline.Limit
import WebSpider.Sft.Dataset
import WebSpider.Processor.Backfill
import WebSpider.Export.Jsonl
import WebSpider.Wire.Payloads
