import TickForge.Lib.Transition
import TickForge.BoundedQueue.Basic
import TickForge.BoundedQueue.Fifo
import TickForge.BoundedQueue.Wakeups
import TickForge.IngestionPipeline.Basic
import TickForge.IngestionPipeline.Control
import TickForge.IngestionPipeline.Conservation
import TickForge.IngestionPipeline.Shutdown
import TickForge.Lib.ByteString
import TickForge.Lib.Double
import TickForge.Lib.Json
import TickForge.MarketEvent.Basic
import TickForge.Sources.BinanceTradeParser
import TickForge.MarketEvent.Wire
import TickForge.Sources.ReplaySource
import TickForge.Sources.ReplayCalls
import TickForge.Sources.WireFormat
import TickForge.Lib.Numeral
import TickForge.Sources.PriceText
import TickForge.Sources.FieldValues
import TickForge.Sources.Validation
import TickForge.Capture.EventRecorder
import TickForge.Capture.RoundTrip
import TickForge.Kafka.Consumer
import TickForge.Sources.MalformedInput
import TickForge.IngestionPipeline.Sequence
import TickForge.Capture.Reproduction
import TickForge.Kafka.Producer
import TickForge.Kafka.EndToEnd
import TickForge.Kafka.OffsetCommit
import TickForge.Lib.Decimal
import TickForge.Lib.JsonText
import TickForge.Capture.TornWrites
import TickForge.Kafka.Retries
import TickForge.LiveSource.Basic
import TickForge.LiveSource.Stop
import TickForge.LiveSource.Reconnect
import TickForge.Lib.JsonPrefix
import TickForge.BoundedQueue.HighWater
import TickForge.IngestionPipeline.Restart
import TickForge.IngestionPipeline.Backpressure
import TickForge.IngestionPipeline.Destruction
import TickForge.IngestionPipeline.Stats
import TickForge.LiveSource.Pacing
import TickForge.Kafka.ConsumerLoop
import TickForge.IngestionPipeline.Machine
import TickForge.IngestionPipeline.Waits
import TickForge.Kafka.DeliveryReports
import TickForge.Services.Ingestion
import TickForge.Services.FinalStats
import TickForge.Lib.Histogram
import TickForge.Services.Consumer
import TickForge.Services.Exit
import TickForge.LiveSource.Ingestion
import TickForge.LiveSource.Shutdown
import TickForge.Lib.CommandLine
import TickForge.Services.Startup
import TickForge.Services.Capacity
import TickForge.Capture.LiveCapture
import TickForge.Kafka.LiveDelivery
import TickForge.Capture.Recapture
import TickForge.Kafka.ReplayDelivery
import TickForge.Services.Demo
import TickForge.Kafka.Handles
