import NixStrixHalo.Library.Transition
import NixStrixHalo.Library.BigEndian
import NixStrixHalo.Library.Arq
import NixStrixHalo.Library.ArqInOrder
import NixStrixHalo.Library.ArqPipeline
import NixStrixHalo.Library.TopK
import NixStrixHalo.LlamaRdma.Frame
import NixStrixHalo.LlamaRdma.Config
import NixStrixHalo.LlamaRdma.Endpoint
import NixStrixHalo.LlamaRdma.FrameCodec
import NixStrixHalo.LlamaRdma.Cookie
import NixStrixHalo.LlamaRdma.Moves
import NixStrixHalo.LlamaRdma.Calls
import NixStrixHalo.LlamaRdma.Ring
import NixStrixHalo.LlamaRdma.Link
import NixStrixHalo.LlamaRdma.Party
import NixStrixHalo.LlamaRdma.Refinement
import NixStrixHalo.LlamaRdma.Stream
import NixStrixHalo.LlamaRdma.Loss
import NixStrixHalo.LlamaRdma.FlowControl
import NixStrixHalo.LlamaRdma.Stall
import NixStrixHalo.LlamaRdma.Retransmit
import NixStrixHalo.LlamaRdma.SharedCq
import NixStrixHalo.LlamaRdma.Conversation
import NixStrixHalo.Sglang.Int32
import NixStrixHalo.Sglang.PooledTopk
import NixStrixHalo.Library.Tile
import NixStrixHalo.Sglang.MqaLogits
import NixStrixHalo.Library.LastMax
import NixStrixHalo.Library.OrderedDict
import NixStrixHalo.TheRock.PythonWheels
import NixStrixHalo.TheRock.CoherentWheels
import NixStrixHalo.TheRock.WheelPins
import NixStrixHalo.TheRock.RocmPins
import NixStrixHalo.Library.PaddedLex
import NixStrixHalo.TheRock.VersionOrder
import NixStrixHalo.TheRock.ListingOrder
import NixStrixHalo.Library.FileTree
import NixStrixHalo.TheRock.SourceTree
import NixStrixHalo.Library.PythonText
import NixStrixHalo.Library.NixString
import NixStrixHalo.Library.Url
import NixStrixHalo.Library.MarkedBlock
import NixStrixHalo.TheRock.SubmoduleTable
import NixStrixHalo.TheRock.FlakeInputs
import NixStrixHalo.TheRock.GeneratedNix
import NixStrixHalo.TheRock.WheelLinks
import NixStrixHalo.Library.RankInterpolation
import NixStrixHalo.Bench.StreamClient
import NixStrixHalo.Bench.Percentile
import NixStrixHalo.Bench.TransportMatrix
import NixStrixHalo.Bench.MakePlan
import NixStrixHalo.LlamaRpc.TensorCache
import NixStrixHalo.Multikernel.Lifecycle
import NixStrixHalo.Exporter.Snapshot
import NixStrixHalo.Library.Strided
import NixStrixHalo.Exporter.HwContexts
import NixStrixHalo.Library.KeyRank
import NixStrixHalo.Bench.HipArchGuard
import NixStrixHalo.Bench.ConsumeStream
import NixStrixHalo.Library.Blocks
import NixStrixHalo.Sglang.MhcProjection
import NixStrixHalo.Sglang.MqaOffsets
import NixStrixHalo.Library.Base64
import NixStrixHalo.Library.Pairing
import NixStrixHalo.Library.Pattern
import NixStrixHalo.TheRock.ThirdParty
import NixStrixHalo.Library.CMake
import NixStrixHalo.TheRock.CMakeLists
import NixStrixHalo.TheRock.CMakeVariables
import NixStrixHalo.Library.Csv
import NixStrixHalo.Bench.ResultsCsv
import NixStrixHalo.TheRock.RemoteRefs
import NixStrixHalo.TheRock.ThirdPartyPins
import NixStrixHalo.TheRock.SourceStack
import NixStrixHalo.TheRock.ReleasePins
import NixStrixHalo.Library.BinaryFloat
import NixStrixHalo.Sglang.Fp8Widen
import NixStrixHalo.Sglang.MhcPost
import NixStrixHalo.Library.Decimal
import NixStrixHalo.Library.Exposition
import NixStrixHalo.Exporter.Printing
import NixStrixHalo.Exporter.SmuMetrics
import NixStrixHalo.Exporter.NpuMetrics
import NixStrixHalo.LlamaRdma.PeerMap
