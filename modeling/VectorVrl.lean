import VectorVrl.Lib.Depth
import VectorVrl.Lib.Collect
import VectorVrl.Lib.OrderedMap
import VectorVrl.Lib.Saturating
import VectorVrl.Lib.Runs
import VectorVrl.Lib.Index
import VectorVrl.Lib.Effects
import VectorVrl.Lib.Chain
import VectorVrl.Lib.OrderedDict
import VectorVrl.Lib.Lines
import VectorVrl.Lib.Repeat
import VectorVrl.Lib.Framing
import VectorVrl.Lib.Matches
import VectorVrl.Lib.Rounding
import VectorVrl.Lib.Versions
import VectorVrl.Lib.Greatest
import VectorVrl.Lib.Locks
import VectorVrl.Lib.Linearize
import VectorVrl.Lib.Dataflow
import VectorVrl.Lib.Segments
import VectorVrl.Lib.InOrder
import VectorVrl.Lib.SharedCache
import VectorVrl.Lib.LineEdits
import VectorVrl.Nesting
import VectorVrl.TokenTree
import VectorVrl.Value
import VectorVrl.Json
import VectorVrl.Engine
import VectorVrl.Position
import VectorVrl.Vector
import VectorVrl.VectorCalls
import VectorVrl.History
import VectorVrl.Enrichment
import VectorVrl.PlainScan
import VectorVrl.IndexCache
import VectorVrl.Registry
import VectorVrl.SharedRegistry
import VectorVrl.Target
import VectorVrl.TypeDefs
import VectorVrl.ConfigCheck
import VectorVrl.RemapChain
import VectorVrl.ValidateConfig
import VectorVrl.VectorConfig
import VectorVrl.Performance
import VectorVrl.PyJson
import VectorVrl.Runner
import VectorVrl.Sink
import VectorVrl.Benchmark
import VectorVrl.Pipeline
import VectorVrl.Patterns
import VectorVrl.SimpleTest
import VectorVrl.PyInt
import VectorVrl.VersionDetection
import VectorVrl.VectorPin
import VectorVrl.Monitoring
import VectorVrl.DependencySync
import VectorVrl.BuildSystem
import VectorVrl.Proofs.Scanner
import VectorVrl.Proofs.NestingDepth
import VectorVrl.Proofs.Values
import VectorVrl.Proofs.Outcome
import VectorVrl.Proofs.Input
import VectorVrl.Proofs.RoundTrip
import VectorVrl.Proofs.Stats
import VectorVrl.Proofs.VectorCalls
import VectorVrl.Proofs.EntryPoints
import VectorVrl.Proofs.Target
import VectorVrl.Proofs.Secrecy
import VectorVrl.Proofs.TypeDefs
import VectorVrl.Proofs.Loading
import VectorVrl.Proofs.Lookup
import VectorVrl.Proofs.IndexCache
import VectorVrl.Proofs.Snapshot
import VectorVrl.Proofs.Linearizable
import VectorVrl.Proofs.SharedPrograms
import VectorVrl.Proofs.Agreement
import VectorVrl.Proofs.Bindings
import VectorVrl.Proofs.ConfigCheck
import VectorVrl.Proofs.RemapChain
import VectorVrl.Proofs.VectorConfig
import VectorVrl.Proofs.InfiniteFloat
import VectorVrl.Proofs.PathText
import VectorVrl.Proofs.Performance
import VectorVrl.Proofs.ValidateConfig
import VectorVrl.Proofs.ChainCheck
import VectorVrl.Proofs.Stdin
import VectorVrl.Proofs.PyJson
import VectorVrl.Proofs.JsonQuotes
import VectorVrl.Proofs.JsonFuel
import VectorVrl.Proofs.Output
import VectorVrl.Proofs.Runner
import VectorVrl.Proofs.RunVerdict
import VectorVrl.Proofs.Benchmark
import VectorVrl.Proofs.Pipeline
import VectorVrl.Proofs.SimpleTest
import VectorVrl.Proofs.Ranking
import VectorVrl.Proofs.Patterns
import VectorVrl.Proofs.VersionDetection
import VectorVrl.Proofs.VectorPin
import VectorVrl.Proofs.PinRuns
import VectorVrl.Proofs.Newlines
import VectorVrl.Proofs.DependencySync
import VectorVrl.Proofs.Monitoring
import VectorVrl.Proofs.BuildSystem
