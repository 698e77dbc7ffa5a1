import Gapbs.Cc.Afforest
import Gapbs.Pool.ThreadPool
import Gapbs.Tc.Hybrid
import Gapbs.Builder.Rows
import Gapbs.Builder.EdgeList
import Gapbs.Builder.MakeCsr
import Gapbs.Builder.Squish
import Gapbs.Builder.MakeGraph
import Gapbs.Builder.InPlace
import Gapbs.Builder.Inverses
import Gapbs.Builder.MakeGraphInPlace
import Gapbs.Builder.InverseTurns
import Gapbs.Conc.Reduce
import Gapbs.Bfs.Port
import Gapbs.Lib.Distance
import Gapbs.Mem.Bitmap
import Gapbs.Mem.SlidingQueue
import Gapbs.Bfs.Memory
import Gapbs.Bfs.Frontier
import Gapbs.Bfs.TopDown
import Gapbs.Bfs.BottomUp
import Gapbs.Bfs.Dobfs
import Gapbs.Bfs.Ports
import Gapbs.Bfs.Verifier
import Gapbs.Lib.ShortestPath
import Gapbs.Sssp.Verifier
import Gapbs.Cc.ShiloachVishkin
import Gapbs.Cc.Verifier
import Gapbs.Io.Serialized
import Gapbs.Builder.Weighted
import Gapbs.Io.BuiltGraphs
import Gapbs.Builder.Wrapped
import Gapbs.Io.InStream
import Gapbs.Io.Tokens
import Gapbs.Lib.Fueled
import Gapbs.Io.Gr
import Gapbs.Io.Metis
import Gapbs.Io.Mtx
import Gapbs.Io.ReadFile
import Gapbs.Bc.Memory
import Gapbs.Lib.PathCount
import Gapbs.Bc.Round
import Gapbs.Bc.Backward
import Gapbs.Bc.Brandes
import Gapbs.Bc.Verifier
import Gapbs.Bc.Search
import Gapbs.Tc.Verifier
import Gapbs.Bfs.Serial
import Gapbs.Conc.Throughout
import Gapbs.Bfs.Appends
import Gapbs.Bfs.Tunables
import Gapbs.Io.EdgeText
import Gapbs.Builder.Determined
import Gapbs.Io.Load
import Gapbs.Io.WriteEl
import Gapbs.Io.Formats
import Gapbs.Io.SameGraph
import Gapbs.Sssp.DeltaStep
import Gapbs.Sssp.Relax
import Gapbs.Sssp.Search
import Gapbs.Sssp.Copy
import Gapbs.Sssp.DeltaTurn
import Gapbs.Sssp.Priority
import Gapbs.Sssp.Frontier
import Gapbs.Bench.TopK
import Gapbs.Gen.UniDist
import Gapbs.Imc.MemoryBursts
import Gapbs.Lib.RankFlow
import Gapbs.Pr.Verifier
import Gapbs.Pr.Sweep
import Gapbs.Pr.Jacobi
import Gapbs.Pr.GaussSeidel
import Gapbs.Cc.ConcurrentLinks
import Gapbs.Bfs.StaleBits
import Gapbs.Builder.RelabelSlots
import Gapbs.Mem.QueueRounds
import Gapbs.Mem.BitmapWords
import Gapbs.Mem.Pvector
import Gapbs.Conc.Compute
import Gapbs.Gen.Mt19937
import Gapbs.Gen.Blocks
import Gapbs.Gen.Generator
import Gapbs.Gen.Deterministic
import Gapbs.Mem.PvectorLists
import Gapbs.Mem.PvectorRuns
import Gapbs.Lib.Simulation
import Gapbs.Conc.Forks
import Gapbs.Pool.Process
import Gapbs.Pool.RunParallel
import Gapbs.Bfs.Processes
import Gapbs.Bench.SourcePicker
import Gapbs.Bench.Benchmark
import Gapbs.Bench.TopScores
import Gapbs.Bfs.Main
import Gapbs.Bc.Main
import Gapbs.Cc.Main
import Gapbs.Tc.Main
import Gapbs.Lib.DampedFlow
import Gapbs.Pr.Convergence
import Gapbs.Pr.Main
import Gapbs.Graph.Ownership
import Gapbs.Bench.Suite
import Gapbs.Conc.Protocol
import Gapbs.Sssp.OneEntry
import Gapbs.Graph.Unweighted
import Gapbs.Sssp.Main
import Gapbs.Lib.UniformWeights
import Gapbs.Bench.Agreement
import Gapbs.Lib.Getopt
import Gapbs.Bench.CommandLine
import Gapbs.Bench.Configurations
