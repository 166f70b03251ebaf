import DesModular.FipsRefinement
import DesModular.DesModes
import DesModular.Pkcs7
import DesModular.Transducer
import DesModular.DesModesSpec
import DesModular.DesModeCalls
import DesModular.DesModeBuffers
import DesModular.DesModesRoundTrip
import DesModular.DesModesBlocks
import DesModular.DesModesAliasing
import DesModular.DesBruteForce
import DesModular.EvenSplit
import DesModular.LabelledRun
import DesModular.DesParallel
import DesModular.DesParallelSafety
import DesModular.DesParallelProgress
import DesModular.DesParallelWork
import DesModular.KeyRecovery
import DesModular.Complementation
import DesModular.DesPadding
import DesModular.KeyEnumeration
import DesModular.DesModesPatterns
import DesModular.DesModesPropagation
import DesModular.DesModesConcatenation
import DesModular.DesParallelSchedule
import DesModular.DesParallelPrompt
import DesModular.Benchmark
import DesModular.BenchmarkBaseline
import DesModular.BenchmarkOptions
import DesModular.BitDistance
import DesModular.DesDiffusion
import DesModular.DesModesBounds
import DesModular.DesScheduleBits
import DesModular.WeakKeys
import DesModular.BenchmarkMeasure
import DesModular.BenchmarkVerdict
import DesModular.DesDemo
import DesModular.DesParallelUnthreaded
import DesModular.ModesExperimentResults
import DesModular.DesApiCalls
import DesModular.DesModesOverlap
import DesModular.DesRounds
import DesModular.MirroredSearch
import DesModular.PaddingOracle
import DesModular.SubkeyCount
import DesModular.DesDifferences
import DesModular.DesEvenness
import DesModular.DesModesRearranged
import DesModular.KeyCount
import DesModular.KeyDifferences
import DesModular.SlidSchedules
import DesModular.BenchmarkReport
