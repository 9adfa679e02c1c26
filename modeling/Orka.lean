import Orka.Lib.Numerals
import Orka.Lib.Flat
import Orka.Lib.BitStream
import Orka.Lib.Walsh
import Orka.Lib.Binary16
import Orka.Lib.Dict
import Orka.Lib.Tile
import Orka.Lib.Journal
import Orka.Runtime
import Orka.Names
import Orka.Lemmas.Names
import Orka.Theorems.Repack
import Orka.Format
import Orka.Normalize
import Orka.Build
import Orka.Theorems.Planes
import Orka.Theorems.Kernels
import Orka.Theorems.RoundTrip
import Orka.Lemmas.Distill
import Orka.Theorems.Decoders
import Orka.Theorems.Distill
import Orka.Theorems.Allocate
import Orka.Theorems.Prefetch
import Orka.Theorems.Ans
import Orka.Theorems.IndexStream
import Orka.Lemmas.Merge
import Orka.Theorems.Merge
import Orka.Lib.Machine
import Orka.Pipeline
import Orka.Lemmas.Pipeline
import Orka.Lemmas.Ledger
import Orka.Theorems.Budget
import Orka.Theorems.Pipeline
import Orka.Lib.Dynamic
import Orka.Autoquant
import Orka.Lib.Fresh
import Orka.Lemmas.Autoquant
import Orka.Theorems.Autoquant
import Orka.Lib.Json
import Orka.Lib.Paths
import Orka.Container
import Orka.Theorems.Container
import Orka.Lib.Endian
import Orka.AnsGpu
import Orka.Lib.Lanes
import Orka.Lemmas.AnsGpu
import Orka.Theorems.AnsGpu
import Orka.Theorems.AnsBlob
import Orka.Lib.Buffer
import Orka.Lemmas.Runtime
import Orka.VqKernel
import Orka.Lemmas.Readers
import Orka.Export
import Orka.Theorems.Export
import Orka.Theorems.VqKernel
import Orka.Verify
import Orka.Lemmas.VqKernel
import Orka.Lib.Halving
import Orka.Curvature
import Orka.Theorems.Curvature
import Orka.Lib.Viterbi
import Orka.Trellis
import Orka.Theorems.Trellis
import Orka.Lib.Lattice
import Orka.Lattice
import Orka.Theorems.Lattice
import Orka.Feed
import Orka.Theorems.Feed
import Orka.Jobs
import Orka.Theorems.Jobs
import Orka.Qat
import Orka.Theorems.Qat
import Orka.QatTrain
import Orka.Theorems.QatTrain
import Orka.Theorems.Verify
import Orka.Theorems.Sidecars
import Orka.Theorems.StageLength
import Orka.Theorems.Derive
import Orka.Theorems.Spending
import Orka.Theorems.Codebook
import Orka.Theorems.MseScale
import Orka.Theorems.Kmeans
import Orka.Theorems.EmAq
import Orka.Theorems.Refine
import Orka.Theorems.DeriveTool
import Orka.Theorems.BackgroundWriter
import Orka.Theorems.Semantic
import Orka.Theorems.Giant
import Orka.Theorems.Assign
import Orka.Theorems.Pillars
import Orka.Theorems.MergeDirs
import Orka.Theorems.ReconstructFile
import Orka.Theorems.Correct
import Orka.Theorems.ExportVllm
import Orka.Lib.JsonSearch
import Orka.Theorems.PackContainer
import Orka.Theorems.Serve
import Orka.Theorems.Embedding
import Orka.Theorems.BuiltLayer
