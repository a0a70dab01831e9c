import VoleZk.Lib.OfflineMemory
import VoleZk.Ram.Model
import VoleZk.Ram.Logs
import VoleZk.Ram.Rom
import VoleZk.Ram.ReadWrite
import VoleZk.Ram.Set
import VoleZk.Arith.Fp61
import VoleZk.Lib.Chunks
import VoleZk.Arith.Edabits
import VoleZk.Arith.ArithToBool
import VoleZk.Lib.CyclicCover
import VoleZk.Arith.Buckets
import VoleZk.Arith.Openings
import VoleZk.Arith.Conversion
import VoleZk.Lib.Runs
import VoleZk.Arith.FpExec
import VoleZk.Arith.FpComplete
import VoleZk.Arith.CheckThreads
import VoleZk.Lib.Gf2k
import VoleZk.Lib.Workers
import VoleZk.Bool.Block
import VoleZk.Bool.ZKBool
import VoleZk.Bool.Complete
import VoleZk.Lib.Gf2kField
import VoleZk.Bool.F2k
import VoleZk.Lib.ProductTest
import VoleZk.Lib.PublicCoin
import VoleZk.Bool.PermProof
import VoleZk.Ram.Pack
import VoleZk.Ram.Complete
import VoleZk.Ram.Challenges
import VoleZk.Pipe.Model
import VoleZk.Pipe.Teardown
import VoleZk.Lib.Radix2
import VoleZk.Lib.Interpolation
import VoleZk.Mvzk.Fp59
import VoleZk.Mvzk.Share
import VoleZk.Mvzk.Mesh
import VoleZk.Mvzk.Reveal
import VoleZk.Mvzk.Ntt
import VoleZk.Mvzk.Poly
import VoleZk.Mvzk.Points
import VoleZk.Mvzk.Compress
import VoleZk.Mvzk.Tables
import VoleZk.Mvzk.Secrecy
import VoleZk.Mvzk.Check
import VoleZk.Mvzk.CheckSound
import VoleZk.Mvzk.CheckAgree
import VoleZk.Mvzk.CheckRoot
import VoleZk.Mvzk.CheckComplete
import VoleZk.Mvzk.CheckRuns
import VoleZk.Lib.Lockstep
import VoleZk.Mvzk.Backend
import VoleZk.Mvzk.Lockstep
import VoleZk.Mvzk.Circuit
import VoleZk.Mvzk.Sharing
import VoleZk.Mvzk.Hazards
import VoleZk.Lib.LazyDag
import VoleZk.Mvzk.IntFp
import VoleZk.Mvzk.Lazy
import VoleZk.Mvzk.LazyExec
import VoleZk.Lib.Staging
import VoleZk.Lib.Tape
import VoleZk.Lib.Bytes
import VoleZk.Mvzk.FiatShamir
import VoleZk.Mvzk.NVole
import VoleZk.Mvzk.Coin
import VoleZk.Mvzk.Abort
import VoleZk.Bool.BoolIO
import VoleZk.Pipe.Stream
import VoleZk.Pipe.Session
import VoleZk.Arith.Reveal
import VoleZk.Lib.KeyCheck
import VoleZk.Bool.CheckSound
import VoleZk.Arith.CheckSound
import VoleZk.Lib.Batches
import VoleZk.Bool.PolyProof
import VoleZk.Lib.SeekStream
import VoleZk.Bool.Threads
import VoleZk.Lib.Waves
import VoleZk.Bool.AndVec
import VoleZk.Arith.MulVec
import VoleZk.Arith.PolyProof
import VoleZk.Bool.F2kExec
import VoleZk.Arith.SingleUse
import VoleZk.Lib.Euclid
import VoleZk.Mvzk.Fp59Inv
import VoleZk.Mvzk.Fp59x2
import VoleZk.Mvzk.Fp59Mixed
import VoleZk.Mvzk.Conversions
import VoleZk.Mvzk.MaskedCheck
import VoleZk.Arith.Feed
import VoleZk.Bool.Half
import VoleZk.Bool.Sound
import VoleZk.Bool.Pair
import VoleZk.Bool.Simulate
import VoleZk.Lib.CyclicShift
import VoleZk.Arith.CutAndChoose
import VoleZk.Arith.ProgramSound
import VoleZk.Mvzk.OutputSound
import VoleZk.Arith.Pair
import VoleZk.Arith.Simulate
