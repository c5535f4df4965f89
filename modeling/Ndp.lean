import Ndp.Bfs
import Ndp.CeilPow2
import Ndp.Chat
import Ndp.ClientVerifies
import Ndp.CodecCapacity
import Ndp.CodecCoverage
import Ndp.CodecErrors
import Ndp.CodecIsolation
import Ndp.CodecProgress
import Ndp.CodecReassembly
import Ndp.CppReader
import Ndp.CreateTree
import Ndp.DynamicArray
import Ndp.EdgeAnswers
import Ndp.FaultCall
import Ndp.FaultMemory
import Ndp.FaultPages
import Ndp.FibKernels
import Ndp.FnTables
import Ndp.MerkleMain
import Ndp.NetworkProgress
import Ndp.Prototype
import Ndp.ServerHistory
import Ndp.ServerLengths
import Ndp.ServerOrder
import Ndp.ServerRanges
import Ndp.ServerReplies
import Ndp.SortSession
import Ndp.Sssp
import Ndp.SumSession
import Ndp.SwapPage
