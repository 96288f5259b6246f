import CapsuleDB.LabelledRun
import CapsuleDB.ServerIsolation
import CapsuleDB.ServerFlag
import CapsuleDB.ServerPipeline
import CapsuleDB.EnclaveKvsFlush
import CapsuleDB.ClientDispatch
import CapsuleDB.EnclaveAccounting
import CapsuleDB.EnclaveKvsQueue
import CapsuleDB.EnclaveKvsDrain
import CapsuleDB.ClientDatagrams
import CapsuleDB.UtilBloomFilter
import CapsuleDB.UtilBloomAliasing
import CapsuleDB.UtilBufPool
import CapsuleDB.UtilEncoding
import CapsuleDB.UtilAtomicQueueShared
import CapsuleDB.ClientServerProgress
import CapsuleDB.ClientQueue
import CapsuleDB.EnclaveKvsReplay
import CapsuleDB.TestGen
import CapsuleDB.UtilBloomParams
import CapsuleDB.ClientQueueProgress
import CapsuleDB.EndToEnd
import CapsuleDB.EndToEndProgress
