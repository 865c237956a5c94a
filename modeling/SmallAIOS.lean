import SmallAIOS.AuditExport.Immudb.State
import SmallAIOS.AuditExport.Immudb.Verify
import SmallAIOS.AuditExport.PipelineRun
import SmallAIOS.Auth.ConsoleLogin
import SmallAIOS.Bus.Arinc664.Redundancy
import SmallAIOS.Bus.Ccsds.Uplink
import SmallAIOS.Bus.Dds.Delivery
import SmallAIOS.Fs.BootConfig.Generations
import SmallAIOS.Fs.BootConfig.Rollback
import SmallAIOS.Fs.Delta.Script
import SmallAIOS.Fs.F2fs.Checkpoint
import SmallAIOS.Fs.LittleFs.Safety
import SmallAIOS.Fs.Overlay.Frame
import SmallAIOS.Fs.Overlay.Hiding
import SmallAIOS.Ipc.InferenceProto
import SmallAIOS.Ipc.KeyExpr
import SmallAIOS.Ipc.Shm
import SmallAIOS.Ipc.TcpTransport
import SmallAIOS.Kernel.Auth.OverlayLocks
import SmallAIOS.Kernel.Mem.BuddyFree
import SmallAIOS.Kernel.Mem.GlobalRun
import SmallAIOS.Kernel.Mem.Phys
import SmallAIOS.Kernel.Mem.Tensor
import SmallAIOS.Kernel.Sched.RunQueue
import SmallAIOS.Kernel.Sched.Watchdog
import SmallAIOS.Kernel.Syscall.MemoryRun
import SmallAIOS.Mgmt.Audit.RingAtomic
import SmallAIOS.Mgmt.ZenohSession
import SmallAIOS.Net.Quic.ConnId
import SmallAIOS.Net.Quic.FinalSize
import SmallAIOS.Net.Quic.Loss
import SmallAIOS.Net.Quic.PktNum
import SmallAIOS.Net.Quic.Reassembly
import SmallAIOS.Net.Quic.StreamManager
import SmallAIOS.Net.Tcp.RecvNext
import SmallAIOS.Net.Tcp.SendUna
import SmallAIOS.OnnxRt.MemoryPlanner
import SmallAIOS.OnnxRt.Safetensors
import SmallAIOS.OnnxRt.TopologicalOrder
import SmallAIOS.Security.Audit.Accumulator
import SmallAIOS.Security.Audit.BatchSigning
import SmallAIOS.Security.Audit.RingBuffer
import SmallAIOS.Security.Gate
import SmallAIOS.Security.History
