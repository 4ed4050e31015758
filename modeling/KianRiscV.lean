import KianRiscV.Cpu
import KianRiscV.Privilege
import KianRiscV.Progress
import KianRiscV.WalkTermination
import KianRiscV.BusIntegrity
import KianRiscV.Sv32Spec
import KianRiscV.TlbTransparency
import KianRiscV.BitSerial
import KianRiscV.Rv32im
import KianRiscV.MulDivUnits
import KianRiscV.AluSpec
import KianRiscV.IntegerRefinement
import KianRiscV.PreciseTraps
import KianRiscV.StatusRegisters
import KianRiscV.CsrConfinement
import KianRiscV.TrapGating
import KianRiscV.InterruptDelivery
import KianRiscV.Transactions
import KianRiscV.Retirement
import KianRiscV.CacheLines
import KianRiscV.MemoryPort
import KianRiscV.WriteMask
import KianRiscV.DcacheTransparency
import KianRiscV.SocV2Transparency
import KianRiscV.SocResponders
import KianRiscV.PageTableUpdates
import KianRiscV.LossyMap
import KianRiscV.FenceI
import KianRiscV.LoadReserved
import KianRiscV.SdramV2
import KianRiscV.SdramConfig
import KianRiscV.SdramTiming
import KianRiscV.UartLossless
import KianRiscV.UartBus
import KianRiscV.M12System
import KianRiscV.BootImage
import KianRiscV.PhysicalPages
import KianRiscV.TrapVectors
import KianRiscV.ControlTransfers
import KianRiscV.TrapReports
import KianRiscV.LoadsStores
import KianRiscV.Replacement
import KianRiscV.Plic
import KianRiscV.SdramRefresh
import KianRiscV.UartBitTime
import KianRiscV.SpiTransfers
import KianRiscV.MulDivRuns
import KianRiscV.AtomicRmw
import KianRiscV.SoftDivision
import KianRiscV.CycleCounter
import KianRiscV.MachineTime
import KianRiscV.CpuFrequency
import KianRiscV.FlashReads
import KianRiscV.ProgramRuns
import KianRiscV.Xv6Transactions
import KianRiscV.Xv6Isolation
import KianRiscV.Xv6BcacheRuns
import KianRiscV.Xv6LogCache
