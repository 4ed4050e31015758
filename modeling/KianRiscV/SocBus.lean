/-
# The bus of the system on chip

The address decoding and the ready logic of `soc.v`, with the ready registers of the small
devices (`clint.v`, `plic.v`, `gpio.v`, the registers inside `soc.v`), the two caches before
the SDRAM, and the flash controller `qqspi.v` up to the length of its transfers.  Whether the
transmit buffer of a UART has space, whether an SPI transfer is running, when the flash
transfer ends and when the SDRAM is ready is left to the environment.  Data read from the
devices is not modelled: no ready signal depends on it.
-/
import KianRiscV.Cache

namespace KianRiscV

/-! ## Parameters and accesses -/

/-- The optional parts of the SoC (`SOC_HAS_EXT_FLASH`, `SOC_HAS_GPIO`, `SOC_HAS_AUDIO`,
`SOC_HAS_NETWORK`, `SOC_HAS_EXT_OLED`) and the size of the SDRAM. -/
structure SocConfig where
  hasExtFlash : Bool
  hasGpio : Bool
  hasAudio : Bool
  hasNetwork : Bool
  hasExtOled : Bool
  sdramSize : BitVec 32

/-- What the processor puts on the bus: `cpu_mem_valid`, `cpu_mem_addr`, `cpu_mem_wstrb`,
`cpu_mem_wdata` and `is_instruction`. -/
structure BusAccess where
  valid : Bool
  addr : Word
  wstrb : BitVec 4
  wdata : Word
  isInstruction : Bool
  deriving DecidableEq

/-- What the environment decides in a cycle. -/
structure SocEnv where
  uartTxRdy : Fin 2 → Bool
  spiInXfer : Fin 3 → Bool
  flashDone : Bool
  sdramReady : Bool
  sdramRdata : Word
  icacheFlush : Bool

namespace BusAccess

variable (cfg : SocConfig) (x : BusAccess)

/-- `wr`. -/
def wr : Bool := x.wstrb != 0#4

/-- `UART_TX_ADDRS`. -/
def uartTxAddr (i : Fin 2) : Word := if i = 0 then 0x10000000#32 else 0x10000100#32

/-- `UART_RX_ADDRS`. -/
def uartRxAddr (i : Fin 2) : Word := if i = 0 then 0x10000000#32 else 0x10000100#32

/-- `UART_LSR_ADDRS`. -/
def uartLsrAddr (i : Fin 2) : Word := if i = 0 then 0x10000005#32 else 0x10000105#32

/-- `KIANV_SPI_CTRL0` to `KIANV_SPI_CTRL2`. -/
def spiCtrl (i : Fin 3) : Word :=
  if i = 0 then 0x10500000#32 else if i = 1 then 0x10500100#32 else 0x10500200#32

/-- `KIANV_SPI_DATA0` to `KIANV_SPI_DATA2`. -/
def spiData (i : Fin 3) : Word :=
  if i = 0 then 0x10500004#32 else if i = 1 then 0x10500104#32 else 0x10500204#32

/-- Which of the SPI masters are there. -/
def hasSpi (i : Fin 3) : Bool :=
  if i = 0 then true else if i = 1 then cfg.hasNetwork else cfg.hasExtOled

/-- `is_bram`, with `BRAM_WORDS` 4096. -/
def isBram : Bool := decide (x.addr < 0x4000#32)

/-- `is_flash`. -/
def isFlash : Bool :=
  cfg.hasExtFlash && decide (0x20000000#32 ≤ x.addr) && decide (x.addr < 0x21000000#32)

/-- The address test of `is_sdram`. -/
def inSdram (addr : Word) : Bool :=
  decide (0x80000000#32 ≤ addr) && decide (addr < 0x80000000#32 + cfg.sdramSize)

/-- `is_clint`. -/
def isClint : Bool := x.addr.extractLsb' 24 8 == 0x02#8

/-- `is_plic`. -/
def isPlic : Bool := x.addr.extractLsb' 24 8 == 0x0C#8

/-- `is_io`. -/
def isIo : Bool :=
  (decide (0x10000000#32 ≤ x.addr) && decide (x.addr ≤ 0x12000000#32)) || (x.isPlic || x.isClint)

/-- `is_reboot_addr`. -/
def isRebootAddr : Bool := x.addr == 0x11100000#32

/-- `is_reboot_data`. -/
def isRebootData : Bool := x.wdata.extractLsb' 0 16 == 0x7777#16

/-- `is_reboot`. -/
def isReboot : Bool := x.isRebootAddr || x.isRebootData

/-- `is_reboot_valid`: the write that resets the SoC. -/
def isRebootValid : Bool := x.valid && x.isRebootAddr && x.isRebootData && x.wr

/-- The registers `clint` answers for. -/
def isClintReg : Bool :=
  let a : BitVec 24 := x.addr.extractLsb' 0 24
  a == 0x000000#24 || a == 0x004000#24 || a == 0x004004#24 || a == 0x00bff8#24 ||
    a == 0x00bffc#24

end BusAccess

/-! ## The registers -/

variable {iset iways dset dways : ℕ}

/-- The ready registers of the bus, the flash controller and the caches. -/
structure Soc (ipolicy : ReplacementPolicy iset iways) (dpolicy : ReplacementPolicy dset dways)
    where
  bramReady : Bool
  systemCpuFreqReady : Bool
  systemMemSizeAccessReady : Bool
  divReady : Bool
  gpioReady : Bool
  sndReady : Bool
  clintReady : Bool
  plicReady : Bool
  accessFaultReady : Bool
  spiReady : Fin 3 → Bool
  uartTxReady : Fin 2 → Bool
  txSeen : Fin 2 → Bool
  uartLsrRdy : Fin 2 → Bool
  uartRxReady : Fin 2 → Bool
  flashBusy : Bool
  flashReady : Bool
  cache : Cache ipolicy dpolicy

namespace Soc

variable {ipolicy : ReplacementPolicy iset iways} {dpolicy : ReplacementPolicy dset dways}
  (cfg : SocConfig) (s : Soc ipolicy dpolicy) (x : BusAccess) (e : SocEnv)

/-! ## The requests to the devices -/

/-- `system_cpu_freq_valid`. -/
def systemCpuFreqValid : Bool :=
  !s.systemCpuFreqReady && x.valid && x.addr == 0x10000014#32 && !x.wr

/-- `system_mem_size_access_valid`. -/
def systemMemSizeAccessValid : Bool :=
  !s.systemMemSizeAccessReady && x.valid && x.addr == 0x10000018#32 && !x.wr

/-- `div_valid`. -/
def divValid : Bool := !s.divReady && x.valid && x.addr == 0x10000010#32

/-- `spi_nor_mem_valid`. -/
def spiNorMemValid : Bool := !s.flashReady && x.valid && x.isFlash cfg && !x.wr

/-- `gpio_valid`. -/
def gpioValid : Bool :=
  cfg.hasGpio && !s.gpioReady && x.valid &&
    (x.addr == 0x10000700#32 || x.addr == 0x10000704#32 || x.addr == 0x10000708#32)

/-- `snd_valid`. -/
def sndValid : Bool := cfg.hasAudio && !s.sndReady && x.valid && x.addr == 0x10500300#32

/-- `spi_mem_valid0` to `spi_mem_valid2`. -/
def spiMemValid (i : Fin 3) : Bool :=
  BusAccess.hasSpi cfg i && !s.spiReady i && x.valid &&
    (x.addr == BusAccess.spiCtrl i || x.addr == BusAccess.spiData i)

/-- `accept` of `spi`: everything but a data write during a transfer. -/
def spiAccept (i : Fin 3) : Bool :=
  s.spiMemValid cfg x i && (!x.addr.getLsbD 2 || !x.wstrb.getLsbD 0 || !e.spiInXfer i)

/-- `tx_hit`. -/
def txHit (x : BusAccess) (i : Fin 2) : Bool := x.valid && x.wr && x.addr == BusAccess.uartTxAddr i

/-- `tx_accept`. -/
def txAccept (i : Fin 2) : Bool := txHit x i && !s.txSeen i && e.uartTxRdy i

/-- `uart_lsr_valid_rd`. -/
def uartLsrValidRd (i : Fin 2) : Bool :=
  !s.uartLsrRdy i && !x.wr && x.valid && x.addr == BusAccess.uartLsrAddr i

/-- `uart_rx_valid_rd`. -/
def uartRxValidRd (i : Fin 2) : Bool :=
  !x.wr && (!s.uartRxReady i && x.valid && x.addr == BusAccess.uartRxAddr i)

/-- `bram_valid`. -/
def bramValid : Bool := !s.bramReady && x.valid && x.isBram

/-- `clint_valid`. -/
def clintValid : Bool := !s.clintReady && (x.isClint && x.valid) && x.isClintReg

/-- `plic_valid`. -/
def plicValid : Bool := !s.plicReady && (x.isPlic && x.valid)

/-- The access as the caches see it, without its valid bit. -/
def cacheReq (x : BusAccess) (valid : Bool) : CacheReq := ⟨valid, x.addr, x.wstrb, x.wdata⟩

/-- `mem_sdram_ready`. -/
def memSdramReady : Bool := s.cache.cpuReady x.isInstruction e.sdramReady

/-- `cache_addr_o`.  It does not depend on the valid bit of the request. -/
def cacheAddr : Word := (s.cache.ramRequest x.isInstruction (cacheReq x false) e.sdramReady).addr

/-- `is_sdram`. -/
def isSdram : Bool := BusAccess.inSdram cfg (s.cacheAddr x e)

/-- `mem_sdram_valid`. -/
def memSdramValid : Bool := !s.memSdramReady x e && x.valid && s.isSdram cfg x e

/-- `non_instruction_invalid_access || instruction_invalid_access`. -/
def invalidAccess : Bool :=
  (!x.isInstruction &&
      !(x.isIo || x.isBram || s.isSdram cfg x e || x.isFlash cfg || x.isReboot)) ||
    (x.isInstruction && !(s.isSdram cfg x e || x.isBram || x.isFlash cfg))

/-- `access_fault_valid`, with `ENABLE_ACCESS_FAULT` one. -/
def accessFaultValid : Bool := !s.accessFaultReady && x.valid && s.invalidAccess cfg x e

/-! ## The answers -/

/-- `match_lsr`, `match_tx` or `match_rx` of any UART. -/
def matchUart (x : BusAccess) : Bool :=
  (List.finRange 2).any fun i =>
    x.addr == BusAccess.uartLsrAddr i || x.addr == BusAccess.uartTxAddr i || x.addr == BusAccess.uartRxAddr i

/-- `unmatched_io`. -/
def unmatchedIo : Bool :=
  !(matchUart x || s.clintValid x || s.plicValid x ||
    ((List.finRange 3).any fun i => s.spiMemValid cfg x i) || s.divValid x || s.gpioValid cfg x ||
    s.systemCpuFreqValid x || s.systemMemSizeAccessValid x || s.sndValid cfg x)

/-- `|io_ready_uart`. -/
def ioReadyUart : Bool :=
  (List.finRange 2).any fun i => s.uartLsrRdy i || s.uartRxReady i || s.uartTxReady i

/-- `io_ready`. -/
def ioReady : Bool :=
  x.isIo && (s.ioReadyUart || s.systemCpuFreqReady || s.systemMemSizeAccessReady ||
    s.clintReady || s.plicReady || s.divReady || ((List.finRange 3).any s.spiReady) ||
    s.gpioReady || s.sndReady || s.unmatchedIo cfg x)

/-- `cpu_mem_ready`. -/
def cpuMemReady : Bool :=
  s.bramReady || s.flashReady || s.memSdramReady x e || s.ioReady cfg x || s.accessFaultReady

/-- One clock edge. -/
def next : Soc ipolicy dpolicy where
  bramReady := s.bramValid x
  systemCpuFreqReady := s.systemCpuFreqValid x
  systemMemSizeAccessReady := s.systemMemSizeAccessValid x
  divReady := s.divValid x
  gpioReady := s.gpioValid cfg x
  sndReady := s.sndValid cfg x
  clintReady := s.clintValid x
  plicReady := s.plicValid x
  accessFaultReady := s.accessFaultValid cfg x e
  spiReady := s.spiAccept cfg x e
  uartTxReady := s.txAccept x e
  txSeen := fun i => txHit x i && (s.txAccept x e i || s.txSeen i)
  uartLsrRdy := s.uartLsrValidRd x
  uartRxReady := s.uartRxValidRd x
  -- `S0_IDLE` of the flash controller starts a transfer, or takes `ready` back.
  flashBusy := if s.flashBusy then !e.flashDone else s.spiNorMemValid cfg x
  flashReady := if s.flashBusy then e.flashDone || s.flashReady
    else s.flashReady && s.spiNorMemValid cfg x
  cache := s.cache.next x.isInstruction (cacheReq x (s.memSdramValid cfg x e)) e.sdramReady
    e.sdramRdata (!e.icacheFlush)

/-- The registers after reset: no answer is under way. -/
structure IsReset (s : Soc ipolicy dpolicy) : Prop where
  bram : s.bramReady = false
  system : s.systemCpuFreqReady = false ∧ s.systemMemSizeAccessReady = false ∧ s.divReady = false
  devices : s.gpioReady = false ∧ s.sndReady = false ∧ s.clintReady = false ∧ s.plicReady = false
  accessFault : s.accessFaultReady = false
  spi : ∀ i, s.spiReady i = false
  uart : ∀ i, s.uartTxReady i = false ∧ s.txSeen i = false ∧ s.uartLsrRdy i = false ∧
    s.uartRxReady i = false
  flash : s.flashBusy = false ∧ s.flashReady = false
  caches : s.cache.icache.state = .s0 ∧ s.cache.dcache.state = .s0

end Soc

end KianRiscV
