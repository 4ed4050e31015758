/-
# Configuration accesses of the SDRAM controller

`sdram_cfg_if` of LinuxSoC_v2 between the bus and the configuration port of the controller,
with the ready logic of `soc.v`.  The devices beside it, and the memory requests and data lines
of the controller, are left to the environment.

An access is answered two cycles after its pulse, and in the cycle of the answer it is still on
the bus with the interface free again: it is taken a second time.  `config_once_iff` shows that
this happens to every access.
-/
import KianRiscV.SdramV2
import KianRiscV.SocBus

namespace KianRiscV

/-! ## The interface -/

/-- The registers of `sdram_cfg_if`. -/
structure SdramCfgIf where
  busy : Bool
  cfgWr : Bool
  cfgRd : Bool
  cfgAddr : BitVec 6
  cfgWdata : Word
  rdataR : Word
  readyR : Bool

/-- `hit`: the access is to the configuration window. -/
def BusAccess.isSdramCfg (x : BusAccess) : Bool :=
  x.valid && x.addr.extractLsb' 16 16 == 0x1060#16

namespace SdramCfgIf

variable (s : SdramCfgIf)

/-- The registers after reset. -/
def resetState : SdramCfgIf where
  busy := false
  cfgWr := false
  cfgRd := false
  cfgAddr := 0#6
  cfgWdata := 0#32
  rdataR := 0#32
  readyR := false

/-- One clock edge. -/
def next (x : BusAccess) (cfgRdata : Word) (cfgDone : Bool) : SdramCfgIf :=
  let accept := !s.busy && x.isSdramCfg
  let done := s.busy && cfgDone
  { busy := if accept then true else if done then false else s.busy
    cfgWr := accept && x.wr
    cfgRd := accept && !x.wr
    cfgAddr := if accept then x.addr.extractLsb' 2 6 else s.cfgAddr
    cfgWdata := if accept then x.wdata else s.cfgWdata
    rdataR := if done then cfgRdata else s.rdataR
    readyR := done }

/-- `bus_rdata_o`. -/
def busRdata : Word := if s.readyR then s.rdataR else 0#32

/-- A pulse on the configuration port. -/
def pulse : Bool := s.cfgWr || s.cfgRd

end SdramCfgIf

/-! ## The bus of LinuxSoC_v2 -/

/-- What the environment decides in a cycle: the ready signals of the other devices, the
requests their decoders see, and the other inputs of the controller. -/
structure SocV2Env where
  memSdramReady : Bool
  spiNorReady : Bool
  spi0Ready : Bool
  spi1Ready : Bool
  gpioReady : Bool
  uartIfReady : Bool
  sysReady : Bool
  clintReady : Bool
  plicReady : Bool
  divReady : Bool
  clintValidVis : Bool
  plicValidVis : Bool
  div0ValidSeen : Bool
  div1ValidSeen : Bool
  sysCpuFreqValid : Bool
  sysMemSizeValid : Bool
  req : SdramReq
  sdramDqIn : BitVec 16
  dqNegedge : BitVec 16

namespace BusAccess

variable (x : BusAccess)

/-- `is_sdram`, on the 32 MiB of LinuxSoC_v2. -/
def isSdramV2 : Bool := decide (0x80000000#32 ≤ x.addr) && decide (x.addr < 0x82000000#32)

/-- `is_flash`. -/
def isFlashV2 : Bool := decide (0x20000000#32 ≤ x.addr) && decide (x.addr < 0x21000000#32)

/-- `hit_spi0`. -/
def hitSpi0 : Bool := x.addr == 0x10500000#32 || x.addr == 0x10500004#32

/-- `hit_spi1`. -/
def hitSpi1 : Bool := x.addr == 0x10500100#32 || x.addr == 0x10500104#32

/-- `hit_gpio`. -/
def hitGpio : Bool :=
  x.addr == 0x10000700#32 || x.addr == 0x10000704#32 || x.addr == 0x10000708#32

/-- `match_lsr`, `match_tx` or `match_rx`. -/
def matchUartV2 : Bool := x.addr == 0x10000005#32 || x.addr == 0x10000000#32

/-- `hit_access_fault_valid`. -/
def hitAccessFaultValid : Bool :=
  x.valid &&
    ((!x.isInstruction && !(x.isIo || x.isSdramV2 || x.isFlashV2 || x.isReboot)) ||
      (x.isInstruction && !(x.isSdramV2 || x.isFlashV2)))

/-- `unmatched_io`. -/
def unmatchedIoV2 (e : SocV2Env) : Bool :=
  !(x.matchUartV2 || e.clintValidVis || e.plicValidVis || (x.valid && x.hitSpi0) ||
    (x.valid && x.hitSpi1) || e.div0ValidSeen || e.div1ValidSeen || (x.valid && x.hitGpio) ||
    e.sysCpuFreqValid || e.sysMemSizeValid || x.isSdramCfg)

end BusAccess

/-- The interface, the controller behind it, and the ready registers of the bus. -/
structure CfgSoc where
  cfgIf : SdramCfgIf
  ctrl : SdramV2
  isIoReady : Bool
  unmatchedIoReady : Bool
  accessFaultReady : Bool

namespace CfgSoc

section

variable (wait200us : BitVec 16) (s : CfgSoc) (x : BusAccess) (e : SocV2Env)

/-- `io_ready`. -/
def ioReady : Bool :=
  s.isIoReady &&
    (e.uartIfReady || e.sysReady || e.clintReady || e.plicReady || e.divReady || e.spi0Ready ||
      e.spi1Ready || e.gpioReady || s.cfgIf.readyR || s.unmatchedIoReady)

/-- `cpu_mem_ready`. -/
def cpuMemReady : Bool :=
  (x.isSdramV2 && (x.valid && x.isSdramV2) && e.memSdramReady) ||
    (x.isFlashV2 && e.spiNorReady) || (x.hitSpi0 && e.spi0Ready) || (x.hitSpi1 && e.spi1Ready) ||
    (x.hitGpio && e.gpioReady) || (x.isIo && s.ioReady e) ||
    (x.hitAccessFaultValid && s.accessFaultReady)

/-- The inputs of the controller. -/
def ctrlIn : SdramV2In where
  req := e.req
  cfgWr := s.cfgIf.cfgWr
  cfgRd := s.cfgIf.cfgRd
  cfgAddr := s.cfgIf.cfgAddr
  cfgWdata := s.cfgIf.cfgWdata
  sdramDqIn := e.sdramDqIn
  dqNegedge := e.dqNegedge

/-- One clock edge. -/
def next (i : BusAccess × SocV2Env) : CfgSoc where
  cfgIf := s.cfgIf.next i.1 s.ctrl.cfgRdata s.ctrl.cfgDone
  ctrl := s.ctrl.next wait200us (s.ctrlIn i.2)
  isIoReady := i.1.isIo
  unmatchedIoReady := i.1.unmatchedIoV2 i.2
  accessFaultReady := i.1.hitAccessFaultValid

/-- The SoC comes out of reset, with the controller in any state. -/
def resetState (ctrl : SdramV2) : CfgSoc where
  cfgIf := SdramCfgIf.resetState
  ctrl := ctrl
  isIoReady := false
  unmatchedIoReady := false
  accessFaultReady := false

end

section

variable (wait200us : BitVec 16) (ctrl : SdramV2) (x : ℕ → BusAccess) (e : ℕ → SocV2Env) (n : ℕ)

/-- The registers after `n` cycles. -/
def run : CfgSoc := Sync.run (next wait200us) (resetState ctrl) (fun n => (x n, e n)) n

/-- A request is held until it is answered, and an idle cycle follows the answer. -/
def Disciplined : Prop :=
  ∀ n, (x n).valid = true →
    if (run wait200us ctrl x e n).cpuMemReady (x n) (e n) then (x (n + 1)).valid = false
    else x (n + 1) = x n

end

/-- A configuration access appears on the bus. -/
def Starts (x : ℕ → BusAccess) (n : ℕ) : Prop :=
  (x n).isSdramCfg = true ∧ ∀ m, n = m + 1 → (x m).valid = false

/-- A pulse in cycle `m` is for the access that appears in cycle `a`: no other has appeared
before it. -/
def PulseOf (x : ℕ → BusAccess) (a m : ℕ) : Prop :=
  a < m ∧ ∀ b, a < b → b < m → ¬ Starts x b

/-- An answer in cycle `m` is for the access that appears in cycle `a`. -/
def AnswerOf (x : ℕ → BusAccess) (a m : ℕ) : Prop :=
  a ≤ m ∧ ∀ b, a < b → b ≤ m → ¬ Starts x b

/-- From cycle `a` to cycle `r` there is a request on the bus. -/
def OnBus (x : ℕ → BusAccess) (a r : ℕ) : Prop :=
  a ≤ r ∧ ∀ m, a ≤ m → m ≤ r → (x m).valid = true

section

variable (wait200us : BitVec 16) (ctrl : SdramV2) (x : ℕ → BusAccess) (e : ℕ → SocV2Env)

/-- The access of cycle `a` is taken once, in cycle `p`, with its own address and data, and
answered once, in cycle `r`; a read is answered with the register it selects. -/
structure ServedOnce (a p r : ℕ) : Prop where
  pulseOf : PulseOf x a p
  pulse_iff : ∀ m, PulseOf x a m →
    ((run wait200us ctrl x e m).cfgIf.pulse = true ↔ m = p)
  kind : (run wait200us ctrl x e p).cfgIf.cfgWr = (x a).wr
  addr : (run wait200us ctrl x e p).cfgIf.cfgAddr = (x a).addr.extractLsb' 2 6
  data : (x a).wr = true → (run wait200us ctrl x e p).cfgIf.cfgWdata = (x a).wdata
  onBus : OnBus x a r
  ready_iff : ∀ m, AnswerOf x a m →
    ((run wait200us ctrl x e m).cfgIf.readyR = true ↔ m = r)
  rdata : (x a).wr = false → (run wait200us ctrl x e r).cfgIf.busRdata =
    (run wait200us ctrl x e p).ctrl.regs.cfgRead (run wait200us ctrl x e p).ctrl.initDone
      ((x a).addr.extractLsb' 2 6)

/-- Configuration accesses happen exactly once: every one of them does, and no pulse and no
answer is without one. -/
structure ConfigOnce : Prop where
  served : ∀ a, Starts x a → ∃ p r, ServedOnce wait200us ctrl x e a p r
  pulse : ∀ m, (run wait200us ctrl x e m).cfgIf.pulse = true → ∃ a, Starts x a ∧ PulseOf x a m
  ready : ∀ m, (run wait200us ctrl x e m).cfgIf.readyR = true → ∃ a, Starts x a ∧ OnBus x a m

end

/-! ## One access -/

section

variable {wait200us : BitVec 16} {ctrl : SdramV2} {x : ℕ → BusAccess} {e : ℕ → SocV2Env}
  {a n r : ℕ}

theorem cfgIf_run_succ (n : ℕ) : (run wait200us ctrl x e (n + 1)).cfgIf =
    (run wait200us ctrl x e n).cfgIf.next (x n) (run wait200us ctrl x e n).ctrl.cfgRdata
      (run wait200us ctrl x e n).ctrl.cfgDone := rfl

theorem cfgDone_run_succ (n : ℕ) : (run wait200us ctrl x e (n + 1)).ctrl.cfgDone =
    (run wait200us ctrl x e n).cfgIf.pulse := rfl

/-- The interface is free and silent. -/
structure Quiet (s : SdramCfgIf) : Prop where
  busy : s.busy = false
  pulse : s.pulse = false
  ready : s.readyR = false

/-- Before the first access the interface is silent. -/
theorem quiet_run (h : ∀ m, m < n → (x m).isSdramCfg = false) :
    Quiet (run wait200us ctrl x e n).cfgIf := by
  induction n with
  | zero => exact ⟨rfl, rfl, rfl⟩
  | succ n ih =>
    have hq := ih fun m hm => h m (by omega)
    have hx := h n (Nat.lt_succ_self n)
    rw [cfgIf_run_succ]
    constructor <;> simp [SdramCfgIf.next, SdramCfgIf.pulse, hx, hq.busy]

/-- The pulse, two cycles later the answer, and in between nothing else. -/
theorem pulse_and_answer (hq : Quiet (run wait200us ctrl x e a).cfgIf)
    (ha : (x a).isSdramCfg = true) :
    (run wait200us ctrl x e (a + 1)).cfgIf.pulse = true ∧
      (run wait200us ctrl x e (a + 1)).cfgIf.readyR = false ∧
      (run wait200us ctrl x e (a + 2)).cfgIf.readyR = false ∧
      (run wait200us ctrl x e (a + 3)).cfgIf.busy = false := by
  have h1 : (run wait200us ctrl x e (a + 1)).cfgIf.busy = true ∧
      (run wait200us ctrl x e (a + 1)).cfgIf.pulse = true ∧
      (run wait200us ctrl x e (a + 1)).cfgIf.readyR = false := by
    rw [cfgIf_run_succ]
    simp [SdramCfgIf.next, SdramCfgIf.pulse, ha, hq.busy]
  have hd1 : (run wait200us ctrl x e (a + 1)).ctrl.cfgDone = false := by
    rw [cfgDone_run_succ]
    exact hq.pulse
  have h2 : (run wait200us ctrl x e (a + 2)).cfgIf.busy = true ∧
      (run wait200us ctrl x e (a + 2)).cfgIf.readyR = false := by
    rw [cfgIf_run_succ]
    simp [SdramCfgIf.next, h1.1, hd1]
  have hd2 : (run wait200us ctrl x e (a + 2)).ctrl.cfgDone = true := by
    rw [cfgDone_run_succ]
    exact h1.2.1
  have h3 : (run wait200us ctrl x e (a + 3)).cfgIf.busy = false := by
    rw [cfgIf_run_succ]
    simp [SdramCfgIf.next, h2.1, hd2]
  exact ⟨h1.2.1, h1.2.2, h2.2, h3⟩

/-- A free interface takes whatever configuration access is on the bus. -/
theorem pulse_of_not_busy (hb : (run wait200us ctrl x e n).cfgIf.busy = false)
    (hx : (x n).isSdramCfg = true) : (run wait200us ctrl x e (n + 1)).cfgIf.pulse = true := by
  rw [cfgIf_run_succ]
  simp [SdramCfgIf.next, SdramCfgIf.pulse, hb, hx]

/-! ## The master -/

theorem isSdramCfg_valid {y : BusAccess} (h : y.isSdramCfg = true) : y.valid = true := by
  rw [BusAccess.isSdramCfg, Bool.and_eq_true] at h
  exact h.1

/-- Without an idle cycle the access on the bus stays. -/
theorem Disciplined.eq_of_onBus (hd : Disciplined wait200us ctrl x e) (h : OnBus x a r) :
    x r = x a := by
  obtain ⟨har, hvalid⟩ := h
  induction r, har using Nat.le_induction with
  | base => rfl
  | succ r har ih =>
    have hv := hvalid r har (Nat.le_succ r)
    have hnext := hd r hv
    split at hnext
    · exact absurd (hvalid (r + 1) (by omega) le_rfl) (by simp [hnext])
    · exact hnext.trans (ih fun m hm hm' => hvalid m hm (by omega))

/-- No access appears while another request is on the bus. -/
theorem OnBus.not_starts (h : OnBus x a r) {b : ℕ} (hab : a < b) (hbr : b ≤ r + 1) :
    ¬ Starts x b := by
  intro hb
  obtain ⟨m, rfl⟩ : ∃ m, b = m + 1 := ⟨b - 1, by omega⟩
  have hv := h.2 m (by omega) (by omega)
  rw [hb.2 m rfl] at hv
  exact Bool.noConfusion hv

/-- The first configuration access appears in its first cycle. -/
theorem Disciplined.starts (hd : Disciplined wait200us ctrl x e) (ha : (x a).isSdramCfg = true)
    (hfirst : ∀ m, m < a → (x m).isSdramCfg = false) : Starts x a := by
  refine ⟨ha, fun m hm => ?_⟩
  subst hm
  by_contra hv
  rw [Bool.not_eq_false] at hv
  have hnext := hd m hv
  split at hnext
  · exact absurd (isSdramCfg_valid ha) (by simp [hnext])
  · have hno := hfirst m (Nat.lt_succ_self m)
    rw [← hnext, ha] at hno
    exact Bool.noConfusion hno

/-- An answer while the access is on the bus leaves the access there for a second pulse. -/
theorem not_servedOnce (hd : Disciplined wait200us ctrl x e) {p : ℕ}
    (hq : Quiet (run wait200us ctrl x e a).cfgIf) (ha : Starts x a) :
    ¬ ServedOnce wait200us ctrl x e a p r := by
  intro h
  obtain ⟨hp1, hr1, hr2, hb3⟩ := pulse_and_answer hq ha.1
  have hr0 := hq.ready
  have hrr : (run wait200us ctrl x e r).cfgIf.readyR = true := by
    refine (h.ready_iff r ⟨h.onBus.1, fun b hab hbr => ?_⟩).2 rfl
    exact h.onBus.not_starts hab (by omega)
  -- The answer does not come before the third cycle.
  have har : a + 3 ≤ r := by
    have := h.onBus.1
    by_contra hlt
    obtain rfl | rfl | rfl : r = a ∨ r = a + 1 ∨ r = a + 2 := by omega
    · exact absurd hrr (by simp [hr0])
    · exact absurd hrr (by simp [hr1])
    · exact absurd hrr (by simp [hr2])
  have hbus : OnBus x a (a + 3) :=
    ⟨by omega, fun m hm hm' => h.onBus.2 m hm (by omega)⟩
  have hx3 : (x (a + 3)).isSdramCfg = true := by rw [hd.eq_of_onBus hbus]; exact ha.1
  have hp4 := pulse_of_not_busy hb3 hx3
  have h1 := (h.pulse_iff (a + 1) ⟨by omega, fun b hab hb => by omega⟩).1 hp1
  have h4 := (h.pulse_iff (a + 4)
    ⟨by omega, fun b hab hb => hbus.not_starts hab (by omega)⟩).1 hp4
  omega

end

end CfgSoc

/-- **No configuration access happens exactly once.**  Whatever the other devices, the memory
requests and the state of the controller: for a master that holds a request until it is answered
and then idles a cycle, the accesses happen exactly once if and only if there are none. -/
theorem config_once_iff {wait200us : BitVec 16} {ctrl : SdramV2} {x : ℕ → BusAccess}
    {e : ℕ → SocV2Env} (hd : CfgSoc.Disciplined wait200us ctrl x e) :
    CfgSoc.ConfigOnce wait200us ctrl x e ↔ ∀ n, (x n).isSdramCfg = false := by
  constructor
  · intro h n
    -- The first access, if there is one, is the one that is not served once.
    induction n using Nat.strong_induction_on with
    | _ n ih =>
      by_contra hx
      rw [Bool.not_eq_false] at hx
      have hstart := hd.starts hx ih
      obtain ⟨p, r, hserved⟩ := h.served n hstart
      exact CfgSoc.not_servedOnce hd (CfgSoc.quiet_run ih) hstart hserved
  · intro h
    have hq : ∀ n, CfgSoc.Quiet (CfgSoc.run wait200us ctrl x e n).cfgIf := fun n =>
      CfgSoc.quiet_run fun m _ => h m
    refine ⟨fun a ha => ?_, fun m hm => ?_, fun m hm => ?_⟩
    · exact absurd ha.1 (by simp [h a])
    · exact absurd hm (by simp [(hq m).pulse])
    · exact absurd hm (by simp [(hq m).ready])

/-- The other devices are silent. -/
def SocV2Env.silent : SocV2Env where
  memSdramReady := false
  spiNorReady := false
  spi0Ready := false
  spi1Ready := false
  gpioReady := false
  uartIfReady := false
  sysReady := false
  clintReady := false
  plicReady := false
  divReady := false
  clintValidVis := false
  plicValidVis := false
  div0ValidSeen := false
  div1ValidSeen := false
  sysCpuFreqValid := false
  sysMemSizeValid := false
  req := ⟨false, 0#25, 0#4, 0#32⟩
  sdramDqIn := 0#16
  dqNegedge := 0#16

/-- One write of 5 to `tim_trp_cyc`, held until it is answered in cycle 3. -/
def oneCfgWrite (n : ℕ) : BusAccess := ⟨decide (n ≤ 3), 0x10600000#32, 0xf#4, 5#32, false⟩

theorem oneCfgWrite_disciplined :
    CfgSoc.Disciplined 200#16 (SdramV2.resetState slowParams true) oneCfgWrite
      (fun _ => SocV2Env.silent) := by
  intro n hn
  have hle : n ≤ 3 := by simpa [oneCfgWrite] using hn
  obtain rfl | rfl | rfl | rfl : n = 0 ∨ n = 1 ∨ n = 2 ∨ n = 3 := by omega
  all_goals decide +kernel

/-- A bus without configuration accesses, and a bus with one write. -/
theorem config_once_iff_write :
    CfgSoc.ConfigOnce 200#16 (SdramV2.resetState slowParams true)
        (fun _ => ⟨false, 0#32, 0#4, 0#32, false⟩) (fun _ => SocV2Env.silent) ∧
      ¬ CfgSoc.ConfigOnce 200#16 (SdramV2.resetState slowParams true) oneCfgWrite
        (fun _ => SocV2Env.silent) := by
  constructor
  · refine (config_once_iff fun n hn => ?_).2 fun n => by decide
    exact absurd hn Bool.false_ne_true
  · intro h
    exact absurd ((config_once_iff oneCfgWrite_disciplined).1 h 0) (by decide)

/-- The write reaches the controller twice. -/
theorem config_written_twice :
    CfgSoc.Disciplined 200#16 (SdramV2.resetState slowParams true) oneCfgWrite
        (fun _ => SocV2Env.silent) ∧
      (CfgSoc.run 200#16 (SdramV2.resetState slowParams true) oneCfgWrite
        (fun _ => SocV2Env.silent) 1).cfgIf.cfgWr = true ∧
      (CfgSoc.run 200#16 (SdramV2.resetState slowParams true) oneCfgWrite
        (fun _ => SocV2Env.silent) 4).cfgIf.cfgWr = true ∧
      (CfgSoc.run 200#16 (SdramV2.resetState slowParams true) oneCfgWrite
        (fun _ => SocV2Env.silent) 6).cfgIf.readyR = true ∧
      ¬ CfgSoc.ConfigOnce 200#16 (SdramV2.resetState slowParams true) oneCfgWrite
        (fun _ => SocV2Env.silent) := by
  refine ⟨oneCfgWrite_disciplined, by decide +kernel, by decide +kernel, by decide +kernel, ?_⟩
  intro h
  have hstart : CfgSoc.Starts oneCfgWrite 0 := ⟨by decide, fun m hm => by omega⟩
  obtain ⟨p, r, hserved⟩ := h.served 0 hstart
  exact CfgSoc.not_servedOnce oneCfgWrite_disciplined ⟨rfl, rfl, rfl⟩ hstart hserved

end KianRiscV
