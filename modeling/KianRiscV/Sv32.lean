/-
# The memory management unit

`sv32_translate_instruction_to_physical.v`, `sv32_translate_data_to_physical.v` and
`sv32.v`: the permission checks, the request register and the state machine that
puts page-table reads and the translated access on the bus.
-/
import KianRiscV.TableWalk

namespace KianRiscV

/-! ## Permission checks -/

/-- The reserved combination both translators refuse: writable but not readable. -/
def pteReserved (pte : Word) : Bool := pteW pte && !pteR pte

/-- `page_fault_nxt` of the instruction translator in `S1`. -/
def instrPageFault (priv : BitVec 2) (pte : Word) : Bool :=
  if pteReserved pte then true
  else if isSupervisor priv then (if pteU pte then true else !pteX pte)
  else !(pteX pte && pteU pte)

/-- The entry with `R` set for executable pages under `MXR`. -/
def mxrPte (mstatus pte : Word) : Word :=
  pte ||| (if bitOf mstatus 19 && pteX pte then 2#32 else 0#32)

/-- `page_fault_nxt` of the data translator in `S1`, on the entry of `mxrPte`. -/
def dataPageFault (priv : BitVec 2) (mstatus : Word) (isWrite : Bool) (pte : Word) : Bool :=
  if pteReserved pte then true
  else if isSupervisor priv then
    if pteU pte && !bitOf mstatus 18 then true
    else (isWrite && !pteW pte) || (!isWrite && !pteR pte)
  else (isWrite && !(pteW pte && pteU pte)) || (!isWrite && !(pteR pte && pteU pte))

/-- The privilege the data translator tests in `S0`: `MPP` under `MPRV`. -/
def effectivePriv (priv : BitVec 2) (mstatus : Word) : BitVec 2 :=
  if bitOf mstatus 17 then mppOf mstatus else priv

/-- `pagebase_addr | page_offset`. -/
def physicalOf (pte address : Word) : BitVec 34 :=
  (((pte >>> 12) <<< 12).setWidth 34) ||| ((address &&& 0xFFF#32).setWidth 34)

/-! ## The two translators -/

inductive TranslateState where
  | s0 | s1
  deriving DecidableEq, Repr

/-- The registers of a translator. -/
structure Translator where
  state : TranslateState
  physicalAddress : BitVec 34
  pageFault : Bool
  ready : Bool
  deriving DecidableEq

namespace Translator

/-- The registers after reset. -/
def reset : Translator := ⟨.s0, 0, false, false⟩

/-- `walk_valid`: in `S0`, with a request that is not already answered and not in
machine mode. -/
def walkValid (t : Translator) (machine valid : Bool) : Bool :=
  t.state == .s0 && valid && !t.ready && !machine

/-- One clock edge of a translator.  `machine` is the test of `S0`; `fault` and
`pte` are the check and the entry of `S1`. -/
def next (t : Translator) (machine valid walkReady : Bool) (address pte : Word)
    (fault : Bool) : Translator :=
  match t.state with
  | .s0 =>
    { state := if walkReady then .s1 else .s0
      physicalAddress :=
        if valid && !t.ready && machine then address.setWidth 34 else t.physicalAddress
      pageFault := false
      ready := valid && !t.ready && machine }
  | .s1 =>
    { state := .s0
      physicalAddress := if fault then BitVec.allOnes 34 else physicalOf pte address
      pageFault := fault
      ready := true }

end Translator

/-! ## `sv32` -/

inductive MmuState where
  | idle | translate | access
  deriving DecidableEq, Repr

/-- The registers of `sv32` and its submodules. -/
structure Sv32 (iw dw : ℕ) where
  state : MmuState
  translationPendingQ : Bool
  pageFault : Bool
  faultAddress : Word
  cpuValidQ : Bool
  cpuWstrbQ : BitVec 4
  cpuAddrQ : Word
  cpuWdataQ : Word
  satpQ : Word
  mstatusQ : Word
  privModeQ : BitVec 2
  isInstrQ : Bool
  instrTranslateValid : Bool
  dataTranslateValid : Bool
  instrTranslator : Translator
  dataTranslator : Translator
  ptw : TableWalk iw dw

/-- The request `sv32` sees on its processor side, with the registers that govern
the translation. -/
structure CpuReq where
  valid : Bool
  wstrb : BitVec 4
  addr : Word
  wdata : Word
  isInstruction : Bool
  satp : Word
  mstatus : Word
  privilegeMode : BitVec 2
  deriving DecidableEq

/-- The request `sv32` drives on its memory side. -/
structure BusReq where
  valid : Bool
  addr : BitVec 34
  wstrb : BitVec 4
  wdata : Word
  deriving DecidableEq

namespace Sv32

variable {iw dw : ℕ}

/-- The registers after reset. -/
def IsReset (m : Sv32 iw dw) : Prop :=
  m.state = .idle ∧ m.translationPendingQ = false ∧ m.pageFault = false ∧
    m.faultAddress = 0#32 ∧ m.cpuValidQ = false ∧ m.cpuWstrbQ = 0#4 ∧ m.cpuAddrQ = 0#32 ∧
    m.cpuWdataQ = 0#32 ∧ m.satpQ = 0#32 ∧ m.mstatusQ = 0#32 ∧ m.privModeQ = 0#2 ∧
    m.isInstrQ = false ∧ m.instrTranslateValid = false ∧ m.dataTranslateValid = false ∧
    m.instrTranslator = Translator.reset ∧ m.dataTranslator = Translator.reset ∧
    m.ptw.IsReset

/-! ## Wires of the registers -/

/-- `translation_done`. -/
def translationDone (m : Sv32 iw dw) : Bool := m.instrTranslator.ready || m.dataTranslator.ready

/-- `any_page_fault`. -/
def anyPageFault (m : Sv32 iw dw) : Bool :=
  m.instrTranslator.pageFault || m.dataTranslator.pageFault

/-- `selected_phys_addr`. -/
def selectedPhysAddr (m : Sv32 iw dw) : BitVec 34 :=
  if m.isInstrQ then m.instrTranslator.physicalAddress else m.dataTranslator.physicalAddress

/-- `is_write` of the data translator. -/
def isWrite (m : Sv32 iw dw) : Bool := m.cpuWstrbQ != 0#4

/-- The `S0` machine-mode tests of the translators. -/
def instrMachine (m : Sv32 iw dw) : Bool := isMachine m.privModeQ

def dataMachine (m : Sv32 iw dw) : Bool := isMachine (effectivePriv m.privModeQ m.mstatusQ)

/-- `ptw_valid`. -/
def ptwValid (m : Sv32 iw dw) : Bool :=
  if m.isInstrQ then m.instrTranslator.walkValid m.instrMachine m.instrTranslateValid
  else m.dataTranslator.walkValid m.dataMachine m.dataTranslateValid

/-- The bus request: page-table reads while translating, then the access itself. -/
def busReq (m : Sv32 iw dw) : BusReq :=
  let access : BusReq := ⟨m.cpuValidQ, m.selectedPhysAddr, m.cpuWstrbQ, m.cpuWdataQ⟩
  match m.state with
  | .idle => ⟨false, 0, 0, 0⟩
  | .translate =>
    if m.translationDone && !m.anyPageFault then access
    else
      ⟨m.ptw.memValid m.satpQ m.cpuAddrQ m.isInstrQ, (m.ptw.memAddr m.cpuAddrQ).setWidth 34, 0, 0⟩
  | .access => access

/-- `stall`. -/
def stall (m : Sv32 iw dw) : Bool := m.state == .translate

/-- Whether the bus carries the access itself, so that its answer goes to the
processor. -/
def answers (m : Sv32 iw dw) : Bool :=
  match m.state with
  | .idle => false
  | .translate => m.translationDone && !m.anyPageFault
  | .access => true

/-! ## Wires that depend on the inputs -/

/-- `cpu_ready`. -/
def cpuReady (m : Sv32 iw dw) (memReady : Bool) : Bool := m.answers && memReady

/-- `cpu_rdata`. -/
def cpuRdata (m : Sv32 iw dw) (memRdata : Word) : Word := if m.answers then memRdata else 0#32

/-- `translation_pending`. -/
def translationPending (m : Sv32 iw dw) (r : CpuReq) (memReady : Bool) : Bool :=
  r.valid && !memReady && !m.pageFault

/-- `translation_start`. -/
def translationStart (m : Sv32 iw dw) (r : CpuReq) (memReady : Bool) : Bool :=
  m.translationPending r memReady && !m.translationPendingQ

/-- The inputs of the walker: memory answers reach it only in `STATE_TRANSLATE`. -/
def walkIn (m : Sv32 iw dw) (tlbFlush memReady : Bool) (memRdata : Word) : WalkIn where
  address := m.cpuAddrQ
  satp := m.satpQ
  isInstruction := m.isInstrQ
  tlbFlush := tlbFlush
  valid := m.ptwValid
  memReady := m.state == .translate && memReady
  memRdata := if m.state == .translate then memRdata else 0#32

/-- `state_d`. -/
def stateNxt (m : Sv32 iw dw) (start memReady : Bool) : MmuState :=
  match m.state with
  | .idle => if start then .translate else .idle
  | .translate =>
    if m.anyPageFault then .idle else if m.translationDone then .access else .translate
  | .access => if memReady then .idle else .access

/-! ## The clock edge -/

/-- One clock edge of `sv32`. -/
def next (m : Sv32 iw dw) (r : CpuReq) (tlbFlush memReady : Bool) (memRdata : Word) :
    Sv32 iw dw where
  state := m.stateNxt (m.translationStart r memReady) memReady
  translationPendingQ := m.translationPending r memReady
  pageFault := m.anyPageFault
  faultAddress := if m.anyPageFault then m.cpuAddrQ else m.faultAddress
  cpuValidQ := if m.translationStart r memReady then r.valid else m.cpuValidQ
  cpuWstrbQ := if m.translationStart r memReady then r.wstrb else m.cpuWstrbQ
  cpuAddrQ := if m.translationStart r memReady then r.addr else m.cpuAddrQ
  cpuWdataQ := if m.translationStart r memReady then r.wdata else m.cpuWdataQ
  satpQ := if m.translationStart r memReady then r.satp else m.satpQ
  mstatusQ := if m.translationStart r memReady then r.mstatus else m.mstatusQ
  privModeQ := if m.translationStart r memReady then r.privilegeMode else m.privModeQ
  isInstrQ := if m.translationStart r memReady then r.isInstruction else m.isInstrQ
  instrTranslateValid :=
    if m.translationStart r memReady then r.isInstruction
    else if m.translationDone then false else m.instrTranslateValid
  dataTranslateValid :=
    if m.translationStart r memReady then !r.isInstruction
    else if m.translationDone then false else m.dataTranslateValid
  instrTranslator :=
    m.instrTranslator.next m.instrMachine m.instrTranslateValid (m.isInstrQ && m.ptw.ready)
      m.cpuAddrQ m.ptw.pte (instrPageFault m.privModeQ m.ptw.pte)
  dataTranslator :=
    m.dataTranslator.next m.dataMachine m.dataTranslateValid (!m.isInstrQ && m.ptw.ready)
      m.cpuAddrQ (mxrPte m.mstatusQ m.ptw.pte)
      (dataPageFault m.privModeQ m.mstatusQ m.isWrite (mxrPte m.mstatusQ m.ptw.pte))
  ptw := m.ptw.next (m.walkIn tlbFlush memReady memRdata)

end Sv32

end KianRiscV
