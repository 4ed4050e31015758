/-
# Read-modify-writes

`AMOSWAP.W` to `AMOMAXU.W` from one `FETCH` to the next.  The registers are written between the
two accesses: `AMO_OP_WB` writes the old word to `rd`, `AMO_OP_EXEC` computes the new one and
`AMO_OP_WRITE` stores it.  What is used after the write-back was saved before it: the address in
`amo_buffer_addr`, and `rs2` in `A2`, which in `AMO_OP_EXEC` still holds the value read in
`AMO_OP_WB`.

* `alu_amoCtrl` : the operation that `AMO_OP_EXEC` selects is the one of the instruction;
* `System.dataPte_next` : between the two accesses the translation of the address does not change;
* `System.rmw_exact` : the read-modify-write is exact, whatever registers it names.
-/
import KianRiscV.LoadsStores

namespace KianRiscV

open Rv32im

/-! ## The decoders -/

section Decode

variable {w : Word} {i : Amo} {f : AmoFn}

theorem decodeAmo_cases (h : decodeAmo w = some i) :
    opOf w = 0x2F#7 ∧ funct3Of w = 0x2#3 ∧ amoFn (funct5Of w) = some i.fn ∧
      i = ⟨i.fn, rdOf w, rs1Of w, rs2Of w⟩ := by
  unfold decodeAmo at h
  split_ifs at h with hop
  rw [Option.map_eq_some_iff] at h
  obtain ⟨fn, hfn, rfl⟩ := h
  exact ⟨hop.1, hop.2, hfn, rfl⟩

/-- The code of an operation. -/
def amoFunct5 : AmoFn → BitVec 5
  | .swap => 0b00001#5
  | .add => 0b00000#5
  | .xor => 0b00100#5
  | .and => 0b01100#5
  | .or => 0b01000#5
  | .min => 0b10000#5
  | .max => 0b10100#5
  | .minu => 0b11000#5
  | .maxu => 0b11100#5

theorem funct5Of_eq (h : amoFn (funct5Of w) = some f) : funct5Of w = amoFunct5 f := by
  revert h
  generalize funct5Of w = g
  cases f <;> revert g <;> decide

/-- An operation of the A extension is neither `LR.W` nor `SC.W`. -/
theorem isAmoRmw_of_amoFn (h : amoFn (funct5Of w) = some f) :
    isAmoRmw w = true ∧ isAmoLrW w = false ∧ isAmoScW w = false ∧
      isAmoswapW w = decide (f = .swap) := by
  simp only [isAmoRmw, isAmoLrW, isAmoScW, isAmoaddW, isAmoswapW, isAmoxorW, isAmoandW, isAmoorW,
    isAmominW, isAmomaxW, isAmominuW, isAmomaxuW, funct5Of_eq h]
  cases f <;> exact ⟨rfl, rfl, rfl, rfl⟩

/-- The ALU operation of a read-modify-write. -/
def amoCtrl : AmoFn → AluCtrl
  | .swap | .add => .addAddi
  | .xor => .xorXori
  | .and => .andAndi
  | .or => .orOri
  | .min => .min
  | .max => .max
  | .minu => .minu
  | .maxu => .maxu

theorem aluDecoder_amo (h : amoFn (funct5Of w) = some f) (b : Bool) :
    aluDecoder b w .amo = amoCtrl f := by
  simp only [aluDecoder, amoOpOf, isAmoLrW, isAmoScW, isAmoaddW, isAmoswapW, isAmoxorW, isAmoandW,
    isAmoorW, isAmominW, isAmomaxW, isAmominuW, isAmomaxuW, funct5Of_eq h]
  cases f <;> rfl

/-- `AMO_OP_EXEC` computes the operation; for `AMOSWAP.W` it adds `rs2` to zero. -/
theorem alu_amoCtrl (f : AmoFn) (a b : Word) :
    alu (if f = .swap then 0#32 else a) b (amoCtrl f) = f.eval a b := by
  cases f with
  | max =>
    show (if b.sle a then a else b) = if a.toInt < b.toInt then b else a
    by_cases hlt : a.toInt < b.toInt
    · rw [if_pos hlt, if_neg (by simpa [BitVec.sle] using hlt)]
    · rw [if_neg hlt, if_pos (by simpa [BitVec.sle] using hlt)]
  | maxu =>
    show (if b.ule a then a else b) = if a.toNat < b.toNat then b else a
    by_cases hlt : a.toNat < b.toNat
    · rw [if_pos hlt, if_neg (by simpa [BitVec.ule] using hlt)]
    · rw [if_neg hlt, if_pos (by simpa [BitVec.ule] using hlt)]
  | _ => simp [alu, amoCtrl, AmoFn.eval, BitVec.slt, BitVec.ult]

/-- The accesses are those of whole words. -/
theorem amo_decoders (h3 : funct3Of w = 0x2#3) (h : amoFn (funct5Of w) = some f)
    (low : BitVec 2) :
    loadDecoder w = .lw ∧ storeDecoder w = .sw ∧ isLoadUnaligned w low = (low != 0#2) ∧
      isStoreUnaligned w low = (low != 0#2) := by
  obtain ⟨-, hlr, hsc, -⟩ := isAmoRmw_of_amoFn h
  simp [loadDecoder, storeDecoder, isLoadUnaligned, isStoreUnaligned, amoDataLoad,
    amoOperationStore, hlr, hsc, h3]

end Decode

/-! ## The translation -/

/-- What the counters leave alone decides about translations. -/
theorem CsrUnit.CountsOn.translation {c c' : CsrUnit} (h : c.CountsOn c') :
    c'.satp = c.satp ∧ c'.mstatus = c.mstatus ∧ c'.privilegeMode = c.privilegeMode := by
  unfold CountsOn at h
  rw [h]
  exact ⟨rfl, rfl, rfl⟩

/-- Requests for the same address that get through with the same entry get to the same place,
reads and writes alike. -/
theorem CpuReq.physical_unique {r r' : CpuReq} {pte : Option Word} {pa pa' : BitVec 34}
    (h : r.outcomeOf pte = some (.physical pa)) (h' : r'.outcomeOf pte = some (.physical pa'))
    (haddr : r'.addr = r.addr) (hins : r'.isInstruction = r.isInstruction)
    (hms : r'.mstatus = r.mstatus) (hpriv : r'.privilegeMode = r.privilegeMode) : pa' = pa := by
  have hmach : r'.machine = r.machine := by simp only [machine, hins, hms, hpriv]
  unfold outcomeOf at h h'
  rw [hmach, haddr] at h'
  cases hm : r.machine with
  | true =>
    rw [hm, if_pos rfl] at h h'
    exact Outcome.physical.inj (Option.some.inj (h'.symm.trans h))
  | false =>
    rw [hm, if_neg Bool.false_ne_true, Option.map_eq_some_iff] at h h'
    obtain ⟨e, he, hc⟩ := h
    obtain ⟨e', he', hc'⟩ := h'
    obtain rfl : e = e' := Option.some.inj (he.symm.trans he')
    unfold check at hc hc'
    split_ifs at hc hc'
    rw [seenPte, hins, hms, haddr] at hc'
    exact Outcome.physical.inj (hc'.symm.trans hc)

namespace System

variable {iw dw : ℕ} {p : Params} {s t : System iw dw} {i : SystemIn} {w : Word} {a : Word}

/-- The entry that translates the data address `a`. -/
def dataPte (a : Word) (t : System iw dw) : Option Word :=
  mmuPte t.cpu.mmu.ptw t.mem.content t.cpu.core.csr.satp a false

/-- It does not change while the memory management unit rests or works on a data access to `a`. -/
theorem dataPte_next (hin : t.InStep) (hmem : (t.next p i).mem.content = t.mem.content)
    (hc : Core.touchesCsr t.cpu.core.state = false) (hd : t.cpu.core.state ≠ .decode)
    (hreq : t.cpu.mmu.state = .idle ∨ t.cpu.core.memAddr = a ∧ t.cpu.core.isInstr = false) :
    (t.next p i).dataPte a = t.dataPte a := by
  have hflush := Core.tlbFlush_of_not_touchesCsr hc hd (t.coreIn i)
  have hsatp : (t.next p i).cpu.core.csr.satp = t.cpu.core.csr.satp :=
    (CsrUnit.CountsOn.translation (CsrUnit.linesOnly_of_quiet
      (Core.csrIn_quiet hc (t.coreIn i)) p.systemClk).rest).1
  have hmmu : (t.next p i).cpu.mmu
      = t.cpu.mmu.next t.cpu.req false (t.memReady i) (t.cpuIn i).memRdata := by
    rw [← hflush]
    rfl
  unfold dataPte
  rw [hmem, hsatp, hmmu]
  rcases hreq with hidle | ⟨haddr, hins⟩
  · have hs0 : t.cpu.mmu.ptw.state ≠ .s2 := by
      intro hs2
      exact absurd (hidle.symm.trans (hin.phase.read_of_s2 hs2).state) (by decide)
    exact mmuPte_next (TableWalk.fillsTlb_of_ne_s2 hs0) rfl _ _ _ _
  · have hpte : mmuPte
        (t.cpu.mmu.next t.cpu.req false (t.memReady i) (t.cpuIn i).memRdata).ptw t.mem.content
          t.cpu.req.satp t.cpu.req.addr t.cpu.req.isInstruction = _ :=
      hin.phase.mmuPte_next fun _ _ => memRdata_cases t i
    rw [show t.cpu.req.addr = a from haddr, show t.cpu.req.isInstruction = false from hins] at hpte
    exact hpte

/-! ## The two accesses -/

/-- The word of a read-modify-write. -/
structure IsAmo (w : Word) (f : AmoFn) : Prop where
  op : opOf w = 0x2F#7
  funct3 : funct3Of w = 0x2#3
  fn : amoFn (funct5Of w) = some f

variable {f : AmoFn} {content : BitVec 32 → Word} {x : Arch} {old : Word}

/-- `AMO_OP_READ` presents the address, and the address is saved. -/
structure AmoReading (w : Word) (s : System iw dw) (t : System iw dw) : Prop
    extends InHand w s.mem.content s.cpu.core.arch t where
  state : t.cpu.core.state = .amoOpRead
  address : t.cpu.core.aluOut = s.cpu.core.arch.x (rs1Of w)
  saved : t.cpu.core.amoBufferAddr = s.cpu.core.arch.x (rs1Of w)

/-- From `AMO_OP_WB` on: the state, the registers, the saved address and the saved data. -/
structure AmoStage (w : Word) (s : System iw dw) (x : Arch) (st : FsmState) (data : Word)
    (t : System iw dw) : Prop extends InHand w s.mem.content x t where
  state : t.cpu.core.state = st
  saved : t.cpu.core.amoBufferAddr = s.cpu.core.arch.x (rs1Of w)
  data : t.cpu.core.amoTemporaryData = data

/-- `DECODE` goes to `AMO_ADDR`. -/
theorem IsAmo.decode_next (hw : IsAmo w f) (h : Underway w s t) (hst : t.cpu.core.state = .decode)
    (hirq : (t.cpu.core.fsmIn (t.coreIn i)).irq.pending = false) :
    (t.next p i).cpu.core.state = .amoAddr ∧ Underway w s (t.next p i) ∧
      (t.next p i).cpu.core.a1 = s.cpu.core.arch.x (rs1Of w) := by
  obtain ⟨hnext, hmem, -⟩ := next_of_idle (p := p) (i := i) h.inStep (by rw [hst]; rfl)
  obtain ⟨hu, ha1, -⟩ := h.next (by rw [hst]; rfl) hmem
  refine ⟨?_, hu, ha1⟩
  have hinstr : (t.cpu.core.fsmIn (t.coreIn i)).instr = w := h.flight.instr
  rw [hnext, hst]
  simp [stateNxt, decodeNxt, hirq, hinstr, isLoad, isStore, isRtype, isItype, isJal, isJalr,
    isBranch, isLui, isAuipc, isCsr, isAmo, hw.op, hw.funct3]

/-- `AMO_ADDR` saves the address. -/
theorem IsAmo.address_next (hw : IsAmo w f) (h : Underway w s t)
    (hst : t.cpu.core.state = .amoAddr) (ha1 : t.cpu.core.a1 = s.cpu.core.arch.x (rs1Of w)) :
    AmoReading w s (t.next p i) := by
  have hv : t.cpu.core.memValid = false := by
    unfold Core.memValid
    rw [hst]
    rfl
  have hres : t.cpu.core.aluResult = s.cpu.core.arch.x (rs1Of w) := by
    rw [← ha1]
    simp [Core.aluResult, Core.srcA, Core.srcB, Core.ctl, hst, moore, aluDecoder, alu]
  obtain ⟨hnext, hmem, -⟩ := next_of_idle (p := p) (i := i) h.inStep (by rw [hst]; rfl)
  obtain ⟨hu, -, -⟩ := h.inHand.next (p := p) (i := i) (by rw [hst]; rfl) hmem
  refine ⟨hu, ?_, ?_, ?_⟩
  · have hinstr : (t.cpu.core.fsmIn (t.coreIn i)).instr = w := h.flight.instr
    obtain ⟨hrmw, hlr, hsc, -⟩ := isAmoRmw_of_amoFn hw.fn
    rw [hnext, hst]
    simp [stateNxt, hinstr, hrmw, hlr, hsc]
  · rw [← hres, next_core]
    simp [Core.next, hv]
  · rw [← hres, next_core]
    simp [Core.next, Core.ctl, hst, moore]

section Read

/-- The wires of `AMO_OP_READ` at a word address. -/
theorem AmoReading.wires (h : AmoReading w s t) (hw : IsAmo w f)
    (hal : (s.cpu.core.arch.x (rs1Of w)).extractLsb' 0 2 = 0#2) :
    t.cpu.core.memAddr = s.cpu.core.arch.x (rs1Of w) ∧ t.cpu.core.memWstrb = 0#4 ∧
      t.cpu.core.loadUnaligned = false ∧ t.cpu.core.memValid = true ∧
      t.cpu.core.isInstr = false := by
  have haddr : t.cpu.core.memAddr = s.cpu.core.arch.x (rs1Of w) := by
    rw [← h.address]
    simp [Core.memAddr, Core.result, Core.ctl, h.state, moore]
  have hun : t.cpu.core.loadUnaligned = false := by
    rw [Core.loadUnaligned, haddr, hal, h.flight.instr,
      (amo_decoders hw.funct3 hw.fn 0#2).2.2.1]
    rfl
  refine ⟨haddr, ?_, hun, ?_, ?_⟩
  · simp [Core.memWstrb, Core.ctl, h.state, moore]
  · simp [Core.memValid, h.state, KianRiscV.memValid, hun]
  · rw [Core.isInstr, h.state]
    rfl

/-- A cycle of the read, answered or not, keeps the address and what it translates to. -/
theorem AmoReading.keeps (h : AmoReading w s t) (hw : IsAmo w f)
    (hal : (s.cpu.core.arch.x (rs1Of w)).extractLsb' 0 2 = 0#2) :
    InHand w s.mem.content s.cpu.core.arch (t.next p i) ∧
      (t.next p i).cpu.core.aluOut = s.cpu.core.arch.x (rs1Of w) ∧
      (t.next p i).cpu.core.amoBufferAddr = s.cpu.core.arch.x (rs1Of w) ∧
      (t.next p i).dataPte (s.cpu.core.arch.x (rs1Of w))
        = t.dataPte (s.cpu.core.arch.x (rs1Of w)) := by
  obtain ⟨haddr, hstrb, -, hv, hins⟩ := h.wires hw hal
  have hmem : (t.next p i).mem.content = t.mem.content := content_next_of_read h.inStep.phase hstrb
  refine ⟨(h.toInHand.next (by rw [h.state]; rfl) hmem).1, ?_, ?_,
    dataPte_next h.inStep hmem (by rw [h.state]; rfl) (by rw [h.state]; decide)
      (.inr ⟨haddr, hins⟩)⟩
  · rw [← h.address, next_core]
    simp [Core.next, hv]
  · rw [← h.saved, next_core]
    simp [Core.next, Core.ctl, h.state, moore]

/-- A cycle without answer. -/
theorem AmoReading.wait (h : AmoReading w s t) (hw : IsAmo w f)
    (hal : (s.cpu.core.arch.x (rs1Of w)).extractLsb' 0 2 = 0#2)
    (hr : (t.coreIn i).memReady = false) (hpf : (t.coreIn i).pageFault = false) :
    AmoReading w s (t.next p i) := by
  obtain ⟨-, -, hun, -, -⟩ := h.wires hw hal
  obtain ⟨hin, hout, hsaved, -⟩ := h.keeps (p := p) (i := i) hw hal
  refine ⟨hin, ?_, hout, hsaved⟩
  cases hstall : (t.coreIn i).stall with
  | true => rw [next_core, Core.next_state_of_stall _ _ hstall, h.state]
  | false =>
    rw [next_core, Core.next_state _ _ hstall, h.state]
    simp [stateNxt, accessNxt, Core.fsmIn, hun, hr, hpf]

/-- The answer is saved and goes to `AMO_OP_WB`. -/
theorem AmoReading.answer (h : AmoReading w s t) (hw : IsAmo w f)
    (hal : (s.cpu.core.arch.x (rs1Of w)).extractLsb' 0 2 = 0#2)
    (hr : (t.coreIn i).memReady = true) (haf : (t.coreIn i).accessFault = false) :
    AmoStage w s s.cpu.core.arch .amoOpWb (s.mem.content (wordAddr t.busReq.addr)) (t.next p i) ∧
      (t.next p i).cpu.core.dataLatched = s.mem.content (wordAddr t.busReq.addr) := by
  obtain ⟨hstall, hpf, -, -⟩ := h.inStep.answered hr
  obtain ⟨-, -, hun, -, -⟩ := h.wires hw hal
  obtain ⟨hin, -, hsaved, -⟩ := h.keeps (p := p) (i := i) hw hal
  have hdata : t.cpu.core.loadData (t.coreIn i) = s.mem.content (wordAddr t.busReq.addr) := by
    rw [Core.loadData, h.flight.instr, (amo_decoders hw.funct3 hw.fn 0#2).1,
      (h.inStep.readAnswer hr haf).1, h.content]
    rfl
  refine ⟨⟨hin, ?_, hsaved, ?_⟩, hdata⟩
  · rw [next_core, Core.next_state _ _ hstall, h.state]
    simp [stateNxt, accessNxt, Core.fsmIn, hun, hr, hpf, haf]
  · rw [← hdata, next_core]
    simp [Core.next, Core.ctl, h.state, moore, amoTempWriteOperation, hun]

end Read

section Modify

variable {st : FsmState} {data : Word}

/-- Between the accesses the bus is at rest, and the address stays saved. -/
theorem AmoStage.rest (h : AmoStage w s x st data t)
    (hst : st = .amoOpWb ∨ st = .amoOpExec ∨ st = .amoOpAddr) :
    (t.next p i).cpu.core.state = stateNxt st (t.cpu.core.fsmIn (t.coreIn i)) ∧
      (t.next p i).mem.content = t.mem.content ∧
      (t.next p i).cpu.core.amoBufferAddr = s.cpu.core.arch.x (rs1Of w) ∧
      (t.next p i).cpu.mmu.state = .idle ∧
      (t.next p i).dataPte (s.cpu.core.arch.x (rs1Of w))
        = t.dataPte (s.cpu.core.arch.x (rs1Of w)) := by
  have hbus : waitsForBus t.cpu.core.state = false ∧ Core.touchesCsr t.cpu.core.state = false ∧
      t.cpu.core.state ≠ .decode ∧ t.cpu.core.memValid = false ∧
      t.cpu.core.ctl.amoBufferedAddress = false := by
    unfold Core.memValid Core.ctl
    rw [h.state]
    rcases hst with rfl | rfl | rfl <;> exact ⟨rfl, rfl, FsmState.noConfusion, rfl, rfl⟩
  obtain ⟨hb, hc, hd, hv, hkeep⟩ := hbus
  obtain ⟨hnext, hmem, hidle⟩ := next_of_idle (p := p) (i := i) h.inStep hb
  rw [h.state] at hnext
  refine ⟨hnext, hmem, ?_, hidle hv, dataPte_next h.inStep hmem hc hd (.inl (h.inStep.idle hb))⟩
  rw [← h.saved, next_core]
  simp [Core.next, hkeep]

/-- The registers with the old word in `rd`. -/
def withOld (w old : Word) (x : Arch) : Arch :=
  ⟨fun r => if r = rdOf w ∧ r ≠ 0#5 then old else x.x r, x.pc⟩

/-- `AMO_OP_WB` writes `rd`; in the same cycle `A2` is loaded with `rs2` as it was. -/
theorem AmoStage.writeBack_next (h : AmoStage w s x .amoOpWb old t)
    (hlatched : t.cpu.core.dataLatched = old) :
    AmoStage w s (withOld w old x) .amoOpExec old (t.next p i) ∧
      (t.next p i).cpu.core.a2 = x.x (rs2Of w) := by
  obtain ⟨hnext, hmem, hsaved, -, -⟩ := h.rest (p := p) (i := i) (.inl rfl)
  have harch := h.flight.writeBack (p := p) (i := t.coreIn i) (by rw [h.state]; rfl)
  have hres : t.cpu.core.result = old := by
    rw [← hlatched]
    simp [Core.result, Core.ctl, h.state, moore]
  obtain ⟨hinstr, hold⟩ := Core.next_instr (p := p) (i := t.coreIn i)
    (show t.cpu.core.state ≠ .fetch by rw [h.state]; decide)
  rw [hres] at harch
  refine ⟨⟨⟨next_inStep_of_not_isInstr h.inStep (by rw [Core.isInstr, h.state]; rfl),
    hmem.trans h.content, ⟨hinstr.trans h.flight.instr, hold.trans h.flight.oldPc, harch⟩,
    h.settled.next (by rw [h.state]; rfl) (by rw [h.state]; decide)⟩, hnext, hsaved, ?_⟩, ?_⟩
  · rw [← h.data, next_core]
    simp [Core.next, h.state, amoTempWriteOperation]
  · have hx : Core.readReg t.cpu.core.regs = x.x := congrArg Arch.x h.flight.arch
    show Core.readReg t.cpu.core.regs (rs2Of t.cpu.core.instr) = _
    rw [hx, h.flight.instr]

/-- `AMO_OP_EXEC` computes the new word. -/
theorem AmoStage.exec_next (h : AmoStage w s x .amoOpExec old t) (hw : IsAmo w f) {b : Word}
    (ha2 : t.cpu.core.a2 = b) :
    AmoStage w s x .amoOpAddr (f.eval old b) (t.next p i) := by
  obtain ⟨hnext, hmem, hsaved, -, -⟩ := h.rest (p := p) (i := i) (.inr (.inl rfl))
  refine ⟨(h.toInHand.next (by rw [h.state]; rfl) hmem).1, hnext, hsaved, ?_⟩
  have hsrcA : t.cpu.core.srcA = if f = .swap then 0#32 else old := by
    have hsw := (isAmoRmw_of_amoFn hw.fn).2.2.2
    rw [← h.flight.instr] at hsw
    rw [← h.data]
    by_cases hf : f = .swap <;> simp [Core.srcA, Core.ctl, h.state, moore, hsw, hf]
  have hsrcB : t.cpu.core.srcB = b := by
    rw [← ha2]
    simp [Core.srcB, Core.ctl, h.state, moore]
  have hres : t.cpu.core.aluResult = f.eval old b := by
    have hop : t.cpu.core.ctl.aluOp = .amo := by simp [Core.ctl, h.state, moore]
    rw [Core.aluResult, hsrcA, hsrcB, hop, h.flight.instr, aluDecoder_amo hw.fn, alu_amoCtrl]
  rw [← hres, next_core]
  simp [Core.next, Core.ctl, h.state, moore, amoTempWriteOperation]

/-- `AMO_OP_ADDR` computes an address that is not used. -/
theorem AmoStage.addr_next (h : AmoStage w s x .amoOpAddr data t) :
    AmoStage w s x .amoOpWrite data (t.next p i) := by
  obtain ⟨hnext, hmem, hsaved, -, -⟩ := h.rest (p := p) (i := i) (.inr (.inr rfl))
  refine ⟨(h.toInHand.next (by rw [h.state]; rfl) hmem).1, hnext, hsaved, ?_⟩
  rw [← h.data, next_core]
  simp [Core.next, h.state, amoTempWriteOperation]

end Modify

section Write

variable {data : Word}

/-- `AMO_OP_WRITE` waits; while the memory management unit is busy it holds the data. -/
structure AmoWriting (w : Word) (s : System iw dw) (x : Arch) (data : Word)
    (t : System iw dw) : Prop extends AmoStage w s x .amoOpWrite data t where
  wdata : t.cpu.mmu.state ≠ .idle → t.cpu.mmu.cpuWdataQ = t.cpu.core.memWdata

/-- The wires of `AMO_OP_WRITE` at a word address. -/
theorem AmoStage.wires (h : AmoStage w s x .amoOpWrite data t) (hw : IsAmo w f)
    (hal : (s.cpu.core.arch.x (rs1Of w)).extractLsb' 0 2 = 0#2) :
    t.cpu.core.memAddr = s.cpu.core.arch.x (rs1Of w) ∧ t.cpu.core.memWstrb = 0xf#4 ∧
      t.cpu.core.memWdata = data ∧ t.cpu.core.storeUnaligned = false ∧
      t.cpu.core.memValid = true ∧ t.cpu.core.isInstr = false := by
  obtain ⟨-, hsw, -, halign⟩ := amo_decoders hw.funct3 hw.fn 0#2
  have haddr : t.cpu.core.memAddr = s.cpu.core.arch.x (rs1Of w) := by
    rw [← h.saved]
    simp [Core.memAddr, Core.result, Core.ctl, h.state, moore]
  have hun : t.cpu.core.storeUnaligned = false := by
    rw [Core.storeUnaligned, haddr, hal, h.flight.instr, halign]
    rfl
  refine ⟨haddr, ?_, ?_, hun, ?_, ?_⟩
  · simp [Core.memWstrb, Core.ctl, h.state, moore, h.flight.instr, hsw, storeWmask]
  · rw [← h.data]
    simp [Core.memWdata, Core.ctl, h.state, moore, h.flight.instr, hsw, storeAlignment]
  · simp [Core.memValid, h.state, KianRiscV.memValid, hun]
  · rw [Core.isInstr, h.state]
    rfl

/-- A cycle without answer. -/
theorem AmoWriting.wait (h : AmoWriting w s x data t) (hw : IsAmo w f)
    (hal : (s.cpu.core.arch.x (rs1Of w)).extractLsb' 0 2 = 0#2)
    (hr : (t.coreIn i).memReady = false) (hpf : (t.coreIn i).pageFault = false) :
    AmoWriting w s x data (t.next p i) ∧
      (t.next p i).dataPte (s.cpu.core.arch.x (rs1Of w))
        = t.dataPte (s.cpu.core.arch.x (rs1Of w)) := by
  obtain ⟨haddr, -, hdata, hun, -, hins⟩ := h.wires hw hal
  have hmem : (t.next p i).mem.content = t.mem.content := content_next hr
  have hstage : AmoStage w s x .amoOpWrite data (t.next p i) := by
    refine ⟨(h.toInHand.next (by rw [h.state]; rfl) hmem).1, ?_, ?_, ?_⟩
    · cases hstall : (t.coreIn i).stall with
      | true => rw [next_core, Core.next_state_of_stall _ _ hstall, h.state]
      | false =>
        rw [next_core, Core.next_state _ _ hstall, h.state]
        simp [stateNxt, accessNxt, Core.fsmIn, hun, hr, hpf]
    · rw [← h.saved, next_core]
      simp [Core.next, Core.ctl, h.state, moore]
    · rw [← h.data, next_core]
      simp [Core.next, h.state, amoTempWriteOperation]
  refine ⟨⟨hstage, fun hb => wdata_next h.wdata ?_ hb⟩, dataPte_next h.inStep hmem
    (by rw [h.state]; rfl) (by rw [h.state]; decide) (.inr ⟨haddr, hins⟩)⟩
  rw [(hstage.wires hw hal).2.2.1, hdata]

/-- The answer ends the instruction, and the word is stored. -/
theorem AmoWriting.answer (h : AmoWriting w s x data t) (hw : IsAmo w f)
    (hal : (s.cpu.core.arch.x (rs1Of w)).extractLsb' 0 2 = 0#2)
    (hr : (t.coreIn i).memReady = true) (haf : (t.coreIn i).accessFault = false)
    (hpc : x.pc.extractLsb' 0 2 = 0#2) :
    (t.next p i).Begins ∧ (t.next p i).cpu.core.Settled ∧
      (t.next p i).cpu.core.arch = ⟨x.x, x.pc + 4#32⟩ ∧
      (t.next p i).mem.content
        = fun b => if b = wordAddr t.busReq.addr then data else s.mem.content b := by
  obtain ⟨hstall, hpf, -, hbusy⟩ := h.inStep.answered hr
  obtain ⟨-, hstrb, hdata, hun, -, hins⟩ := h.wires hw hal
  have hset : (t.next p i).cpu.core.Settled :=
    h.settled.next (by rw [h.state]; rfl) (by rw [h.state]; decide)
  obtain ⟨hfl, -, -⟩ := h.flight.carry (p := p) (i := t.coreIn i) (by rw [h.state]; decide)
    (by rw [h.state]; rfl) (Core.pcWrite_of_not_movesPc (by rw [h.state]; rfl))
  have hpc' : (t.next p i).cpu.core.pc = x.pc + 4#32 := congrArg Arch.pc hfl.arch
  refine ⟨⟨?_, next_inStep_of_not_isInstr h.inStep hins, hset.exceptionSelect, ?_⟩, hset,
    hfl.arch, ?_⟩
  · rw [next_core, Core.next_state _ _ hstall, h.state]
    simp [stateNxt, accessNxt, Core.fsmIn, hun, hr, hpf, haf]
  · rw [hpc']
    exact aligned_add_four hpc
  · rw [(h.inStep.dataAnswer (p := p) hr haf (h.wdata hbusy)).2.2.2, hstrb, hdata, h.content]
    funext b
    rw [mergeBytes_full]

end Write

/-! ## From `FETCH` to `FETCH` -/

section Run

variable {inp : ℕ → SystemIn} {k m n : ℕ}

/-- The access presented from cycle `k` on is answered in cycle `m`, without a fault. -/
structure AnsweredIn (p : Params) (s : System iw dw) (inp : ℕ → SystemIn) (k m : ℕ) : Prop where
  le : k ≤ m
  wait : ∀ j, k ≤ j → j < m →
    ((Sync.run (System.next p) s inp j).coreIn (inp j)).memReady = false ∧
      ((Sync.run (System.next p) s inp j).coreIn (inp j)).pageFault = false
  ready : ((Sync.run (System.next p) s inp m).coreIn (inp m)).memReady = true
  noAccessFault : ((Sync.run (System.next p) s inp m).coreIn (inp m)).accessFault = false

/-- The fetch is answered in cycle `k`, the read in cycle `m` and the write in cycle `n`. -/
structure ServesRmw (p : Params) (s : System iw dw) (inp : ℕ → SystemIn) (w : Word) (k m n : ℕ) :
    Prop extends Fetches p s inp w k where
  read : AnsweredIn p s inp (k + 3) m
  write : AnsweredIn p s inp (m + 4) n

/-- The states of a read-modify-write. -/
def rmwState : FsmState → Bool
  | .decode | .amoAddr | .amoOpRead | .amoOpWb | .amoOpExec | .amoOpAddr | .amoOpWrite => true
  | _ => false

theorem rmwState_quiet {st : FsmState} (h : rmwState st = true) :
    st ≠ .fetch ∧ Core.touchesCsr st = false ∧ Core.reserves st = false := by
  cases st <;> first | exact absurd h (by decide) | exact ⟨by decide, rfl, rfl⟩

/-- The cycles of a read-modify-write that finds the word `old`. -/
structure RmwRun (w : Word) (f : AmoFn) (s : System iw dw) (c : ℕ → System iw dw) (old : Word)
    (k m n : ℕ) : Prop where
  decode : (c (k + 1)).cpu.core.state = .decode
  address : (c (k + 2)).cpu.core.state = .amoAddr
  read : ∀ j, k + 3 ≤ j → j ≤ m → AmoReading w s (c j)
  writeBack : AmoStage w s s.cpu.core.arch .amoOpWb old (c (m + 1))
  exec : AmoStage w s (withOld w old s.cpu.core.arch) .amoOpExec old (c (m + 2))
  unused : (c (m + 3)).cpu.core.state = .amoOpAddr
  write : ∀ j, m + 4 ≤ j → j ≤ n → AmoWriting w s (withOld w old s.cpu.core.arch)
    (f.eval old (s.cpu.core.arch.x (rs2Of w))) (c j)
  entry : (c n).dataPte (s.cpu.core.arch.x (rs1Of w)) = (c m).dataPte (s.cpu.core.arch.x (rs1Of w))

theorem AmoReading.run (h : AmoReading w s (Sync.run (System.next p) s inp k)) (hw : IsAmo w f)
    (hal : (s.cpu.core.arch.x (rs1Of w)).extractLsb' 0 2 = 0#2)
    (hans : AnsweredIn p s inp k m) :
    ∀ j, k ≤ j → j ≤ m → AmoReading w s (Sync.run (System.next p) s inp j) := by
  intro j hkj
  induction j, hkj using Nat.le_induction with
  | base => exact fun _ => h
  | succ j hkj ih =>
    intro hj
    obtain ⟨hr, hpf⟩ := hans.wait j hkj (by omega)
    exact (ih (by omega)).wait hw hal hr hpf

theorem AmoWriting.run {data : Word} (h : AmoWriting w s x data (Sync.run (System.next p) s inp k))
    (hw : IsAmo w f) (hal : (s.cpu.core.arch.x (rs1Of w)).extractLsb' 0 2 = 0#2)
    (hans : AnsweredIn p s inp k m) :
    ∀ j, k ≤ j → j ≤ m → AmoWriting w s x data (Sync.run (System.next p) s inp j) ∧
      (Sync.run (System.next p) s inp j).dataPte (s.cpu.core.arch.x (rs1Of w))
        = (Sync.run (System.next p) s inp k).dataPte (s.cpu.core.arch.x (rs1Of w)) := by
  intro j hkj
  induction j, hkj using Nat.le_induction with
  | base => exact fun _ => ⟨h, rfl⟩
  | succ j hkj ih =>
    intro hj
    obtain ⟨hr, hpf⟩ := hans.wait j hkj (by omega)
    obtain ⟨hj, hpte⟩ := ih (by omega)
    obtain ⟨hnext, hkeep⟩ := hj.wait (p := p) hw hal hr hpf
    exact ⟨hnext, hkeep.trans hpte⟩

/-- The stages, one after the other. -/
theorem ServesRmw.run (henv : ServesRmw p s inp w k m n) (hs : s.Begins)
    (hset : s.cpu.core.Settled) (hw : IsAmo w f)
    (hal : (s.cpu.core.arch.x (rs1Of w)).extractLsb' 0 2 = 0#2) :
    RmwRun w f s (Sync.run (System.next p) s inp)
      (s.mem.content (wordAddr (Sync.run (System.next p) s inp m).busReq.addr)) k m n := by
  obtain ⟨hst1, hu1⟩ := henv.decode hs hset
  obtain ⟨hst2, hu2, ha1⟩ := hw.decode_next (p := p) (i := inp (k + 1)) hu1 hst1 henv.noInterrupt
  have hread : AmoReading w s (Sync.run (System.next p) s inp (k + 3)) :=
    hw.address_next hu2 hst2 ha1
  have hreads := hread.run hw hal henv.read
  have hm := hreads m henv.read.le (Nat.le_refl m)
  obtain ⟨hwb, hlatched⟩ := hm.answer (p := p) hw hal henv.read.ready henv.read.noAccessFault
  obtain ⟨hexec, ha2⟩ := hwb.writeBack_next (p := p) (i := inp (m + 1)) hlatched
  have haddr := hexec.exec_next (p := p) (i := inp (m + 2)) hw ha2
  have hwrite : AmoWriting w s _ _ (Sync.run (System.next p) s inp (m + 4)) :=
    ⟨haddr.addr_next, fun hb => absurd (haddr.rest (.inr (.inr rfl))).2.2.2.1 hb⟩
  have hwrites := hwrite.run hw hal henv.write
  refine ⟨hst1, hst2, hreads, hwb, hexec, haddr.state, fun j hj hj' => (hwrites j hj hj').1, ?_⟩
  -- the entry, from the write back to the read
  calc (Sync.run (System.next p) s inp n).dataPte (s.cpu.core.arch.x (rs1Of w))
      = (Sync.run (System.next p) s inp (m + 4)).dataPte (s.cpu.core.arch.x (rs1Of w)) :=
        (hwrites n henv.write.le (Nat.le_refl n)).2
    _ = (Sync.run (System.next p) s inp (m + 3)).dataPte (s.cpu.core.arch.x (rs1Of w)) :=
        (haddr.rest (.inr (.inr rfl))).2.2.2.2
    _ = (Sync.run (System.next p) s inp (m + 2)).dataPte (s.cpu.core.arch.x (rs1Of w)) :=
        (hexec.rest (.inr (.inl rfl))).2.2.2.2
    _ = (Sync.run (System.next p) s inp (m + 1)).dataPte (s.cpu.core.arch.x (rs1Of w)) :=
        (hwb.rest (.inl rfl)).2.2.2.2
    _ = (Sync.run (System.next p) s inp m).dataPte (s.cpu.core.arch.x (rs1Of w)) :=
        (hm.keeps hw hal).2.2.2

theorem RmwRun.states {c : ℕ → System iw dw} (h : RmwRun w f s c old k m n) {j : ℕ} (hkj : k < j)
    (hj : j ≤ n) : rmwState (c j).cpu.core.state = true := by
  obtain rfl | rfl | hread | rfl | rfl | rfl | hwrite : j = k + 1 ∨ j = k + 2 ∨
    (k + 3 ≤ j ∧ j ≤ m) ∨ j = m + 1 ∨ j = m + 2 ∨ j = m + 3 ∨ m + 4 ≤ j := by omega
  · rw [h.decode]
    rfl
  · rw [h.address]
    rfl
  · rw [(h.read j hread.1 hread.2).state]
    rfl
  · rw [h.writeBack.state]
    rfl
  · rw [h.exec.state]
    rfl
  · rw [h.unused]
    rfl
  · rw [(h.write j hwrite hj).state]
    rfl

/-- In quiet states the control and status registers and the reservation stay as they are. -/
theorem untouched_run (hquiet : ∀ j < n,
      Core.touchesCsr (Sync.run (System.next p) s inp j).cpu.core.state = false ∧
        Core.reserves (Sync.run (System.next p) s inp j).cpu.core.state = false) :
    s.cpu.core.Untouched (Sync.run (System.next p) s inp n).cpu.core := by
  induction n with
  | zero => exact Core.Untouched.refl _
  | succ n ih =>
    obtain ⟨hc, hr⟩ := hquiet n (Nat.lt_succ_self n)
    exact (ih fun j hj => hquiet j (by omega)).trans (Core.untouched_next p hc hr _)

theorem ServesRmw.untouched (henv : ServesRmw p s inp w k m n) (hs : s.Begins)
    (hset : s.cpu.core.Settled) (hrun : RmwRun w f s (Sync.run (System.next p) s inp) old k m n)
    {j : ℕ} (hj : j ≤ n + 1) :
    s.cpu.core.Untouched (Sync.run (System.next p) s inp j).cpu.core := by
  apply untouched_run
  intro l hl
  rcases Nat.lt_or_ge k l with hkl | hlk
  · exact (rmwState_quiet (hrun.states hkl (by omega))).2
  · rw [(henv.fetching hs hset l hlk).begins.state]
    exact ⟨rfl, rfl⟩

/-- The result of a data access in terms of its entry. -/
theorem outcome_eq (haddr : t.cpu.core.memAddr = a) (hins : t.cpu.core.isInstr = false) :
    t.cpu.req.outcome t.cpu.mmu.ptw t.mem.content = t.cpu.req.outcomeOf (t.dataPte a) := by
  rw [dataPte, ← haddr, ← hins]
  rfl

/-- Read and write go to the same word. -/
theorem ServesRmw.same_word (henv : ServesRmw p s inp w k m n) (hs : s.Begins)
    (hset : s.cpu.core.Settled) (hw : IsAmo w f)
    (hal : (s.cpu.core.arch.x (rs1Of w)).extractLsb' 0 2 = 0#2)
    (hrun : RmwRun w f s (Sync.run (System.next p) s inp) old k m n) :
    (Sync.run (System.next p) s inp n).busReq.addr
      = (Sync.run (System.next p) s inp m).busReq.addr := by
  have hle := henv.write.le
  have hread := hrun.read m henv.read.le (Nat.le_refl m)
  have hwrite := hrun.write n hle (Nat.le_refl n)
  obtain ⟨haddr, -, -, -, hins⟩ := hread.wires hw hal
  obtain ⟨haddr', -, -, -, -, hins'⟩ := hwrite.wires hw hal
  have hout := (hread.inStep.readAnswer henv.read.ready henv.read.noAccessFault).2.1
  have hout' := (hwrite.inStep.readAnswer henv.write.ready henv.write.noAccessFault).2.1
  rw [outcome_eq haddr hins] at hout
  rw [outcome_eq haddr' hins', hrun.entry] at hout'
  obtain ⟨-, hms, hpriv⟩ := (henv.untouched hs hset hrun (j := m) (by omega)).csr.translation
  obtain ⟨-, hms', hpriv'⟩ := (henv.untouched hs hset hrun (j := n) (by omega)).csr.translation
  exact CpuReq.physical_unique hout hout' (haddr'.trans haddr.symm) (hins'.trans hins.symm)
    (hms'.trans hms.symm) (hpriv'.trans hpriv.symm)

/-! ## Exactness -/

/-- The read-modify-write takes its step on the word at the physical address that `rs1` translates
to, and nothing else changes. -/
def ReadModifyWrites (i : Amo) (c : ℕ → System iw dw) (k : ℕ) : Prop :=
  ∃ n pa, NextFetch (fun j => (c j).cpu.core) k n ∧
    TranslatesTo c k n ((c 0).cpu.core.arch.x i.rs1) pa ∧
    (c n).cpu.core.arch = (i.step (c 0).cpu.core.arch ((c 0).mem.content (wordAddr pa))).1 ∧
    (c n).mem.content = (fun b => if b = wordAddr pa
      then (i.step (c 0).cpu.core.arch ((c 0).mem.content (wordAddr pa))).2
      else (c 0).mem.content b) ∧
    (c 0).cpu.core.Untouched (c n).cpu.core ∧ (c n).Begins ∧ (c n).cpu.core.Settled

/-- **Read-modify-writes are exact**: every operation, every word address, every choice of
registers and every memory, with any latency of the two accesses. -/
theorem rmw_exact {i : Amo} (hs : s.Begins) (hset : s.cpu.core.Settled)
    (hdec : decodeAmo w = some i) (hal : (s.cpu.core.arch.x i.rs1).toNat % 4 = 0)
    (henv : ServesRmw p s inp w k m n) :
    ReadModifyWrites i (Sync.run (System.next p) s inp) k := by
  obtain ⟨hop, h3, hfn, hi⟩ := decodeAmo_cases hdec
  have hw : IsAmo w i.fn := ⟨hop, h3, hfn⟩
  rw [hi] at hal
  have hal' : (s.cpu.core.arch.x (rs1Of w)).extractLsb' 0 2 = 0#2 := by
    apply BitVec.eq_of_toNat_eq
    rw [BitVec.extractLsb'_toNat, Nat.shiftRight_zero]
    exact hal
  have hrun := henv.run hs hset hw hal'
  have hread := hrun.read m henv.read.le (Nat.le_refl m)
  have hwrite := hrun.write n henv.write.le (Nat.le_refl n)
  obtain ⟨haddr, -, -, -, hins⟩ := hread.wires hw hal'
  obtain ⟨hb, hset', harch, hmem⟩ := hwrite.answer (p := p) hw hal' henv.write.ready
    henv.write.noAccessFault hs.aligned
  rw [henv.same_word hs hset hw hal' hrun] at hmem
  have hle := henv.read.le
  have hle' := henv.write.le
  refine ⟨n + 1, _, ⟨by omega, fun j hkj hj => ?_, hb.state⟩, ⟨m, by omega, by omega, ?_, hins,
    (hread.inStep.readAnswer henv.read.ready henv.read.noAccessFault).2.1⟩, ?_, ?_,
    henv.untouched hs hset hrun (Nat.le_refl _), hb, hset'⟩
  · exact (rmwState_quiet (hrun.states hkj (by omega))).1
  · rw [hi]
    exact haddr
  · rw [hi]
    exact harch
  · rw [hi]
    exact hmem

/-- `amoadd.w x1, x1, (x0)`, which names its destination as a source. -/
theorem rmw_exact_amoadd :
    (System.reset 4 3 sampleParams (fullOf 0x001020af#32)).Begins ∧
      ServesRmw sampleParams (System.reset 4 3 sampleParams (fullOf 0x001020af#32)) promptInput
        0x001020af#32 3 9 16 ∧
      ReadModifyWrites ⟨.add, 1#5, 0#5, 1#5⟩ (Sync.run (System.next sampleParams)
        (System.reset 4 3 sampleParams (fullOf 0x001020af#32)) promptInput) 3 := by
  have hb : (System.reset 4 3 sampleParams (fullOf 0x001020af#32)).Begins := begins_reset _ _ rfl
  have henv : ServesRmw sampleParams (System.reset 4 3 sampleParams (fullOf 0x001020af#32))
      promptInput 0x001020af#32 3 9 16 := by
    refine ⟨by constructor <;> decide +kernel, ⟨by omega, fun j hj hj' => ?_, by decide +kernel,
      by decide +kernel⟩, ⟨by omega, fun j hj hj' => ?_, by decide +kernel, by decide +kernel⟩⟩
    · obtain rfl | rfl | rfl : j = 6 ∨ j = 7 ∨ j = 8 := by omega
      all_goals decide +kernel
    · obtain rfl | rfl | rfl : j = 13 ∨ j = 14 ∨ j = 15 := by omega
      all_goals decide +kernel
  exact ⟨hb, henv, rmw_exact hb (settled_reset _) (by decide) (by decide) henv⟩

end Run

end System

end KianRiscV
