/-
# Atomics between two instructions

The read-modify-writes, `LR.W` and `SC.W` from one `FETCH` to the next, in machine mode over a fair
memory.  `AMO_LR_READ` sets the reservation in every cycle in which it waits, and `AMO_SC_WRITE`
clears it; `AMO_SC_FAIL` is reached without one.
-/
import KianRiscV.InstructionSteps

namespace KianRiscV

open Rv32im

/-! ## The words -/

section Decode

variable {w : Word} {i : Reserved}

/-- The word of an `LR.W` or `SC.W`. -/
theorem decodeReserved_cases (h : decodeReserved w = some i) :
    opOf w = 0x2F#7 ∧ funct3Of w = 0x2#3 ∧
      (isAmoLrW w = true ∧ i = .lr (rdOf w) (rs1Of w) ∨
        isAmoLrW w = false ∧ isAmoScW w = true ∧ i = .sc (rdOf w) (rs1Of w) (rs2Of w)) := by
  unfold decodeReserved at h
  split_ifs at h with hop hlr hsc
  · exact ⟨hop.1, hop.2, .inl ⟨by simpa [isAmoLrW] using hlr, (Option.some.inj h).symm⟩⟩
  · refine ⟨hop.1, hop.2, .inr ⟨?_, by simpa [isAmoScW] using hsc, (Option.some.inj h).symm⟩⟩
    simpa [isAmoLrW] using hlr

/-- The accesses are those of whole words. -/
theorem reserved_decoders (hop : opOf w = 0x2F#7) (h3 : funct3Of w = 0x2#3) (low : BitVec 2) :
    loadDecoder w = .lw ∧ storeDecoder w = .sw ∧ isLoadUnaligned w low = (low != 0#2) ∧
      isStoreUnaligned w low = (low != 0#2) := by
  have hamo : isAmo w = true := by simp [isAmo, hop, h3]
  simp only [loadDecoder, storeDecoder, isLoadUnaligned, isStoreUnaligned, amoDataLoad,
    amoOperationStore, hamo, h3]
  cases isAmoLrW w <;> cases isAmoScW w <;> simp

end Decode

namespace System

variable {iw dw : ℕ} {p : Params} {s t : System iw dw} {i : SystemIn} {inp : ℕ → SystemIn}
  {w : Word} {m : Machine} {k n : ℕ} {a : Word} {st : FsmState}

/-! ## Read-modify-writes -/

theorem passes_of_not_isInstr (hc : Core.touchesCsr t.cpu.core.state = false)
    (hi : isInstruction t.cpu.core.state = false) : t.Passes :=
  ⟨hc, fetchAligned_of_not_isInstr hi⟩

theorem quiet_of_rmwState (h : rmwState t.cpu.core.state = true) : t.Quiet := by
  obtain ⟨-, hc, hr⟩ := rmwState_quiet h
  refine ⟨passes_of_not_isInstr hc ?_, hr⟩
  cases hst : t.cpu.core.state <;> rw [hst] at h <;> first | rfl | exact absurd h (by decide)

theorem Steady.next_of_passes (h : t.Steady) (hp : t.Passes) : (t.next p i).Steady :=
  h.next hp.csr hp.aligned

/-- A read-modify-write at a word address. -/
theorem amo_leads {i : Amo} (hfair : Fair inp) (h : s.Ready) (hm : Represents m s)
    (hk : FetchedAt p s inp k) (hdec : decodeAmo s.fetchWord = some i)
    (hal : (m.arch.x i.rs1).toNat % 4 = 0) :
    ∃ n, Leads p s inp k n
      { m with
        arch := (i.step m.arch (wordAt m.bytes (m.arch.x i.rs1))).1
        bytes := storeBytes .word m.bytes (physical (m.arch.x i.rs1))
          (i.step m.arch (wordAt m.bytes (m.arch.x i.rs1))).2 } := by
  obtain ⟨hop, h3, hfn, hi⟩ := decodeAmo_cases hdec
  have hw : IsAmo s.fetchWord i.fn := ⟨hop, h3, hfn⟩
  have hword := wordAt_bytesOf s.mem.content hal
  rw [hm.bytes] at hword
  rw [hword, ← hm.bytes, ← hm.arch]
  rw [← hm.arch] at hal
  have hal' : (s.cpu.core.arch.x (rs1Of s.fetchWord)).extractLsb' 0 2 = 0#2 := by
    rw [hi] at hal
    exact (mod_four_iff _).1 hal
  -- the read is presented and answered
  obtain ⟨hst1, hu1⟩ := hk.fetches.decode h.begins h.settled
  obtain ⟨hst2, hu2, ha1⟩ :=
    hw.decode_next (p := p) (i := inp (k + 1)) hu1 hst1 hk.fetches.noInterrupt
  have hread : AmoReading s.fetchWord s (Sync.run (System.next p) s inp (k + 3)) :=
    hw.address_next hu2 hst2 ha1
  have hsteady : (Sync.run (System.next p) s inp (k + 3)).Steady := by
    refine hk.steady_of_passes (n := k + 3) (fun j hkj hj => ?_) (k + 3) (by omega) le_rfl
    apply (quiet_of_rmwState ?_).toPasses
    obtain rfl | rfl : j = k + 1 ∨ j = k + 2 := by omega
    · rw [hst1]
      rfl
    · rw [Sync.run_succ, hst2]
      rfl
  obtain ⟨c, hwaits, hans⟩ := Waiting.exists_answer hfair ⟨hsteady, by rw [hread.state]; rfl,
    (hread.wires hw hal').2.2.2.1, fetchAligned_of_not_isInstr (by rw [hread.state]; rfl)⟩
  have hc := hread.run hw hal' hans c hans.le le_rfl
  -- so is the write
  obtain ⟨hwb, hlatched⟩ := hc.answer (p := p) hw hal' hans.ready hans.noAccessFault
  obtain ⟨hexec, ha2⟩ := hwb.writeBack_next (p := p) (i := inp (c + 1)) hlatched
  have hunused := hexec.exec_next (p := p) (i := inp (c + 2)) hw ha2
  have hwrite : AmoStage s.fetchWord s _ .amoOpWrite _ (Sync.run (System.next p) s inp (c + 4)) :=
    hunused.addr_next
  have hsteady4 : (Sync.run (System.next p) s inp (c + 4)).Steady := by
    have h1 := (hwaits.waiting c hwaits.le le_rfl).toSteady.next_of_passes (p := p) (i := inp c)
      (quiet_of_rmwState (by rw [hc.state]; rfl)).toPasses
    have h2 := h1.next_of_passes (p := p) (i := inp (c + 1))
      (quiet_of_rmwState (by rw [hwb.state]; rfl)).toPasses
    have h3 := h2.next_of_passes (p := p) (i := inp (c + 2))
      (quiet_of_rmwState (by rw [hexec.state]; rfl)).toPasses
    exact h3.next_of_passes (quiet_of_rmwState (by rw [hunused.state]; rfl)).toPasses
  obtain ⟨d, -, hans'⟩ := Waiting.exists_answer hfair (k := c + 4) ⟨hsteady4,
    by rw [hwrite.state]; rfl, (hwrite.wires hw hal').2.2.2.2.1,
    fetchAligned_of_not_isInstr (by rw [hwrite.state]; rfl)⟩
  have henv : ServesRmw p s inp s.fetchWord k c d := ⟨hk.fetches, hans, hans'⟩
  have hrun := henv.run h.begins h.settled hw hal'
  have hq : ∀ j, k < j → j < d + 1 → (Sync.run (System.next p) s inp j).Quiet :=
    fun j hkj hj => quiet_of_rmwState (hrun.states hkj (by omega))
  have hsteady' := hk.steady_of_passes fun j hkj hj => (hq j hkj hj).toPasses
  have hle := hans.le
  have hle' := hans'.le
  obtain ⟨hb, hset, harch, hmem⟩ := (hrun.write d hle' le_rfl).answer (p := p) hw hal' hans'.ready
    hans'.noAccessFault h.begins.aligned
  rw [← Sync.run_succ (System.next p)] at hb hset harch hmem
  -- both accesses are to the physical address of the word
  have hpa : (Sync.run (System.next p) s inp c).busReq.addr
      = physical (s.cpu.core.arch.x (rs1Of s.fetchWord)) := by
    have hout := (hc.inStep.readAnswer hans.ready hans.noAccessFault).2.1
    rw [(hsteady' c (by omega) (by omega)).outcome, (hc.wires hw hal').1, Option.some.injEq,
      Outcome.physical.injEq] at hout
    exact hout.symm
  rw [henv.same_word h.begins h.settled hw hal' hrun, hpa] at hmem
  rw [hpa] at harch
  refine ⟨d + 1, ⟨by omega, fun j hkj hj => (rmwState_quiet (hrun.states hkj (by omega))).1,
    hb.state⟩, ⟨hsteady' _ (by omega) le_rfl, hb, hset⟩, ?_, ?_, ?_⟩
  · rw [hi]
    exact harch
  · rw [hmem, hi]
    exact bytesOf_replace _ (by rw [physical_mod_four]; rw [hi] at hal; exact hal) _
  · rw [(hk.untouched h hq).reservation]
    exact hm.reserved

/-! ## The reservation -/

/-- After `AMO_ADDR`, in state `st`: the address is in both registers, the data in `A2`. -/
structure Reserving (w : Word) (s : System iw dw) (st : FsmState) (t : System iw dw) : Prop
    extends InHand w s.mem.content s.cpu.core.arch t where
  state : t.cpu.core.state = st
  address : t.cpu.core.aluOut = s.cpu.core.arch.x (rs1Of w)
  saved : t.cpu.core.amoBufferAddr = s.cpu.core.arch.x (rs1Of w)
  data : t.cpu.core.a2 = s.cpu.core.arch.x (rs2Of w)

/-- The states in which the access waits. -/
def reservedAccess (st : FsmState) : Bool := st == .amoLrRead || st == .amoScWrite

/-- The states that end the instruction. -/
def reservedEnd (st : FsmState) : Bool := st == .amoLrWb || st == .amoScSuccess || st == .amoScFail

theorem reservedAccess_cases (h : reservedAccess st = true) : st = .amoLrRead ∨ st = .amoScWrite := by
  simpa [reservedAccess] using h

theorem reservedAccess_passes (h : reservedAccess t.cpu.core.state = true) : t.Passes := by
  rcases reservedAccess_cases h with hst | hst <;>
    exact passes_of_not_isInstr (by rw [hst]; rfl) (by rw [hst]; rfl)

/-- `DECODE` goes to `AMO_ADDR`. -/
theorem reserved_decode_next (hop : opOf w = 0x2F#7) (h3 : funct3Of w = 0x2#3)
    (h : Underway w s t) (hst : t.cpu.core.state = .decode)
    (hirq : (t.cpu.core.fsmIn (t.coreIn i)).irq.pending = false) :
    (t.next p i).cpu.core.state = .amoAddr ∧ Underway w s (t.next p i) ∧
      (t.next p i).cpu.core.a1 = s.cpu.core.arch.x (rs1Of w) := by
  obtain ⟨hnext, hmem, -⟩ := next_of_idle (p := p) (i := i) h.inStep (by rw [hst]; rfl)
  obtain ⟨hu, ha1, -⟩ := h.next (by rw [hst]; rfl) hmem
  refine ⟨?_, hu, ha1⟩
  have hinstr : (t.cpu.core.fsmIn (t.coreIn i)).instr = w := h.flight.instr
  rw [hnext, hst]
  simp [stateNxt, decodeNxt, hirq, hinstr, isLoad, isStore, isRtype, isItype, isJal, isJalr,
    isBranch, isLui, isAuipc, isCsr, isAmo, hop, h3]

/-- `AMO_ADDR` saves the address and goes by the word and the reservation. -/
theorem reserved_address_next (h : Underway w s t) (hst : t.cpu.core.state = .amoAddr)
    (ha1 : t.cpu.core.a1 = s.cpu.core.arch.x (rs1Of w))
    (hnext : stateNxt .amoAddr (t.cpu.core.fsmIn (t.coreIn i)) = st) :
    Reserving w s st (t.next p i) ∧ (t.next p i).cpu.mmu.state = .idle ∧
      (t.next p i).cpu.core.amoReservedStateLoad = t.cpu.core.amoReservedStateLoad := by
  have hv : t.cpu.core.memValid = false := by
    unfold Core.memValid
    rw [hst]
    rfl
  have hres : t.cpu.core.aluResult = s.cpu.core.arch.x (rs1Of w) := by
    rw [← ha1]
    simp [Core.aluResult, Core.srcA, Core.srcB, Core.ctl, hst, moore, aluDecoder, alu]
  obtain ⟨hnxt, hmem, hidle⟩ := next_of_idle (p := p) (i := i) h.inStep (by rw [hst]; rfl)
  obtain ⟨hu, -, ha2⟩ := h.inHand.next (p := p) (i := i) (by rw [hst]; rfl) hmem
  rw [hst, hnext] at hnxt
  refine ⟨⟨hu, hnxt, ?_, ?_, ha2⟩, hidle hv, ?_⟩
  · rw [← hres, next_core]
    simp [Core.next, hv]
  · rw [← hres, next_core]
    simp [Core.next, Core.ctl, hst, moore]
  · rw [next_core]
    simp [Core.next, hst, amoSetReservedStateLoad]

section Access

variable (hop : opOf w = 0x2F#7) (h3 : funct3Of w = 0x2#3)
  (hal : (s.cpu.core.arch.x (rs1Of w)).extractLsb' 0 2 = 0#2)

include hop h3 hal

/-- The wires of the access at a word address. -/
theorem Reserving.wires (h : Reserving w s st t) (hst : reservedAccess st = true) :
    t.cpu.core.memAddr = s.cpu.core.arch.x (rs1Of w) ∧
      t.cpu.core.memWdata = s.cpu.core.arch.x (rs2Of w) ∧
      t.cpu.core.memWstrb = (if st = .amoLrRead then 0#4 else 0xf#4) ∧
      t.cpu.core.loadUnaligned = false ∧ t.cpu.core.storeUnaligned = false ∧
      t.cpu.core.memValid = true := by
  obtain ⟨-, hsw, hlu, hsu⟩ := reserved_decoders hop h3 0#2
  have haddr : t.cpu.core.memAddr = s.cpu.core.arch.x (rs1Of w) := by
    rcases reservedAccess_cases hst with rfl | rfl
    · rw [← h.address]
      simp [Core.memAddr, Core.result, Core.ctl, h.state, moore]
    · rw [← h.saved]
      simp [Core.memAddr, Core.result, Core.ctl, h.state, moore]
  have hload : t.cpu.core.loadUnaligned = false := by
    rw [Core.loadUnaligned, haddr, hal, h.flight.instr, hlu]
    rfl
  have hstore : t.cpu.core.storeUnaligned = false := by
    rw [Core.storeUnaligned, haddr, hal, h.flight.instr, hsu]
    rfl
  refine ⟨haddr, ?_, ?_, hload, hstore, ?_⟩
  · rw [← h.data]
    rcases reservedAccess_cases hst with rfl | rfl <;>
      simp [Core.memWdata, Core.ctl, h.state, moore, h.flight.instr, hsw, storeAlignment]
  · rcases reservedAccess_cases hst with rfl | rfl <;>
      simp [Core.memWstrb, Core.ctl, h.state, moore, h.flight.instr, hsw, storeWmask]
  · rcases reservedAccess_cases hst with rfl | rfl <;>
      simp [Core.memValid, h.state, KianRiscV.memValid, hload, hstore]

/-- Every cycle of the access keeps what it needs, and sets or clears the reservation. -/
theorem Reserving.keeps (h : Reserving w s st t) (hst : reservedAccess st = true) :
    (t.next p i).InStep ∧ (t.next p i).cpu.core.InFlight w s.cpu.core.arch ∧
      (t.next p i).cpu.core.Settled ∧
      (t.next p i).cpu.core.aluOut = s.cpu.core.arch.x (rs1Of w) ∧
      (t.next p i).cpu.core.amoBufferAddr = s.cpu.core.arch.x (rs1Of w) ∧
      (t.next p i).cpu.core.a2 = s.cpu.core.arch.x (rs2Of w) ∧
      (t.next p i).cpu.core.amoReservedStateLoad = decide (st = .amoLrRead) := by
  obtain ⟨-, -, -, hload, -, hv⟩ := h.wires hop h3 hal hst
  have hquiet : t.cpu.core.state ≠ .fetch ∧ t.cpu.core.state ≠ .execMul ∧
      Core.writesBack t.cpu.core.state = false ∧ Core.movesPc t.cpu.core.state = false ∧
      Core.touchesCsr t.cpu.core.state = false ∧ isInstruction t.cpu.core.state = false := by
    rw [h.state]
    rcases reservedAccess_cases hst with rfl | rfl <;>
      exact ⟨FsmState.noConfusion, FsmState.noConfusion, rfl, rfl, rfl, rfl⟩
  obtain ⟨hf, hmul, hwb, hpc, hc, hins⟩ := hquiet
  obtain ⟨hfl, -, ha2⟩ := h.flight.carry (p := p) (i := t.coreIn i) hf hwb
    (Core.pcWrite_of_not_movesPc hpc)
  refine ⟨next_inStep_of_not_isInstr h.inStep hins, hfl, h.settled.next hc hmul, ?_, ?_, ha2, ?_⟩
  · rw [← h.address, next_core]
    simp [Core.next, hv]
  · rw [← h.saved, next_core]
    rcases reservedAccess_cases hst with rfl | rfl <;> simp [Core.next, Core.ctl, h.state, moore]
  · rw [next_core]
    rcases reservedAccess_cases hst with rfl | rfl <;>
      simp [Core.next, Core.ctl, h.state, moore, amoSetReservedStateLoad, hload]

/-- A cycle without answer. -/
theorem Reserving.wait (h : Reserving w s st t) (hst : reservedAccess st = true)
    (hr : (t.coreIn i).memReady = false) (hpf : (t.coreIn i).pageFault = false) :
    Reserving w s st (t.next p i) := by
  obtain ⟨-, -, -, hload, hstore, -⟩ := h.wires hop h3 hal hst
  obtain ⟨hin, hfl, hset, hout, hsaved, ha2, -⟩ := h.keeps (p := p) (i := i) hop h3 hal hst
  refine ⟨⟨hin, (content_next hr).trans h.content, hfl, hset⟩, ?_, hout, hsaved, ha2⟩
  cases hstall : (t.coreIn i).stall with
  | true => rw [next_core, Core.next_state_of_stall _ _ hstall, h.state]
  | false =>
    rw [next_core, Core.next_state _ _ hstall, h.state]
    rcases reservedAccess_cases hst with rfl | rfl <;>
      simp [stateNxt, accessNxt, Core.fsmIn, hload, hstore, hr, hpf]

/-- The answer to `AMO_LR_READ` is latched. -/
theorem Reserving.read_answer (h : Reserving w s .amoLrRead t)
    (hr : (t.coreIn i).memReady = true) (haf : (t.coreIn i).accessFault = false) :
    (t.next p i).cpu.core.state = .amoLrWb ∧
      InHand w s.mem.content s.cpu.core.arch (t.next p i) ∧
      (t.next p i).cpu.core.dataLatched = s.mem.content (wordAddr t.busReq.addr) := by
  obtain ⟨hstall, hpf, -, -⟩ := h.inStep.answered hr
  obtain ⟨-, -, hstrb, hload, -, -⟩ := h.wires hop h3 hal rfl
  obtain ⟨hin, hfl, hset, -⟩ := h.keeps (p := p) (i := i) hop h3 hal rfl
  refine ⟨?_, ⟨hin, (content_next_of_read h.inStep.phase hstrb).trans h.content, hfl, hset⟩, ?_⟩
  · rw [next_core, Core.next_state _ _ hstall, h.state]
    simp [stateNxt, accessNxt, Core.fsmIn, hload, hr, hpf, haf]
  · show t.cpu.core.loadData (t.coreIn i) = _
    rw [Core.loadData, h.flight.instr, (reserved_decoders hop h3 0#2).1,
      (h.inStep.readAnswer hr haf).1, h.content]
    rfl

/-- The answer to `AMO_SC_WRITE` has stored the word. -/
theorem Reserving.write_answer (h : Reserving w s .amoScWrite t)
    (hwdata : t.cpu.mmu.state ≠ .idle → t.cpu.mmu.cpuWdataQ = t.cpu.core.memWdata)
    (hr : (t.coreIn i).memReady = true) (haf : (t.coreIn i).accessFault = false) :
    (t.next p i).cpu.core.state = .amoScSuccess ∧
      InHand w (fun b => if b = wordAddr t.busReq.addr then s.cpu.core.arch.x (rs2Of w)
        else s.mem.content b) s.cpu.core.arch (t.next p i) := by
  obtain ⟨hstall, hpf, -, hbusy⟩ := h.inStep.answered hr
  obtain ⟨-, hdata, hstrb, -, hstore, -⟩ := h.wires hop h3 hal rfl
  obtain ⟨hin, hfl, hset, -⟩ := h.keeps (p := p) (i := i) hop h3 hal rfl
  refine ⟨?_, ⟨hin, ?_, hfl, hset⟩⟩
  · rw [next_core, Core.next_state _ _ hstall, h.state]
    simp [stateNxt, accessNxt, Core.fsmIn, hstore, hr, hpf, haf]
  · rw [(h.inStep.dataAnswer (p := p) hr haf (hwdata hbusy)).2.2.2, hstrb, hdata, h.content]
    have hne : ¬ FsmState.amoScWrite = .amoLrRead := FsmState.noConfusion
    funext b
    rw [if_neg hne, mergeBytes_full]

/-- The access is presented until it is answered; meanwhile the memory management unit, while busy,
holds the data. -/
theorem Reserving.run (h : Reserving w s st (Sync.run (System.next p) s inp k))
    (hst : reservedAccess st = true)
    (hidle : (Sync.run (System.next p) s inp k).cpu.mmu.state = .idle)
    (hans : AnsweredIn p s inp k n) :
    ∀ j, k ≤ j → j ≤ n → Reserving w s st (Sync.run (System.next p) s inp j) ∧
      ((Sync.run (System.next p) s inp j).cpu.mmu.state ≠ .idle →
        (Sync.run (System.next p) s inp j).cpu.mmu.cpuWdataQ
          = (Sync.run (System.next p) s inp j).cpu.core.memWdata) := by
  intro j hkj
  induction j, hkj using Nat.le_induction with
  | base => exact fun _ => ⟨h, fun hb => absurd hidle hb⟩
  | succ j hkj ih =>
    intro hj
    obtain ⟨hr, hpf⟩ := hans.wait j hkj (by omega)
    obtain ⟨hj, hwdata⟩ := ih (by omega)
    have hnext := hj.wait (p := p) (i := inp j) hop h3 hal hst hr hpf
    refine ⟨hnext, wdata_next hwdata ?_⟩
    rw [(hnext.wires hop h3 hal hst).2.1, (hj.wires hop h3 hal hst).2.1]

end Access

/-- `AMO_LR_WB`, `AMO_SC_SUCCESS` and `AMO_SC_FAIL` write `rd`, and the instruction is over. -/
theorem leads_of_reservedEnd {content : BitVec 32 → Word} {v : Word} {r : Option Word}
    (h : s.Ready) (hm : Represents m s) (hk : FetchedAt p s inp k) (hkn : k < n)
    (hq : ∀ j, k < j → j < n → (Sync.run (System.next p) s inp j).Passes ∧
      (Sync.run (System.next p) s inp j).cpu.core.state ≠ .fetch)
    (hin : InHand s.fetchWord content s.cpu.core.arch (Sync.run (System.next p) s inp n))
    (hst : reservedEnd (Sync.run (System.next p) s inp n).cpu.core.state = true)
    (hres : (Sync.run (System.next p) s inp n).cpu.core.result = v)
    (hflag : (Sync.run (System.next p) s inp n).cpu.core.amoReservedStateLoad = r.isSome) :
    Leads p s inp k (n + 1) ⟨m.arch.put (rdOf s.fetchWord) v, bytesOf content, r⟩ := by
  have hend : Core.writesBack (Sync.run (System.next p) s inp n).cpu.core.state = true ∧
      presentsFetch (Sync.run (System.next p) s inp n).cpu.core.state = true ∧
      waitsForBus (Sync.run (System.next p) s inp n).cpu.core.state = false ∧
      Core.touchesCsr (Sync.run (System.next p) s inp n).cpu.core.state = false ∧
      Core.reserves (Sync.run (System.next p) s inp n).cpu.core.state = false ∧
      (Sync.run (System.next p) s inp n).cpu.core.state ≠ .execMul ∧
      (Sync.run (System.next p) s inp n).cpu.core.state ≠ .fetch ∧
      ∀ j, stateNxt (Sync.run (System.next p) s inp n).cpu.core.state j = .fetch := by
    cases hc : (Sync.run (System.next p) s inp n).cpu.core.state <;> rw [hc] at hst <;>
      first
      | exact absurd hst (by decide)
      | exact ⟨rfl, rfl, rfl, rfl, rfl, FsmState.noConfusion, FsmState.noConfusion, fun _ => rfl⟩
  obtain ⟨hwb, hpres, hbus, hc, hrsv, hmul, hne, hnxt⟩ := hend
  have hpc := aligned_add_four h.begins.aligned
  have hpass : (Sync.run (System.next p) s inp n).Passes := ⟨hc, fetchAligned_of_pc
    ((congrArg (BitVec.extractLsb' 0 2) (congrArg Arch.pc hin.flight.arch)).trans hpc) (.inl hpres)⟩
  have hq' : ∀ j, k < j → j < n + 1 → (Sync.run (System.next p) s inp j).Passes ∧
      (Sync.run (System.next p) s inp j).cpu.core.state ≠ .fetch := by
    intro j hkj hj
    rcases Nat.lt_or_eq_of_le (Nat.lt_succ_iff.1 hj) with hlt | rfl
    · exact hq j hkj hlt
    · exact ⟨hpass, hne⟩
  obtain ⟨hst', hmem, -⟩ := next_of_idle (p := p) (i := inp n) hin.inStep hbus
  have harch := hin.flight.writeBack (p := p)
    (i := (Sync.run (System.next p) s inp n).coreIn (inp n)) hwb
  rw [hres] at harch
  refine ⟨⟨by omega, fun j hkj hj => (hq' j hkj hj).2, hst'.trans (hnxt _)⟩, ?_, ?_, ?_, ?_⟩
  · refine (hk.steady_of_passes (fun j hkj hj => (hq' j hkj hj).1) (n + 1) (by omega) le_rfl).ready
      (hst'.trans (hnxt _)) (hin.settled.next hc hmul) ?_
    exact (congrArg (BitVec.extractLsb' 0 2) (congrArg Arch.pc harch)).trans hpc
  · rw [← hm.arch]
    exact harch
  · exact congrArg bytesOf (hmem.trans hin.content)
  · rw [← hflag]
    exact (Core.untouched_next p hc hrsv _).reservation

/-- The way to `AMO_ADDR` and out of it. -/
theorem reserved_addressed (h : s.Ready) (hk : FetchedAt p s inp k)
    (hop : opOf s.fetchWord = 0x2F#7) (h3 : funct3Of s.fetchWord = 0x2#3)
    (hnxt : ∀ j : FsmIn, j.instr = s.fetchWord →
      j.amoReservedStateLoad = s.cpu.core.amoReservedStateLoad → stateNxt .amoAddr j = st) :
    Reserving s.fetchWord s st (Sync.run (System.next p) s inp (k + 3)) ∧
      (Sync.run (System.next p) s inp (k + 3)).cpu.mmu.state = .idle ∧
      (Sync.run (System.next p) s inp (k + 3)).cpu.core.amoReservedStateLoad
        = s.cpu.core.amoReservedStateLoad ∧
      ∀ j, k < j → j < k + 3 → (Sync.run (System.next p) s inp j).Passes ∧
        (Sync.run (System.next p) s inp j).cpu.core.state ≠ .fetch := by
  obtain ⟨hst1, hu1⟩ := hk.fetches.decode h.begins h.settled
  obtain ⟨hst2, hu2, ha1⟩ :=
    reserved_decode_next (p := p) (i := inp (k + 1)) hop h3 hu1 hst1 hk.fetches.noInterrupt
  rw [← Sync.run_succ (System.next p)] at hst2 hu2 ha1
  have hflag : (Sync.run (System.next p) s inp (k + 2)).cpu.core.amoReservedStateLoad
      = s.cpu.core.amoReservedStateLoad := by
    refine (hk.untouched h fun j hkj hj => ?_).reservation
    obtain rfl : j = k + 1 := by omega
    exact quiet_of_rmwState (by rw [hst1]; rfl)
  obtain ⟨hres, hidle, hkeep⟩ := reserved_address_next (p := p) (i := inp (k + 2)) hu2 hst2 ha1
    (hnxt _ hu2.flight.instr hflag)
  refine ⟨hres, hidle, hkeep.trans hflag, fun j hkj hj => ?_⟩
  have hrmw : rmwState (Sync.run (System.next p) s inp j).cpu.core.state = true := by
    obtain rfl | rfl : j = k + 1 ∨ j = k + 2 := by omega
    · rw [hst1]
      rfl
    · rw [hst2]
      rfl
  exact ⟨(quiet_of_rmwState hrmw).toPasses, (rmwState_quiet hrmw).1⟩

/-- The access of an `LR.W` or `SC.W` is answered, for the physical address. -/
theorem reserved_answered (hfair : Fair inp) (h : s.Ready) (hk : FetchedAt p s inp k)
    (hop : opOf s.fetchWord = 0x2F#7) (h3 : funct3Of s.fetchWord = 0x2#3)
    (hal : (s.cpu.core.arch.x (rs1Of s.fetchWord)).extractLsb' 0 2 = 0#2)
    (hst : reservedAccess st = true)
    (hnxt : ∀ j : FsmIn, j.instr = s.fetchWord →
      j.amoReservedStateLoad = s.cpu.core.amoReservedStateLoad → stateNxt .amoAddr j = st) :
    ∃ n, k < n ∧ Reserving s.fetchWord s st (Sync.run (System.next p) s inp n) ∧
      ((Sync.run (System.next p) s inp n).cpu.mmu.state ≠ .idle →
        (Sync.run (System.next p) s inp n).cpu.mmu.cpuWdataQ
          = (Sync.run (System.next p) s inp n).cpu.core.memWdata) ∧
      ((Sync.run (System.next p) s inp n).coreIn (inp n)).memReady = true ∧
      ((Sync.run (System.next p) s inp n).coreIn (inp n)).accessFault = false ∧
      (Sync.run (System.next p) s inp n).busReq.addr
        = physical (s.cpu.core.arch.x (rs1Of s.fetchWord)) ∧
      ∀ j, k < j → j ≤ n → (Sync.run (System.next p) s inp j).Passes ∧
        (Sync.run (System.next p) s inp j).cpu.core.state ≠ .fetch := by
  obtain ⟨hres, hidle, -, hq⟩ := reserved_addressed h hk hop h3 hnxt
  have hstate : reservedAccess (Sync.run (System.next p) s inp (k + 3)).cpu.core.state = true := by
    rw [hres.state]
    exact hst
  have hwait : waitsForBus (Sync.run (System.next p) s inp (k + 3)).cpu.core.state = true := by
    rcases reservedAccess_cases hstate with hs | hs <;> rw [hs] <;> rfl
  obtain ⟨n, hwaits, hans⟩ := Waiting.exists_answer hfair
    ⟨hk.steady_of_passes (fun j hkj hj => (hq j hkj hj).1) (k + 3) (by omega) le_rfl, hwait,
      (hres.wires hop h3 hal hst).2.2.2.2.2, (reservedAccess_passes hstate).aligned⟩
  have hrun := hres.run hop h3 hal hst hidle hans
  have hle := hans.le
  obtain ⟨hn, hwdata⟩ := hrun n hle le_rfl
  refine ⟨n, by omega, hn, hwdata, hans.ready, hans.noAccessFault, ?_, fun j hkj hj => ?_⟩
  · have hout := (hn.inStep.readAnswer hans.ready hans.noAccessFault).2.1
    rw [(hwaits.waiting n hle le_rfl).outcome, (hn.wires hop h3 hal hst).1, Option.some.injEq,
      Outcome.physical.injEq] at hout
    exact hout.symm
  · rcases Nat.lt_or_ge j (k + 3) with hlt | hge
    · exact hq j hkj hlt
    · have hsj := (hrun j hge hj).1.state
      refine ⟨reservedAccess_passes (by rw [hsj]; exact hst), ?_⟩
      rw [hsj]
      rcases reservedAccess_cases hst with rfl | rfl <;> exact FsmState.noConfusion

section Word

variable (hfair : Fair inp) (h : s.Ready) (hm : Represents m s) (hk : FetchedAt p s inp k)
  (hop : opOf s.fetchWord = 0x2F#7) (h3 : funct3Of s.fetchWord = 0x2#3)
  (hal : (m.arch.x (rs1Of s.fetchWord)).toNat % 4 = 0)

include h hm hk hop h3

/-- An `SC.W` without a reservation. -/
theorem sc_fail_leads (hlr : isAmoLrW s.fetchWord = false) (hsc : isAmoScW s.fetchWord = true)
    (hnone : m.reservation = none) :
    ∃ n, Leads p s inp k n { m with arch := m.arch.put (rdOf s.fetchWord) 1#32 } := by
  have hflag : s.cpu.core.amoReservedStateLoad = false := by
    rw [hm.reserved, hnone]
    rfl
  have hnxt : ∀ j : FsmIn, j.instr = s.fetchWord →
      j.amoReservedStateLoad = s.cpu.core.amoReservedStateLoad →
        stateNxt .amoAddr j = .amoScFail := by
    intro j hj hf
    simp [stateNxt, hj, hlr, hsc, hf, hflag]
  obtain ⟨hres, -, hkeep, hq⟩ := reserved_addressed h hk hop h3 hnxt
  have hone : (Sync.run (System.next p) s inp (k + 3)).cpu.core.result = 1#32 := by
    simp [Core.result, Core.ctl, hres.state, moore, boolWord]
  have hleads := leads_of_reservedEnd (r := m.reservation) h hm hk (by omega) hq hres.toInHand
    (by rw [hres.state]; rfl) hone (hkeep.trans hm.reserved)
  rw [hm.bytes] at hleads
  exact ⟨k + 4, hleads⟩

include hfair hal

/-- An `LR.W` at a word address. -/
theorem lr_leads (hlr : isAmoLrW s.fetchWord = true) :
    ∃ n, Leads p s inp k n ⟨m.arch.put (rdOf s.fetchWord)
      (wordAt m.bytes (m.arch.x (rs1Of s.fetchWord))), m.bytes,
      some (m.arch.x (rs1Of s.fetchWord))⟩ := by
  have hword := wordAt_bytesOf s.mem.content hal
  rw [hm.bytes] at hword
  have hal' := (mod_four_iff _).1 hal
  rw [← hm.arch] at hal' hword
  have hnxt : ∀ j : FsmIn, j.instr = s.fetchWord →
      j.amoReservedStateLoad = s.cpu.core.amoReservedStateLoad →
        stateNxt .amoAddr j = .amoLrRead := by
    intro j hj _
    simp [stateNxt, hj, hlr]
  obtain ⟨n, hkn, hn, -, hr, haf, hpa, hq⟩ :=
    reserved_answered hfair h hk hop h3 hal' rfl hnxt
  obtain ⟨hst, hin, hdata⟩ := hn.read_answer (p := p) (i := inp n) hop h3 hal' hr haf
  obtain ⟨-, -, -, -, -, -, hflag⟩ := hn.keeps (p := p) (i := inp n) hop h3 hal' rfl
  rw [← Sync.run_succ (System.next p)] at hst hin hdata hflag
  rw [hpa, ← hword, hm.arch] at hdata
  have hres : (Sync.run (System.next p) s inp (n + 1)).cpu.core.result
      = wordAt m.bytes (m.arch.x (rs1Of s.fetchWord)) := by
    rw [← hdata]
    simp [Core.result, Core.ctl, hst, moore]
  have hleads := leads_of_reservedEnd (r := some (m.arch.x (rs1Of s.fetchWord))) h hm hk
    (by omega) (fun j hkj hj => hq j hkj (by omega)) hin (by rw [hst]; rfl) hres hflag
  rw [hm.bytes] at hleads
  exact ⟨n + 2, hleads⟩

/-- An `SC.W` to the reserved word. -/
theorem sc_leads (hlr : isAmoLrW s.fetchWord = false) (hsc : isAmoScW s.fetchWord = true)
    (hsome : m.reservation = some (m.arch.x (rs1Of s.fetchWord))) :
    ∃ n, Leads p s inp k n ⟨m.arch.put (rdOf s.fetchWord) 0#32,
      storeBytes .word m.bytes (physical (m.arch.x (rs1Of s.fetchWord)))
        (m.arch.x (rs2Of s.fetchWord)), none⟩ := by
  have hflag : s.cpu.core.amoReservedStateLoad = true := by
    rw [hm.reserved, hsome]
    rfl
  have hal' := (mod_four_iff _).1 hal
  rw [← hm.arch] at hal'
  have hnxt : ∀ j : FsmIn, j.instr = s.fetchWord →
      j.amoReservedStateLoad = s.cpu.core.amoReservedStateLoad →
        stateNxt .amoAddr j = .amoScWrite := by
    intro j hj hf
    simp [stateNxt, hj, hlr, hsc, hf, hflag]
  obtain ⟨n, hkn, hn, hwdata, hr, haf, hpa, hq⟩ :=
    reserved_answered hfair h hk hop h3 hal' rfl hnxt
  obtain ⟨hst, hin⟩ := hn.write_answer (p := p) (i := inp n) hop h3 hal' hwdata hr haf
  obtain ⟨-, -, -, -, -, -, hclear⟩ := hn.keeps (p := p) (i := inp n) hop h3 hal' rfl
  rw [← Sync.run_succ (System.next p)] at hst hin hclear
  have hres : (Sync.run (System.next p) s inp (n + 1)).cpu.core.result = 0#32 := by
    simp [Core.result, Core.ctl, hst, moore, boolWord]
  have hleads := leads_of_reservedEnd (r := none) h hm hk (by omega)
    (fun j hkj hj => hq j hkj (by omega)) hin (by rw [hst]; rfl) hres hclear
  have hphys : (physical (s.cpu.core.arch.x (rs1Of s.fetchWord))).toNat % 4 = 0 := by
    rw [physical_mod_four, hm.arch]
    exact hal
  rw [hpa, bytesOf_replace _ hphys, hm.bytes, hm.arch] at hleads
  exact ⟨n + 2, hleads⟩

end Word

/-- An `LR.W`, and an `SC.W` that is to the reserved address or finds no reservation. -/
theorem reserved_leads {i : Reserved} {m' : Machine} (hfair : Fair inp) (h : s.Ready)
    (hm : Represents m s) (hk : FetchedAt p s inp k)
    (hdec : decodeReserved s.fetchWord = some i) (hstep : m.stepReserved i = some m')
    (hreg : ∀ rd rs1 rs2, i = .sc rd rs1 rs2 →
      m.reservation = none ∨ m.reservation = some (m.arch.x rs1)) :
    ∃ n, Leads p s inp k n m' := by
  obtain ⟨hop, h3, hi⟩ := decodeReserved_cases hdec
  have hal : (m.arch.x (rs1Of s.fetchWord)).toNat % 4 = 0 := by
    by_contra hno
    rcases hi with ⟨-, rfl⟩ | ⟨-, -, rfl⟩ <;> simp [Machine.stepReserved, hno] at hstep
  rcases hi with ⟨hlr, rfl⟩ | ⟨hlr, hsc, rfl⟩
  · simp only [Machine.stepReserved, hal, if_true, Option.some.injEq] at hstep
    rw [← hstep]
    exact lr_leads hfair h hm hk hop h3 hal hlr
  · simp only [Machine.stepReserved, hal, if_true] at hstep
    rcases hreg _ _ _ rfl with hnone | hsome
    · simp only [hnone, reduceCtorEq, if_false, Option.some.injEq] at hstep
      rw [← hstep, ← hnone]
      exact sc_fail_leads h hm hk hop h3 hlr hsc hnone
    · simp only [hsome, if_true, Option.some.injEq] at hstep
      rw [← hstep]
      exact sc_leads hfair h hm hk hop h3 hal hlr hsc hsome

end System

end KianRiscV
