/-
# `TVM` and `TW`

The instructions that `mstatus.TVM` and `mstatus.TW` take away from the lower modes, from
their `DECODE` to the next `FETCH`.  The state machine refuses `SFENCE.VMA` and `WFI`, but
the path of the CSR instructions does not look at `TVM`: an access to `satp` goes through.
-/
import KianRiscV.CsrConfinement

namespace KianRiscV

/-! ## The instructions -/

/-- A CSR instruction that addresses `satp`. -/
def accessesSatp (w : Word) : Bool := isCsr w && w.extractLsb' 20 12 == 0x180#12

/-- `CSRAddr` of a CSR instruction is its upper field. -/
theorem csrAddr_of_isCsr {c : Core} (h : isCsr c.instr = true) :
    c.csrAddr = c.instr.extractLsb' 20 12 := by
  have hop : opOf c.instr = 0b1110011#7 := by
    simp only [isCsr, Bool.and_eq_true, beq_iff_eq] at h
    exact h.1
  have himm : c.immExt = (c.instr.extractLsb' 20 12).signExtend 32 := by
    simp [Core.immExt, immExtOf, immSrcOf, isRtype, isItype, isJalr, isLoad, h, hop, extend]
  rw [Core.csrAddr, himm]
  apply BitVec.eq_of_getLsbD_eq
  intro k hk
  rw [BitVec.getLsbD_extractLsb', BitVec.getLsbD_signExtend]
  have hk32 : k < 32 := by omega
  simp [hk, hk32]

namespace Core

/-- The cases in which the instruction is to be refused. -/
def Gated (c : Core) : Prop :=
  (c.csr.privilegeMode = 1#2 ∧ bitOf c.csr.mstatus 20 = true ∧
      (isSfenceVma c.instr = true ∨ accessesSatp c.instr = true)) ∨
    (c.csr.privilegeMode = 0#2 ∧ isSfenceVma c.instr = true) ∨
    ((c.csr.privilegeMode = 0#2 ∨ c.csr.privilegeMode = 1#2) ∧ bitOf c.csr.mstatus 21 = true ∧
      isWfi c.instr = true)

/-- The cases in which it is not. -/
def Free (c : Core) : Prop :=
  ((c.csr.privilegeMode = 3#2 ∨
        (c.csr.privilegeMode = 1#2 ∧ bitOf c.csr.mstatus 20 = false)) ∧
      (isSfenceVma c.instr = true ∨ accessesSatp c.instr = true)) ∨
    ((c.csr.privilegeMode = 3#2 ∨ bitOf c.csr.mstatus 21 = false) ∧ isWfi c.instr = true)

end Core

/-- `SFENCE.VMA` decoded with no interrupt pending. -/
theorem decodeNxt_of_isSfenceVma {i : FsmIn} (hp : i.irq.pending = false)
    (h : isSfenceVma i.instr = true) :
    decodeNxt i = if i.isSfenceVmaLegal then .fetch else .illegal0 := by
  simp only [isSfenceVma, Bool.and_eq_true, beq_iff_eq] at h
  obtain ⟨⟨hop, h3⟩, h7⟩ := h
  have hs : isSfenceVma i.instr = true := by simp [isSfenceVma, hop, h3, h7]
  have hc : isCsr i.instr = false := by simp [isCsr, h3]
  simp [decodeNxt, hp, hs, hc, isLoad, isStore, isRtype, isItype, isJal, isJalr, isBranch, isLui,
    isAuipc, isAmo, hop]

/-- `WFI` decoded with no interrupt pending. -/
theorem decodeNxt_of_isWfi {i : FsmIn} (hp : i.irq.pending = false)
    (h : isWfi i.instr = true) :
    decodeNxt i = if i.wfiIllegal then .illegal0 else .fetch := by
  have hw : i.instr = 0x10500073#32 := by simpa [isWfi] using h
  have ha : i.wfiAllowed = !i.wfiIllegal := by simp [FsmIn.wfiAllowed, h]
  simp only [decodeNxt, hp, ha, hw]
  cases i.wfiIllegal <;> rfl

/-- At rest and without a flush, both TLBs keep their entries. -/
theorem Cpu.tlbs_next {iw dw : ℕ} {p : Params} {s : Cpu iw dw} {i : CpuIn}
    (h : s.mmu.state = .idle) (hf : s.core.tlbFlush (s.coreIn i) = false) :
    (s.next p i).mmu.ptw.itlb.way = s.mmu.ptw.itlb.way ∧
      (s.next p i).mmu.ptw.dtlb.way = s.mmu.ptw.dtlb.way := by
  have hr : (s.mmu.walkIn (s.core.tlbFlush (s.coreIn i)) i.memReady i.memRdata).memReady
      = false := by
    simp [Sv32.walkIn, h]
  have hfill := TableWalk.fillsTlb_of_not_ready (w := s.mmu.ptw) hr
  simp only [Cpu.next, Sv32.next, TableWalk.next, hfill]
  simp only [Sv32.walkIn, hf]
  exact ⟨AssociativeCache.next_way_of_not_write rfl, AssociativeCache.next_way_of_not_write rfl⟩

section Run

variable {iw dw : ℕ} {p : Params} {s : Cpu iw dw} {inp : ℕ → CpuIn} {n j : ℕ}

/-- The instruction decoded in cycle `n` takes an illegal-instruction trap, and `satp` and
the TLBs are the same in the next `FETCH`. -/
structure TrapsIllegal (p : Params) (s : Cpu iw dw) (inp : ℕ → CpuIn) (n j : ℕ) : Prop where
  executes : Executes (coreAt p s inp) n j
  trap : ∃ k, n < k ∧ k < j ∧ raisesException (coreAt p s inp k).state = true ∧
    (csrInAt p s inp k).cause = 2#32
  satp : (coreAt p s inp j).csr.satp = (coreAt p s inp n).csr.satp
  itlb : (Sync.run (Cpu.next p) s inp j).mmu.ptw.itlb.way
    = (Sync.run (Cpu.next p) s inp n).mmu.ptw.itlb.way
  dtlb : (Sync.run (Cpu.next p) s inp j).mmu.ptw.dtlb.way
    = (Sync.run (Cpu.next p) s inp n).mmu.ptw.dtlb.way

/-- The instruction decoded in cycle `n` is refused if it is to be, and only then. -/
def GatingHolds (p : Params) (s : Cpu iw dw) (inp : ℕ → CpuIn) (n : ℕ) : Prop :=
  ((coreAt p s inp n).Gated → ∃ j, TrapsIllegal p s inp n j) ∧
    ((coreAt p s inp n).Free →
      ∃ j, Executes (coreAt p s inp) n j ∧ ¬ TakesTrap (coreAt p s inp) n j)

/-- A cycle after `DECODE` without CSR write and flush. -/
theorem kept_succ (hs : s.IsReset p) (ha : afterDecode (coreAt p s inp n).state = true)
    (hw : (coreAt p s inp n).csr.writes (csrInAt p s inp n) = false)
    (hf : fsmTlbFlush (coreAt p s inp n).state
      ((coreAt p s inp n).fsmIn (coreInAt p s inp n)) = false) :
    (coreAt p s inp (n + 1)).csr.satp = (coreAt p s inp n).csr.satp ∧
      (Sync.run (Cpu.next p) s inp (n + 1)).mmu.ptw.itlb.way
        = (Sync.run (Cpu.next p) s inp n).mmu.ptw.itlb.way ∧
      (Sync.run (Cpu.next p) s inp (n + 1)).mmu.ptw.dtlb.way
        = (Sync.run (Cpu.next p) s inp n).mmu.ptw.dtlb.way := by
  have hflush : (coreAt p s inp n).tlbFlush (coreInAt p s inp n) = false := by
    have hcsr : (coreAt p s inp n).csr.tlbFlush (csrInAt p s inp n) = false := by
      simp [CsrUnit.tlbFlush, hw]
    simp only [Core.tlbFlush, hf, Bool.false_or]
    exact hcsr
  refine ⟨?_, Cpu.tlbs_next (Cpu.idle_afterDecode hs inp n ha) hflush⟩
  rw [csr_succ, CsrUnit.next_satp, hw]
  simp

theorem not_writes_of_state {st : FsmState} (h : (coreAt p s inp n).state = st)
    (hst : st ≠ .execSystem) :
    (coreAt p s inp n).csr.writes (csrInAt p s inp n) = false := by
  have hwe : (csrInAt p s inp n).we = false := by
    show (csrWe _ && (moore (coreAt p s inp n).state _).csrValid) = false
    rw [moore_csrValid, h]
    simp [hst]
  simp [CsrUnit.writes, hwe]

/-- An instruction that `DECODE` sends to `ILLEGAL_0`. -/
theorem trapsIllegal_of_decode (hs : s.IsReset p) (hd : (coreAt p s inp n).state = .decode)
    (h : decodeNxt ((coreAt p s inp n).fsmIn (coreInAt p s inp n)) = .illegal0)
    (hf : ((coreAt p s inp n).fsmIn (coreInAt p s inp n)).sfenceVmaEffective = false) :
    TrapsIllegal p s inp n (n + 3) := by
  have h1 : (coreAt p s inp (n + 1)).state = .illegal0 := by
    rw [state_succ_afterDecode hs (by rw [hd]; rfl), hd]
    exact h
  have h2 : (coreAt p s inp (n + 2)).state = .illegal1 := by
    rw [state_succ_afterDecode hs (by rw [h1]; rfl), h1]
    rfl
  have h3 : (coreAt p s inp (n + 3)).state = .fetch := by
    rw [state_succ_afterDecode hs (by rw [h2]; rfl), h2]
    rfl
  -- none of the three cycles writes a register of the program or the TLBs
  obtain ⟨a1, b1, c1⟩ := kept_succ hs (by rw [hd]; rfl) (not_writes_of_state hd (by decide))
    (by simp [fsmTlbFlush, hf])
  obtain ⟨a2, b2, c2⟩ := kept_succ hs (n := n + 1) (by rw [h1]; rfl)
    (not_writes_of_state h1 (by decide)) (by rw [h1]; rfl)
  obtain ⟨a3, b3, c3⟩ := kept_succ hs (n := n + 2) (by rw [h2]; rfl)
    (not_writes_of_state h2 (by decide)) (by rw [h2]; rfl)
  refine ⟨⟨hd, by omega, h3, fun k hk hk' => ?_⟩, ⟨n + 1, by omega, by omega, ?_, ?_⟩,
    a3.trans (a2.trans a1), b3.trans (b2.trans b1), c3.trans (c2.trans c1)⟩
  · obtain rfl | rfl : k = n + 1 ∨ k = n + 2 := by omega
    · rw [h1]
      decide
    · rw [h2]
      decide
  · rw [h1]
    rfl
  · show cause (coreAt p s inp (n + 1)).state _ = 2#32
    rw [h1]
    rfl

/-- An instruction that `DECODE` sends back to `FETCH`. -/
theorem not_takesTrap_of_decode (hs : s.IsReset p) (hd : (coreAt p s inp n).state = .decode)
    (h : decodeNxt ((coreAt p s inp n).fsmIn (coreInAt p s inp n)) = .fetch) :
    Executes (coreAt p s inp) n (n + 1) ∧ ¬ TakesTrap (coreAt p s inp) n (n + 1) := by
  have h1 : (coreAt p s inp (n + 1)).state = .fetch := by
    rw [state_succ_afterDecode hs (by rw [hd]; rfl), hd]
    exact h
  refine ⟨⟨hd, by omega, h1, fun k hk hk' => by omega⟩, ?_⟩
  rintro ⟨k, hk, hk', hx⟩
  obtain rfl : k = n := by omega
  rw [Core.ctl, moore_exceptionEvent, hd] at hx
  exact absurd hx (by decide)

/-- An access to `satp` outside user mode is done. -/
theorem satp_access_done (hs : s.IsReset p) (hd : (coreAt p s inp n).state = .decode)
    (hp : ((coreAt p s inp n).fsmIn (coreInAt p s inp n)).irq.pending = false)
    (hw : accessesSatp (coreAt p s inp n).instr = true)
    (hm : (coreAt p s inp n).csr.privilegeMode = 1#2 ∨
      (coreAt p s inp n).csr.privilegeMode = 3#2) :
    (coreAt p s inp (n + 1)).state = .execSystem ∧ (coreAt p s inp (n + 2)).state = .systemWb ∧
      (coreAt p s inp (n + 3)).state = .fetch := by
  simp only [accessesSatp, Bool.and_eq_true, beq_iff_eq] at hw
  obtain ⟨hc, ha⟩ := hw
  have h1 : (coreAt p s inp (n + 1)).state = .execSystem := by
    rw [state_succ_afterDecode hs (by rw [hd]; rfl), hd]
    exact decodeNxt_of_isCsr hp hc
  have hi : (coreAt p s inp (n + 1)).instr = (coreAt p s inp n).instr :=
    (Core.next_instr (c := coreAt p s inp n) (by rw [hd]; decide)).1
  have haddr : (coreAt p s inp (n + 1)).csrAddr = 0x180#12 := by
    rw [csrAddr_of_isCsr (by rw [hi]; exact hc), hi, ha]
  have hmode : (coreAt p s inp (n + 1)).csr.privilegeMode
      = (coreAt p s inp n).csr.privilegeMode := (privilegeMode_succ n (by rw [hd]; rfl)).1
  have hfault : (coreAt p s inp (n + 1)).csrAccessFault = false := by
    rw [Core.csrAccessFault, haddr, CsrUnit.csrAccessFault, hmode]
    rcases hm with hm | hm <;> rw [hm] <;> simp [CsrUnit.read]
  have h2 : (coreAt p s inp (n + 2)).state = .systemWb := by
    rw [state_succ_afterDecode hs (by rw [h1]; rfl), h1]
    show (if (coreAt p s inp (n + 1)).csrAccessFault then FsmState.csrFault0 else .systemWb) = _
    rw [hfault]
    rfl
  refine ⟨h1, h2, ?_⟩
  rw [state_succ_afterDecode hs (by rw [h2]; rfl), h2]
  rfl

/-- Such an access takes no trap. -/
theorem satp_access_no_trap (hs : s.IsReset p) (hd : (coreAt p s inp n).state = .decode)
    (hp : ((coreAt p s inp n).fsmIn (coreInAt p s inp n)).irq.pending = false)
    (hw : accessesSatp (coreAt p s inp n).instr = true)
    (hm : (coreAt p s inp n).csr.privilegeMode = 1#2 ∨
      (coreAt p s inp n).csr.privilegeMode = 3#2) :
    Executes (coreAt p s inp) n (n + 3) ∧
      ∀ k, n ≤ k → k < n + 3 → raisesException (coreAt p s inp k).state = false := by
  obtain ⟨h1, h2, h3⟩ := satp_access_done hs hd hp hw hm
  refine ⟨⟨hd, by omega, h3, fun k hk hk' => ?_⟩, fun k hk hk' => ?_⟩
  · obtain rfl | rfl : k = n + 1 ∨ k = n + 2 := by omega
    · rw [h1]
      decide
    · rw [h2]
      decide
  · obtain rfl | rfl | rfl : k = n ∨ k = n + 1 ∨ k = n + 2 := by omega
    · rw [hd]
      rfl
    · rw [h1]
      rfl
    · rw [h2]
      rfl

/-- **`TVM` and `TW`.**  In a run from reset, an instruction that is decoded with no interrupt
pending is refused exactly in the cases in which `TVM` and `TW` ask for it, unless it is an
access to `satp` in supervisor mode with `TVM` set. -/
theorem gating_iff (hs : s.IsReset p) (n : ℕ) (hd : (coreAt p s inp n).state = .decode)
    (hp : ((coreAt p s inp n).fsmIn (coreInAt p s inp n)).irq.pending = false) :
    GatingHolds p s inp n ↔
      ¬ ((coreAt p s inp n).csr.privilegeMode = 1#2 ∧
        bitOf (coreAt p s inp n).csr.mstatus 20 = true ∧
        accessesSatp (coreAt p s inp n).instr = true) := by
  have hmode : ((coreAt p s inp n).fsmIn (coreInAt p s inp n)).privilegeMode
      = (coreAt p s inp n).csr.privilegeMode := rfl
  have htvm : ((coreAt p s inp n).fsmIn (coreInAt p s inp n)).mstatusTvm
      = bitOf (coreAt p s inp n).csr.mstatus 20 := rfl
  have htw : ((coreAt p s inp n).fsmIn (coreInAt p s inp n)).mstatusTw
      = bitOf (coreAt p s inp n).csr.mstatus 21 := rfl
  have hinstr : ((coreAt p s inp n).fsmIn (coreInAt p s inp n)).instr
      = (coreAt p s inp n).instr := rfl
  -- a fence that is not legal
  have fence : isSfenceVma (coreAt p s inp n).instr = true →
      ((coreAt p s inp n).fsmIn (coreInAt p s inp n)).isSfenceVmaLegal = false →
      TrapsIllegal p s inp n (n + 3) := by
    intro hf hl
    refine trapsIllegal_of_decode hs hd ?_ ?_
    · rw [decodeNxt_of_isSfenceVma hp hf, hl]
      rfl
    · simp [FsmIn.sfenceVmaEffective, hl]
  constructor
  · rintro ⟨hg, -⟩ ⟨hm, ht, hw⟩
    obtain ⟨j, hj⟩ := hg (.inl ⟨hm, ht, .inr hw⟩)
    obtain ⟨⟨-, -, h3, hfirst⟩, hno⟩ := satp_access_no_trap hs hd hp hw (.inl hm)
    obtain ⟨k, hk, hkj, hx, -⟩ := hj.trap
    obtain ⟨-, hnj, -, hjfirst⟩ := hj.executes
    have hj3 : j ≤ n + 3 := by
      by_contra hlt
      exact hjfirst (n + 3) (by omega) (by omega) h3
    exact absurd ((hno k (by omega) (by omega)).symm.trans hx) (by decide)
  · intro hno
    refine ⟨?_, ?_⟩
    · rintro (⟨hm, ht, hf | hw⟩ | ⟨hm, hf⟩ | ⟨hm, ht, hw⟩)
      · exact ⟨n + 3, fence hf (by
          rw [FsmIn.isSfenceVmaLegal, hmode, htvm, hm, ht]; rfl)⟩
      · exact absurd ⟨hm, ht, hw⟩ hno
      · exact ⟨n + 3, fence hf (by rw [FsmIn.isSfenceVmaLegal, hmode, hm]; rfl)⟩
      · have hill : ((coreAt p s inp n).fsmIn (coreInAt p s inp n)).wfiIllegal = true := by
          rw [FsmIn.wfiIllegal, hinstr, hw, hmode, htw, ht]
          rcases hm with hm | hm <;> rw [hm] <;> rfl
        refine ⟨n + 3, trapsIllegal_of_decode hs hd ?_ ?_⟩
        · rw [decodeNxt_of_isWfi hp hw, hill]
          rfl
        · have hword : (coreAt p s inp n).instr = 0x10500073#32 := by simpa [isWfi] using hw
          rw [FsmIn.sfenceVmaEffective, hinstr, hword]
          rfl
    · rintro (⟨hm, hf | hw⟩ | ⟨hm, hw⟩)
      · have hl : ((coreAt p s inp n).fsmIn (coreInAt p s inp n)).isSfenceVmaLegal = true := by
          rw [FsmIn.isSfenceVmaLegal, hmode, htvm]
          rcases hm with hm | ⟨hm, ht⟩
          · rw [hm]
            rfl
          · rw [hm, ht]
            rfl
        refine ⟨n + 1, not_takesTrap_of_decode hs hd ?_⟩
        rw [decodeNxt_of_isSfenceVma hp hf, hl]
        rfl
      · have hm' : (coreAt p s inp n).csr.privilegeMode = 1#2 ∨
            (coreAt p s inp n).csr.privilegeMode = 3#2 := by
          rcases hm with hm | ⟨hm, -⟩
          · exact .inr hm
          · exact .inl hm
        obtain ⟨hex, hnx⟩ := satp_access_no_trap hs hd hp hw hm'
        refine ⟨n + 3, hex, ?_⟩
        rintro ⟨k, hk, hk', hx⟩
        rw [Core.ctl, moore_exceptionEvent] at hx
        exact absurd ((hnx k hk hk').symm.trans hx) (by decide)
      · have hill : ((coreAt p s inp n).fsmIn (coreInAt p s inp n)).wfiIllegal = false := by
          rw [FsmIn.wfiIllegal, hinstr, hw, hmode, htw]
          rcases hm with hm | hm <;> rw [hm]
          · rfl
          · simp
        refine ⟨n + 1, not_takesTrap_of_decode hs hd ?_⟩
        rw [decodeNxt_of_isWfi hp hw, hill]
        rfl

end Run

/-! ## Concrete runs -/

/-- `lui x1, 0x100; addi x1, x1, 0x100; csrrw x0, mstatus, x1; csrrwi x0, sepc, 20; sret`
and the given word, which is executed in supervisor mode with `TVM` set. -/
def tvmProgram (w : Word) : BitVec 32 → Word := fun a =>
  [0x001000b7#32, 0x10008093#32, 0x30009073#32, 0x141a5073#32, 0x10200073#32, w].getD a.toNat 0#32

/-- `sfence.vma` is refused. -/
theorem gating_iff_sfence :
    (coreAt sampleParams (System.reset 4 3 sampleParams (tvmProgram 0x12000073#32)).cpu
        ((System.reset 4 3 sampleParams (tvmProgram 0x12000073#32)).busAt sampleParams promptInput)
        37).Gated ∧
    GatingHolds sampleParams (System.reset 4 3 sampleParams (tvmProgram 0x12000073#32)).cpu
      ((System.reset 4 3 sampleParams (tvmProgram 0x12000073#32)).busAt sampleParams promptInput)
      37 := by
  refine ⟨.inl ?_, (gating_iff (System.reset_isReset 4 3 sampleParams
    (tvmProgram 0x12000073#32)).1 37 ?_ ?_).2 ?_⟩
  · rw [coreAt_busAt]
    decide +kernel
  · rw [coreAt_busAt]
    decide +kernel
  · rw [coreAt_busAt, coreInAt_busAt]
    decide +kernel
  · rw [coreAt_busAt]
    decide +kernel

/-- `csrrw x0, satp, x0` goes through. -/
theorem satp_access_not_gated :
    ¬ ∀ (p : Params) (s : Cpu 4 3) (inp : ℕ → CpuIn) (n : ℕ), s.IsReset p →
      (coreAt p s inp n).state = .decode →
      ((coreAt p s inp n).fsmIn (coreInAt p s inp n)).irq.pending = false →
      GatingHolds p s inp n := by
  intro h
  obtain ⟨hg, -⟩ := h sampleParams (System.reset 4 3 sampleParams (tvmProgram 0x18001073#32)).cpu
    ((System.reset 4 3 sampleParams (tvmProgram 0x18001073#32)).busAt sampleParams promptInput) 37
    (System.reset_isReset 4 3 sampleParams (tvmProgram 0x18001073#32)).1
    (by rw [coreAt_busAt]; decide +kernel)
    (by rw [coreAt_busAt, coreInAt_busAt]; decide +kernel)
  obtain ⟨j, hj⟩ := hg (.inl (by rw [coreAt_busAt]; decide +kernel))
  obtain ⟨k, hk, hkj, hx, -⟩ := hj.trap
  -- the next `FETCH` is cycle 40, and no state before it raises an exception
  have hj40 : j ≤ 40 := by
    by_contra hlt
    exact hj.executes.2.2.2 40 (by omega) (by omega) (by rw [coreAt_busAt]; decide +kernel)
  rw [coreAt_busAt] at hx
  revert hx
  obtain rfl | rfl : k = 38 ∨ k = 39 := by omega
  all_goals decide +kernel

end KianRiscV
