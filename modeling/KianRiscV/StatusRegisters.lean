/-
# `mstatus` and `mip` over whole runs

Three invariants one expects of the status registers, each with the exact condition under
which a run keeps it: `MPRV` is clear below machine mode, the privilege mode and `MPP` are
never the reserved mode, and the pending bits of `mip` follow their sources.
-/
import KianRiscV.Privilege

namespace KianRiscV

/-! ## Fields of a register -/

section Bits

variable {n k : ℕ} (a b : Word) (x : Bool)

theorem bitOf_or : bitOf (a ||| b) n = (bitOf a n || bitOf b n) := BitVec.getLsbD_or

theorem bitOf_and : bitOf (a &&& b) n = (bitOf a n && bitOf b n) := BitVec.getLsbD_and

theorem bitOf_not (h : n < 32) : bitOf (~~~a) n = !bitOf a n := by
  unfold bitOf
  rw [BitVec.getLsbD_not, decide_eq_true h, Bool.true_and]

theorem bitOf_setBit (hn : n < 32) : bitOf (setBit k x) n = (decide (n = k) && x) := by
  unfold bitOf setBit boolWord
  rw [BitVec.getLsbD_shiftLeft, BitVec.getLsbD_setWidth, BitVec.getLsbD_ofBool,
    decide_eq_true hn, Bool.true_and]
  by_cases hnk : n = k
  · subst hnk
    simp
  · by_cases hlt : n < k
    · simp [hlt, hnk]
    · have hpos : n - k ≠ 0 := by omega
      simp [hnk, hpos]

/-- `MPP` is its two bits. -/
theorem mppOf_eq_iff (m : BitVec 2) :
    mppOf a = m ↔ bitOf a 11 = m.getLsbD 0 ∧ bitOf a 12 = m.getLsbD 1 := by
  unfold mppOf bitOf
  constructor
  · intro h
    rw [← h]
    simp
  · rintro ⟨h0, h1⟩
    apply BitVec.eq_of_getLsbD_eq
    intro i hi
    rw [BitVec.getLsbD_extractLsb']
    obtain rfl | rfl : i = 0 ∨ i = 1 := by omega
    · simpa using h0
    · simpa using h1

end Bits

namespace CsrUnit

/-! ## What an edge does to `mstatus` -/

/-- A CSR write reaches `mstatus` through its own address and through `sstatus`. -/
theorem write_mstatus (c : CsrUnit) (a : BitVec 12) (w : Word) :
    (c.write a w).mstatus =
      if a = 0x300#12 then w
      else if a = 0x100#12 then (c.mstatus &&& ~~~sstatusMask) ||| (w &&& sstatusMask)
      else c.mstatus := by
  simp only [write, apply_ite CsrUnit.mstatus, ite_self]
  by_cases h3 : a = 0x300#12
  · rw [if_pos h3, if_pos h3]
  · by_cases h1 : a = 0x100#12
    · subst h1
      simp
    · simp only [if_neg h3, if_neg h1, ite_self]

theorem next_mstatus (clk : ℕ) (c : CsrUnit) (i : CsrIn) :
    (c.next clk i).mstatus =
      if i.exceptionEvent then (c.takeException i.cause i.pc i.badaddr).mstatus
      else if i.mret then c.takeMret.mstatus
      else if i.sret then c.takeSret.mstatus
      else if c.writes i = true ∧ i.csrAddr = 0x300#12 then c.wdataNxt i
      else if c.writes i = true ∧ i.csrAddr = 0x100#12 then
        (c.mstatus &&& ~~~sstatusMask) ||| (c.wdataNxt i &&& sstatusMask)
      else c.mstatus := by
  rw [next_mstatus_eq]
  cases hw : c.writes i with
  | true =>
    obtain ⟨he, hm, hs⟩ := not_event_of_writes hw
    rw [eventNext_of_writes hw, write_mstatus, he, hm, hs]
    simp
  | false =>
    simp only [Bool.false_eq_true, false_and, if_false]
    cases he : i.exceptionEvent with
    | true =>
      simp only [eventNext, he, if_true]
      unfold takeException
      simp only [delegated]
      split <;> rfl
    | false =>
      cases hm : i.mret with
      | true => simp [eventNext, he, hm, takeMret]
      | false =>
        cases hs : i.sret with
        | true => simp [eventNext, he, hm, hs, takeSret]
        | false => simp [eventNext_of_not_writes he hm hs hw]

/-- A write to a machine register is done in machine mode. -/
theorem privilegeMode_of_writes {c : CsrUnit} {i : CsrIn} (h : c.writes i = true)
    (ha : i.csrAddr.extractLsb' 8 2 = 3#2) : c.privilegeMode = 3#2 := by
  have hf : c.csrAccessFault i.csrAddr i.we = false := by
    unfold writes at h
    simp only [Bool.and_eq_true, Bool.not_eq_true'] at h
    exact h.2
  unfold csrAccessFault at hf
  rw [ha] at hf
  simp only [Bool.or_eq_false_iff] at hf
  have hlt := hf.1.1
  revert hlt
  generalize c.privilegeMode = m
  revert m
  decide

/-! ## `MPRV` -/

/-- `MPRV` is clear below machine mode. -/
def MprvOk (c : CsrUnit) : Prop := c.privilegeMode ≠ 3#2 → bitOf c.mstatus 17 = false

/-- The edge returns with `SRET` from a state with `MPRV` set and machine mode in `MPP`. -/
def KeepsMprv (c : CsrUnit) (i : CsrIn) : Prop :=
  i.exceptionEvent = false ∧ i.mret = false ∧ i.sret = true ∧ bitOf c.mstatus 17 = true ∧
    mppOf c.mstatus = 3#2

theorem takeException_mprv (c : CsrUnit) (cause pc badaddr : Word) :
    bitOf (c.takeException cause pc badaddr).mstatus 17 = bitOf c.mstatus 17 := by
  have hs : bitOf sStackMask 17 = false := by decide
  have hm : bitOf mStackMask 17 = false := by decide
  have hp : bitOf (c.privilegeMode.setWidth 32 <<< 11) 17 = false := by
    unfold bitOf
    simp
  unfold takeException
  split
  · simp [bitOf_or, bitOf_and, bitOf_not, bitOf_setBit, hs]
  · simp [bitOf_or, bitOf_and, bitOf_not, bitOf_setBit, hm, hp]

theorem takeMret_mprv (c : CsrUnit) :
    bitOf c.takeMret.mstatus 17 = (bitOf c.mstatus 17 && isMachine (mppOf c.mstatus)) := by
  have hm : bitOf mStackMask 17 = false := by decide
  simp [takeMret, bitOf_or, bitOf_and, bitOf_not, bitOf_setBit, hm]

theorem takeSret_mprv (c : CsrUnit) :
    bitOf c.takeSret.mstatus 17 = (bitOf c.mstatus 17 && isMachine (mppOf c.mstatus)) := by
  have hs : bitOf sStackMask 17 = false := by decide
  simp [takeSret, bitOf_or, bitOf_and, bitOf_not, bitOf_setBit, hs]

/-- `SRET` never goes to machine mode. -/
theorem sppOf_ne_three (m : Word) : sppOf m ≠ 3#2 := by
  unfold sppOf
  cases bitOf m 8 <;> decide

/-- One edge keeps `MPRV` clear below machine mode, but for that `SRET`. -/
theorem MprvOk.next {c : CsrUnit} (h : c.MprvOk) {i : CsrIn} (hi : ¬ c.KeepsMprv i) (clk : ℕ) :
    (c.next clk i).MprvOk := by
  unfold MprvOk
  rw [next_privilegeMode, next_mstatus]
  cases he : i.exceptionEvent with
  | true =>
    rw [if_pos rfl, if_pos rfl, takeException_mprv]
    intro hne
    -- a trap that stays below machine mode is delegated, so it comes from below
    refine h fun hm => hne ?_
    have hd : c.delegated i.cause = false := by simp [delegated, hm, isUser, isSupervisor]
    rw [hd]
    rfl
  | false =>
    cases hm : i.mret with
    | true =>
      simp only [Bool.false_eq_true, if_false, if_true, takeMret_mprv]
      intro hne
      simp [isMachine, hne]
    | false =>
      cases hs : i.sret with
      | true =>
        simp only [Bool.false_eq_true, if_false, if_true, takeSret_mprv]
        intro _
        by_contra hno
        simp only [Bool.not_eq_false, Bool.and_eq_true, isMachine, beq_iff_eq] at hno
        exact hi ⟨he, hm, hs, hno.1, hno.2⟩
      | false =>
        simp only [Bool.false_eq_true, if_false]
        intro hne
        split
        · rename_i hw
          exact absurd (privilegeMode_of_writes hw.1 (by rw [hw.2]; rfl)) hne
        · split
          · have hmask : bitOf sstatusMask 17 = false := by decide
            simp [bitOf_or, bitOf_and, bitOf_not, hmask, h hne]
          · exact h hne

/-- That `SRET` leaves `MPRV` set below machine mode. -/
theorem not_mprvOk_of_keepsMprv {c : CsrUnit} {i : CsrIn} (h : c.KeepsMprv i) (clk : ℕ) :
    ¬ (c.next clk i).MprvOk := by
  obtain ⟨he, hm, hs, hp, hmpp⟩ := h
  intro hok
  unfold MprvOk at hok
  rw [next_privilegeMode, next_mstatus, he, hm, hs] at hok
  simp only [Bool.false_eq_true, if_false, if_true, takeSret_mprv] at hok
  have := hok (sppOf_ne_three _)
  simp [hp, hmpp, isMachine] at this

/-! ## The reserved mode -/

/-- Neither the privilege mode nor `MPP` is the reserved mode. -/
def ModesOk (c : CsrUnit) : Prop := c.privilegeMode ≠ 2#2 ∧ mppOf c.mstatus ≠ 2#2

/-- The edge writes the reserved mode into `MPP`. -/
def WritesReserved (c : CsrUnit) (i : CsrIn) : Prop :=
  c.writes i = true ∧ i.csrAddr = 0x300#12 ∧ mppOf (c.wdataNxt i) = 2#2

/-- `MPP` after a trap is unchanged or the mode the trap comes from. -/
theorem takeException_mpp (c : CsrUnit) (cause pc badaddr : Word) :
    mppOf (c.takeException cause pc badaddr).mstatus
      = if c.delegated cause then mppOf c.mstatus else c.privilegeMode := by
  have hp : ∀ k, k < 2 → bitOf (c.privilegeMode.setWidth 32 <<< 11) (11 + k)
      = c.privilegeMode.getLsbD k := by
    intro k hk
    unfold bitOf
    rw [BitVec.getLsbD_shiftLeft, BitVec.getLsbD_setWidth]
    rcases (by omega : k = 0 ∨ k = 1) with rfl | rfl <;> simp
  have hs : bitOf sStackMask 11 = false ∧ bitOf sStackMask 12 = false := by decide
  have hm : bitOf mStackMask 11 = true ∧ bitOf mStackMask 12 = true := by decide
  have h0 := hp 0 (by omega)
  have h1 := hp 1 (by omega)
  simp only [Nat.add_zero, Nat.reduceAdd] at h0 h1
  rw [mppOf_eq_iff]
  unfold takeException
  split
  · have h := (mppOf_eq_iff c.mstatus _).1 rfl
    simp [bitOf_or, bitOf_and, bitOf_not, bitOf_setBit, hs, h]
  · simp [bitOf_or, bitOf_and, bitOf_not, bitOf_setBit, hm, h0, h1]

theorem takeMret_mpp (c : CsrUnit) : mppOf c.takeMret.mstatus = 0#2 := by
  have hm : bitOf mStackMask 11 = true ∧ bitOf mStackMask 12 = true := by decide
  rw [mppOf_eq_iff]
  simp [takeMret, bitOf_or, bitOf_and, bitOf_not, bitOf_setBit, hm]

theorem takeSret_mpp (c : CsrUnit) : mppOf c.takeSret.mstatus = mppOf c.mstatus := by
  have hs : bitOf sStackMask 11 = false ∧ bitOf sStackMask 12 = false := by decide
  have h := (mppOf_eq_iff c.mstatus _).1 rfl
  rw [mppOf_eq_iff]
  simp [takeSret, bitOf_or, bitOf_and, bitOf_not, bitOf_setBit, hs, h]

/-- A write to `sstatus` does not reach `MPP`. -/
theorem sstatus_mpp (m w : Word) :
    mppOf ((m &&& ~~~sstatusMask) ||| (w &&& sstatusMask)) = mppOf m := by
  have hs : bitOf sstatusMask 11 = false ∧ bitOf sstatusMask 12 = false := by decide
  have h := (mppOf_eq_iff m _).1 rfl
  rw [mppOf_eq_iff]
  simp [bitOf_or, bitOf_and, bitOf_not, hs, h]

theorem sppOf_ne_two (m : Word) : sppOf m ≠ 2#2 := by
  unfold sppOf
  cases bitOf m 8 <;> decide

/-- One edge keeps the modes defined, but for a write of the reserved mode. -/
theorem ModesOk.next {c : CsrUnit} (h : c.ModesOk) {i : CsrIn} (hi : ¬ c.WritesReserved i)
    (clk : ℕ) : (c.next clk i).ModesOk := by
  unfold ModesOk
  rw [next_privilegeMode, next_mstatus]
  cases i.exceptionEvent with
  | true =>
    simp only [if_true, takeException_mpp]
    cases c.delegated i.cause with
    | true => exact ⟨by decide, h.2⟩
    | false => exact ⟨by decide, h.1⟩
  | false =>
    cases i.mret with
    | true =>
      simp only [Bool.false_eq_true, if_false, if_true, takeMret_mpp]
      exact ⟨h.2, by decide⟩
    | false =>
      cases i.sret with
      | true =>
        simp only [Bool.false_eq_true, if_false, if_true, takeSret_mpp]
        exact ⟨sppOf_ne_two _, h.2⟩
      | false =>
        simp only [Bool.false_eq_true, if_false]
        refine ⟨h.1, ?_⟩
        split
        · rename_i hw
          exact fun hr => hi ⟨hw.1, hw.2, hr⟩
        · split
          · rw [sstatus_mpp]
            exact h.2
          · exact h.2

theorem not_modesOk_of_writesReserved {c : CsrUnit} {i : CsrIn} (h : c.WritesReserved i)
    (clk : ℕ) : ¬ (c.next clk i).ModesOk := by
  obtain ⟨he, hm, hs⟩ := not_event_of_writes h.1
  rintro ⟨-, hmpp⟩
  rw [next_mstatus, he, hm, hs] at hmpp
  simp only [Bool.false_eq_true, if_false, h.1, h.2.1, and_self, if_true] at hmpp
  exact hmpp h.2.2

/-! ## `mip` -/

/-- The pending bits of `c'` are what the lines of the cycle before and the timer of `c`
say. -/
structure Tracks (c c' : CsrUnit) (irq3 irq7 irq9 irq11 : Bool) : Prop where
  msip : bitOf c'.mip 3 = irq3
  mtip : bitOf c'.mip 7 = irq7
  seip : bitOf c'.mip 9 = irq9
  meip : bitOf c'.mip 11 = irq11
  stip : c.checkSstcConditions = true →
    bitOf c'.mip 5 = (c.stimecmph ++ c.stimecmp).ule c.timerCounter

/-- The bits of `mip_next`; `MSIP` alone keeps its old value. -/
theorem mipNext_bits (c : CsrUnit) (irq3 irq7 irq9 irq11 : Bool) :
    bitOf (c.mipNext irq3 irq7 irq9 irq11) 3 = (bitOf c.mip 3 || irq3) ∧
      bitOf (c.mipNext irq3 irq7 irq9 irq11) 7 = irq7 ∧
      bitOf (c.mipNext irq3 irq7 irq9 irq11) 9 = irq9 ∧
      bitOf (c.mipNext irq3 irq7 irq9 irq11) 11 = irq11 ∧
      bitOf (c.mipNext irq3 irq7 irq9 irq11) 5
        = ((bitOf c.mip 5 && !c.checkSstcConditions) || c.checkSstcTmAndCmp) := by
  have hc : ∀ n, n < 12 → ∀ k, k < 12 → bitOf (1#32 <<< k) n = decide (n = k) := by decide
  simp only [mipNext, bitOf_or, bitOf_and, bitOf_not, bitOf_setBit, hc, Nat.reduceLT]
  simp

theorem next_mip (clk : ℕ) (c : CsrUnit) (i : CsrIn) (h : c.writesMip i = false) :
    (c.next clk i).mip = c.mipNext i.irq3 i.irq7 i.irq9 i.irq11 := by
  unfold next
  rw [h]
  rfl

/-- After an edge that does not write it, `mip` follows its sources exactly if `MSIP` was
not left over. -/
theorem tracks_next_iff (clk : ℕ) (c : CsrUnit) (i : CsrIn) (h : c.writesMip i = false) :
    Tracks c (c.next clk i) i.irq3 i.irq7 i.irq9 i.irq11
      ↔ (bitOf c.mip 3 = true → i.irq3 = true) := by
  obtain ⟨h3, h7, h9, h11, h5⟩ := mipNext_bits c i.irq3 i.irq7 i.irq9 i.irq11
  rw [← next_mip clk c i h] at h3 h7 h9 h11 h5
  constructor
  · intro ht hm
    rw [← ht.msip, h3, hm]
    rfl
  · intro hm
    refine ⟨?_, h7, h9, h11, fun hs => ?_⟩
    · rw [h3]
      cases hb : bitOf c.mip 3 with
      | false => rfl
      | true => rw [hm hb]; rfl
    · rw [h5, hs]
      simp [checkSstcTmAndCmp, hs]

/-- The edge raises `MSIP`: by its line, or by a write to `mip`. -/
def SetsMsip (c : CsrUnit) (i : CsrIn) : Prop :=
  (c.writesMip i = false ∧ i.irq3 = true) ∨
    (c.writes i = true ∧ i.csrAddr = 0x344#12 ∧ bitOf (c.wdataNxt i) 3 = true)

/-- The edge clears `MSIP`, which only a write to `mip` does. -/
def ClearsMsip (c : CsrUnit) (i : CsrIn) : Prop :=
  c.writes i = true ∧ i.csrAddr = 0x344#12 ∧ bitOf (c.wdataNxt i) 3 = false

/-- A CSR write reaches `mip` through its own address and through `sip`. -/
theorem next_mip_of_writes {c : CsrUnit} {i : CsrIn} (h : c.writesMip i = true) (clk : ℕ) :
    (c.next clk i).mip = if i.csrAddr = 0x344#12 then c.wdataNxt i
      else (c.mip &&& ~~~sipMask) ||| (c.wdataNxt i &&& sipMask) := by
  have hw : c.writes i = true := by
    simp only [writesMip, Bool.and_eq_true] at h
    exact h.1
  have ha : i.csrAddr = 0x344#12 ∨ i.csrAddr = 0x144#12 := by
    simpa [writesMip, hw] using h
  have hev : (c.next clk i).mip = (c.eventNext i).mip := by
    unfold next
    rw [h, if_pos rfl]
    rfl
  rw [hev, eventNext_of_writes hw]
  rcases ha with ha | ha <;> rw [ha] <;> rfl

theorem next_msip (clk : ℕ) (c : CsrUnit) (i : CsrIn) :
    bitOf (c.next clk i).mip 3 = true ↔
      c.SetsMsip i ∨ (bitOf c.mip 3 = true ∧ ¬ c.ClearsMsip i) := by
  cases h : c.writesMip i with
  | false =>
    have hno : ¬ (c.writes i = true ∧ i.csrAddr = 0x344#12) := by
      rintro ⟨hw, ha⟩
      simp [writesMip, hw, ha] at h
    have hset : c.SetsMsip i ↔ i.irq3 = true := by
      constructor
      · rintro (hx | hx)
        · exact hx.2
        · exact absurd ⟨hx.1, hx.2.1⟩ hno
      · exact fun hx => .inl ⟨h, hx⟩
    have hclr : ¬ c.ClearsMsip i := fun hx => hno ⟨hx.1, hx.2.1⟩
    rw [next_mip clk c i h, (mipNext_bits c _ _ _ _).1, hset]
    simp [hclr, or_comm]
  | true =>
    have hw : c.writes i = true := by
      simp only [writesMip, Bool.and_eq_true] at h
      exact h.1
    rw [next_mip_of_writes h]
    unfold SetsMsip ClearsMsip
    by_cases ha : i.csrAddr = 0x344#12
    · rw [if_pos ha]
      simp [h, hw, ha]
    · have hmask : bitOf sipMask 3 = false := by decide
      rw [if_neg ha]
      simp [h, ha, bitOf_or, bitOf_and, bitOf_not, hmask]

end CsrUnit

/-! ## Runs of the processor -/

/-- `MPRV` is clear below machine mode, and the data translator works for the mode it has
latched unless that is machine mode. -/
structure Cpu.MprvConfined {iw dw : ℕ} (s : Cpu iw dw) : Prop where
  mprv : s.core.csr.MprvOk
  data : s.mmu.privModeQ ≠ 3#2 → effectivePriv s.mmu.privModeQ s.mmu.mstatusQ = s.mmu.privModeQ

theorem Cpu.MprvConfined.next {iw dw : ℕ} {p : Params} {s : Cpu iw dw} (h : s.MprvConfined)
    {i : CpuIn} (hi : ¬ s.core.csr.KeepsMprv (s.core.csrIn (s.coreIn i))) :
    (s.next p i).MprvConfined := by
  refine ⟨h.mprv.next hi _, ?_⟩
  show (if s.mmu.translationStart s.req i.memReady then s.core.csr.privilegeMode
      else s.mmu.privModeQ) ≠ 3#2 →
    effectivePriv (if s.mmu.translationStart s.req i.memReady then s.core.csr.privilegeMode
        else s.mmu.privModeQ)
      (if s.mmu.translationStart s.req i.memReady then s.core.csr.mstatus else s.mmu.mstatusQ)
    = if s.mmu.translationStart s.req i.memReady then s.core.csr.privilegeMode
      else s.mmu.privModeQ
  split
  · intro hne
    rw [effectivePriv, h.mprv hne]
    rfl
  · exact h.data

theorem Cpu.IsReset.mprvConfined {iw dw : ℕ} {p : Params} {s : Cpu iw dw} (h : s.IsReset p) :
    s.MprvConfined := by
  obtain ⟨⟨-, -, -, -, -, -, -, -, -, hcsr, -, -⟩,
    -, -, -, -, -, -, -, -, -, hm, hp, -⟩ := h
  constructor
  · rw [hcsr]
    intro hne
    exact absurd rfl hne
  · intro _
    rw [hm, hp]
    rfl

/-- `SRET` is executed in its own state. -/
theorem Core.keepsMprv_iff (c : Core) (i : CoreIn) :
    c.csr.KeepsMprv (c.csrIn i) ↔
      c.state = .sret0 ∧ bitOf c.csr.mstatus 17 = true ∧ mppOf c.csr.mstatus = 3#2 := by
  have he : (c.csrIn i).exceptionEvent = raisesException c.state := moore_exceptionEvent _ _
  have hm : (c.csrIn i).mret = (c.state == .mret0) := moore_mret _ _
  have hs : (c.csrIn i).sret = (c.state == .sret0) := moore_sret _ _
  unfold CsrUnit.KeepsMprv
  rw [he, hm, hs]
  constructor
  · rintro ⟨-, -, hst, hrest⟩
    exact ⟨beq_iff_eq.1 hst, hrest⟩
  · rintro ⟨hst, hrest⟩
    rw [hst]
    exact ⟨rfl, rfl, rfl, hrest⟩

section Run

variable {iw dw : ℕ} {p : Params} {s : Cpu iw dw} {inp : ℕ → CpuIn}

/-- **`MPRV` and `SRET`.**  In a run from reset `MPRV` stays clear below machine mode, and
no data access below machine mode is translated for `MPP`, exactly if no `SRET` is executed
with `MPRV` set and machine mode in `MPP`. -/
theorem mprv_confined_iff (hs : s.IsReset p) :
    (∀ n, (Sync.run (Cpu.next p) s inp n).MprvConfined) ↔
      ∀ n, (coreAt p s inp n).state = .sret0 →
        ¬ (bitOf (coreAt p s inp n).csr.mstatus 17 = true ∧
          mppOf (coreAt p s inp n).csr.mstatus = 3#2) := by
  constructor
  · intro h n hst hno
    have hkeep : (coreAt p s inp n).csr.KeepsMprv
        ((coreAt p s inp n).csrIn (coreInAt p s inp n)) :=
      (Core.keepsMprv_iff _ _).2 ⟨hst, hno⟩
    exact CsrUnit.not_mprvOk_of_keepsMprv hkeep p.systemClk (h (n + 1)).mprv
  · intro h
    refine Sync.run_invariant hs.mprvConfined fun n hn => hn.next fun hkeep => ?_
    obtain ⟨hst, hno⟩ := (Core.keepsMprv_iff _ _).1 hkeep
    exact h n hst hno

/-- **Defined modes.**  In a run from reset the privilege mode and `MPP` are never the
reserved mode, exactly if no CSR instruction writes it into `MPP`. -/
theorem modes_defined_iff (hs : s.IsReset p) :
    (∀ n, (coreAt p s inp n).csr.ModesOk) ↔
      ∀ n, ¬ (coreAt p s inp n).csr.WritesReserved
        ((coreAt p s inp n).csrIn (coreInAt p s inp n)) := by
  constructor
  · intro h n hw
    exact CsrUnit.not_modesOk_of_writesReserved hw p.systemClk (h (n + 1))
  · intro h
    have hreset : s.core.csr.ModesOk := by
      rw [hs.1.2.2.2.2.2.2.2.2.2.1]
      exact ⟨by decide, by decide⟩
    exact Sync.run_invariant (P := fun t : Cpu iw dw => t.core.csr.ModesOk) hreset
      fun n hn => hn.next (h n) _

/-- In cycle `n` the line of `MSIP` is low, but it has been raised in an earlier cycle and
not been cleared by a write to `mip` since. -/
def MsipLeftOver (p : Params) (s : Cpu iw dw) (inp : ℕ → CpuIn) (n : ℕ) : Prop :=
  (inp n).irq3 = false ∧
    ∃ k, k < n ∧ (coreAt p s inp k).csr.SetsMsip ((coreAt p s inp k).csrIn (coreInAt p s inp k)) ∧
      ∀ j, k < j → j < n →
        ¬ (coreAt p s inp j).csr.ClearsMsip ((coreAt p s inp j).csrIn (coreInAt p s inp j))

/-- `MSIP` is set if and only if it has been raised and not been cleared since. -/
theorem msip_iff (hs : s.IsReset p) (n : ℕ) :
    bitOf (coreAt p s inp n).csr.mip 3 = true ↔
      ∃ k, k < n ∧
        (coreAt p s inp k).csr.SetsMsip ((coreAt p s inp k).csrIn (coreInAt p s inp k)) ∧
        ∀ j, k < j → j < n →
          ¬ (coreAt p s inp j).csr.ClearsMsip ((coreAt p s inp j).csrIn (coreInAt p s inp j)) := by
  induction n with
  | zero =>
    have h0 : (coreAt p s inp 0).csr = CsrUnit.reset := hs.1.2.2.2.2.2.2.2.2.2.1
    rw [h0]
    constructor
    · intro h
      exact absurd h (by decide)
    · rintro ⟨k, hk, -⟩
      omega
  | succ n ih =>
    refine (CsrUnit.next_msip p.systemClk _ _).trans ?_
    constructor
    · rintro (hset | ⟨hold, hclr⟩)
      · exact ⟨n, by omega, hset, fun j _ _ => by omega⟩
      · obtain ⟨k, hk, hset, hno⟩ := ih.1 hold
        refine ⟨k, by omega, hset, fun j hkj hj => ?_⟩
        rcases Nat.lt_succ_iff_lt_or_eq.1 hj with hj | rfl
        · exact hno j hkj hj
        · exact hclr
    · rintro ⟨k, hk, hset, hno⟩
      rcases Nat.lt_succ_iff_lt_or_eq.1 hk with hk | rfl
      · exact .inr ⟨ih.2 ⟨k, hk, hset, fun j hkj hj => hno j hkj (by omega)⟩,
          hno n hk (by omega)⟩
      · exact .inl hset

/-- **Pending bits.**  In a run from reset, after every cycle that does not write `mip` or
`sip` the pending bits are those of the sources, exactly if `MSIP` is not left over from a
line that has fallen. -/
theorem mip_tracks_iff (hs : s.IsReset p) (n : ℕ)
    (hw : (coreAt p s inp n).csr.writesMip
      ((coreAt p s inp n).csrIn (coreInAt p s inp n)) = false) :
    CsrUnit.Tracks (coreAt p s inp n).csr (coreAt p s inp (n + 1)).csr (inp n).irq3 (inp n).irq7
        (inp n).irq9 (inp n).irq11
      ↔ ¬ MsipLeftOver p s inp n := by
  have hstep : CsrUnit.Tracks (coreAt p s inp n).csr (coreAt p s inp (n + 1)).csr (inp n).irq3
      (inp n).irq7 (inp n).irq9 (inp n).irq11
      ↔ (bitOf (coreAt p s inp n).csr.mip 3 = true → (inp n).irq3 = true) :=
    CsrUnit.tracks_next_iff p.systemClk _ _ hw
  rw [hstep, msip_iff hs n, MsipLeftOver, not_and']
  simp

end Run

/-! ## Concrete runs -/

/-- `lui x1, 34; addi x1, x1, -2048; csrrw x0, mstatus, x1; sret`: `MPRV` set and machine
mode in `MPP`, then a return to user mode. -/
def mprvProgram : BitVec 32 → Word := fun a =>
  [0x000220b7#32, 0x80008093#32, 0x30009073#32, 0x10200073#32].getD a.toNat 0#32

/-- `lui x1, 1; csrrw x0, mstatus, x1; mret`: a return to the reserved mode. -/
def reservedProgram : BitVec 32 → Word := fun a =>
  [0x000010b7#32, 0x30009073#32, 0x30200073#32].getD a.toNat 0#32

/-- The line of `MSIP` is high in cycle 0 only. -/
def msipPulse : ℕ → CpuIn := fun n => ⟨false, 0#32, false, n == 0, false, false, false⟩

theorem mprv_confined_iff_mprvProgram :
    (System.reset 4 3 sampleParams mprvProgram).cpu.IsReset sampleParams ∧
      ¬ ∀ n, (Sync.run (Cpu.next sampleParams) (System.reset 4 3 sampleParams mprvProgram).cpu
        ((System.reset 4 3 sampleParams mprvProgram).busAt sampleParams promptInput) n).MprvConfined := by
  have hreset := (System.reset_isReset 4 3 sampleParams mprvProgram).1
  refine ⟨hreset, fun h => (mprv_confined_iff hreset).1 h 23 ?_ ⟨?_, ?_⟩⟩
  all_goals
    rw [coreAt_busAt]
    decide +kernel

/-- The `sret` of `mprvProgram` reaches user mode with `MPRV` set. -/
theorem sret_leaks_mprv :
    ¬ ∀ (p : Params) (s : System 4 3) (inp : ℕ → SystemIn), s.IsReset p →
      ∀ n, (Sync.run (System.next p) s inp n).cpu.MprvConfined := by
  intro h
  have hok := (h _ _ promptInput (System.reset_isReset 4 3 sampleParams mprvProgram) 24).mprv
  have hmode : (Sync.run (System.next sampleParams) (System.reset 4 3 sampleParams mprvProgram)
      promptInput 24).cpu.core.csr.privilegeMode ≠ 3#2 := by decide +kernel
  have hbit := hok hmode
  revert hbit
  decide +kernel

theorem modes_defined_iff_reservedProgram :
    (System.reset 4 3 sampleParams reservedProgram).cpu.IsReset sampleParams ∧
      ¬ ∀ n, (coreAt sampleParams (System.reset 4 3 sampleParams reservedProgram).cpu
        ((System.reset 4 3 sampleParams reservedProgram).busAt sampleParams promptInput)
          n).csr.ModesOk := by
  have hreset := (System.reset_isReset 4 3 sampleParams reservedProgram).1
  refine ⟨hreset, fun h => (modes_defined_iff hreset).1 h 11 ?_⟩
  rw [coreAt_busAt, coreInAt_busAt]
  refine ⟨?_, ?_, ?_⟩
  all_goals decide +kernel

/-- `reservedProgram` writes the reserved mode into `MPP` and returns to it. -/
theorem mret_to_reserved_mode :
    ¬ ∀ (p : Params) (s : System 4 3) (inp : ℕ → SystemIn), s.IsReset p →
      ∀ n, (Sync.run (System.next p) s inp n).cpu.core.csr.privilegeMode ≠ 2#2 ∧
        mppOf (Sync.run (System.next p) s inp n).cpu.core.csr.mstatus ≠ 2#2 := by
  intro h
  have hok := (h _ _ promptInput (System.reset_isReset 4 3 sampleParams reservedProgram) 18).1
  revert hok
  decide +kernel

/-- In cycle 1 the line is low again. -/
theorem mip_tracks_iff_pulse :
    (System.reset 4 3 sampleParams reservedProgram).cpu.IsReset sampleParams ∧
      ¬ CsrUnit.Tracks
        (coreAt sampleParams (System.reset 4 3 sampleParams reservedProgram).cpu msipPulse 1).csr
        (coreAt sampleParams (System.reset 4 3 sampleParams reservedProgram).cpu msipPulse 2).csr
        false false false false := by
  have hreset := (System.reset_isReset 4 3 sampleParams reservedProgram).1
  refine ⟨hreset, fun h => (mip_tracks_iff hreset 1 (by decide +kernel)).1 h
    ⟨rfl, 0, by omega, .inl ⟨by decide +kernel, rfl⟩, fun j hj hj' => absurd hj' (by omega)⟩⟩

/-- After a pulse on its line `MSIP` stays set. -/
theorem msip_stays_after_pulse :
    ¬ ∀ (p : Params) (s : Cpu 4 3) (inp : ℕ → CpuIn), s.IsReset p → ∀ n,
      (coreAt p s inp n).csr.writesMip ((coreAt p s inp n).csrIn (coreInAt p s inp n)) = false →
      CsrUnit.Tracks (coreAt p s inp n).csr (coreAt p s inp (n + 1)).csr (inp n).irq3
        (inp n).irq7 (inp n).irq9 (inp n).irq11 := by
  intro h
  have ht := h _ _ msipPulse (System.reset_isReset 4 3 sampleParams reservedProgram).1 1
    (by decide +kernel)
  have hm := ht.msip
  revert hm
  decide +kernel

end KianRiscV
