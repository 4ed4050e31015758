/-
# Delivery of interrupts

`DECODE` decides to take an interrupt, `IRQ_0` chooses its cause in the next cycle and
`csr_unit` its target mode.  While no line falls in between, everything that was pending in
`DECODE` is pending in `IRQ_0`, so the three decisions agree, and the instruction in
`DECODE` leaves no trace.
-/
import KianRiscV.CsrConfinement

namespace KianRiscV

namespace CsrUnit

/-! ## The pending interrupts -/

/-- The codes `interrupt_controller` has a line for. -/
def irqCodes : List ℕ := [1, 3, 5, 7, 9, 11]

/-- `pending_irqs`. -/
def pendingIrqs (c : CsrUnit) (irq3 irq7 irq9 irq11 : Bool) : Word :=
  c.mipNext irq3 irq7 irq9 irq11 &&& c.mie

/-- `m_enabled`. -/
def mEnabled (c : CsrUnit) : Bool :=
  !isMachine c.privilegeMode || (isMachine c.privilegeMode && bitOf c.mstatus 3)

/-- `s_enabled`. -/
def sEnabled (c : CsrUnit) : Bool :=
  isUser c.privilegeMode || (isSupervisor c.privilegeMode && bitOf c.mstatus 1)

/-- A bit of `m_interrupts`, and of `s_interrupts`. -/
def mInterrupt (c : CsrUnit) (irq3 irq7 irq9 irq11 : Bool) (k : ℕ) : Bool :=
  c.mEnabled && bitOf (c.pendingIrqs irq3 irq7 irq9 irq11) k && !bitOf c.mideleg k

def sInterrupt (c : CsrUnit) (irq3 irq7 irq9 irq11 : Bool) (k : ℕ) : Bool :=
  c.sEnabled && bitOf (c.pendingIrqs irq3 irq7 irq9 irq11) k && bitOf c.mideleg k

theorem eq_zero_iff_bits (w : Word) : w = 0#32 ↔ ∀ k, k < 32 → bitOf w k = false := by
  constructor
  · rintro rfl k -
    simp [bitOf]
  · intro h
    apply BitVec.eq_of_getLsbD_eq
    intro k hk
    simpa [bitOf] using h k hk

section Lines

variable {c : CsrUnit} {irq3 irq7 irq9 irq11 : Bool}

variable (c irq3 irq7 irq9 irq11) in
/-- The interrupts of machine level go first. -/
theorem interrupts_bits :
    ((∃ k, k < 32 ∧ c.mInterrupt irq3 irq7 irq9 irq11 k = true) ∧
        ∀ k, k < 32 → bitOf (c.interrupts irq3 irq7 irq9 irq11) k
          = c.mInterrupt irq3 irq7 irq9 irq11 k) ∨
      ((∀ k, k < 32 → c.mInterrupt irq3 irq7 irq9 irq11 k = false) ∧
        ∀ k, k < 32 → bitOf (c.interrupts irq3 irq7 irq9 irq11) k
          = c.sInterrupt irq3 irq7 irq9 irq11 k) := by
  have hm : ∀ k, k < 32 →
      bitOf (if c.mEnabled then c.pendingIrqs irq3 irq7 irq9 irq11 &&& ~~~c.mideleg else 0#32) k
        = c.mInterrupt irq3 irq7 irq9 irq11 k := by
    intro k hk
    unfold mInterrupt
    cases c.mEnabled with
    | true => simp [bitOf_and, bitOf_not, hk]
    | false => simp [bitOf]
  have hs : ∀ k, k < 32 →
      bitOf (if c.sEnabled then c.pendingIrqs irq3 irq7 irq9 irq11 &&& c.mideleg else 0#32) k
        = c.sInterrupt irq3 irq7 irq9 irq11 k := by
    intro k _
    unfold sInterrupt
    cases c.sEnabled with
    | true => simp [bitOf_and]
    | false => simp [bitOf]
  have hq : c.interrupts irq3 irq7 irq9 irq11
      = if (if c.mEnabled then c.pendingIrqs irq3 irq7 irq9 irq11 &&& ~~~c.mideleg else 0#32)
          != 0#32
        then (if c.mEnabled then c.pendingIrqs irq3 irq7 irq9 irq11 &&& ~~~c.mideleg else 0#32)
        else (if c.sEnabled then c.pendingIrqs irq3 irq7 irq9 irq11 &&& c.mideleg else 0#32) :=
    rfl
  rw [hq]
  -- `IRQ_TO_CPU` takes the machine interrupts if there is one, and the others only if not
  by_cases h0 : (if c.mEnabled then c.pendingIrqs irq3 irq7 irq9 irq11 &&& ~~~c.mideleg
      else 0#32) = 0#32
  · right
    refine ⟨fun k hk => ?_, fun k hk => ?_⟩
    · rw [← hm k hk]
      exact (eq_zero_iff_bits _).1 h0 k hk
    · rw [if_neg (by simp [h0]), hs k hk]
  · left
    refine ⟨?_, fun k hk => ?_⟩
    · by_contra hno
      refine h0 ((eq_zero_iff_bits _).2 fun k hk => ?_)
      rw [hm k hk]
      by_contra hb
      exact hno ⟨k, hk, Bool.eq_true_of_not_eq_false hb⟩
    · rw [if_pos (by simpa using h0), hm k hk]

/-- A line is raised exactly if one of the codes is among the interrupts. -/
theorem pending_iff :
    (c.irqLines irq3 irq7 irq9 irq11).pending = true ↔
      ∃ k, k ∈ irqCodes ∧ bitOf (c.interrupts irq3 irq7 irq9 irq11) k = true := by
  simp [irqLines, IrqLines.pending, irqCodes, or_assoc]

/-- `mip_next` leaves the bits without a source alone. -/
theorem mipNext_of_not_mem {k : ℕ} (hk : k < 32) (h : k ∉ irqCodes ∨ k = 1) :
    bitOf (c.mipNext irq3 irq7 irq9 irq11) k = bitOf c.mip k := by
  have hne : k ≠ 3 ∧ k ≠ 5 ∧ k ≠ 7 ∧ k ≠ 9 ∧ k ≠ 11 := by
    rcases h with h | rfl
    · simp only [irqCodes, List.mem_cons, not_or] at h
      exact ⟨h.2.1, h.2.2.1, h.2.2.2.1, h.2.2.2.2.1, h.2.2.2.2.2.1⟩
    · decide
  have hc : ∀ n, n < 12 → k ≠ n → bitOf (1#32 <<< n) k = false := by
    intro n hn hkn
    unfold bitOf
    rw [BitVec.getLsbD_shiftLeft, BitVec.getLsbD_one]
    have hsub : k < n ∨ 0 < k - n := by omega
    rcases hsub with hlt | hlt
    · simp [hlt]
    · have : k - n ≠ 0 := by omega
      simp [this]
  obtain ⟨h3, h5, h7, h9, h11⟩ := hne
  simp only [mipNext, bitOf_or, bitOf_and, bitOf_not _ hk, bitOf_setBit _ hk, hc 7 (by omega) h7,
    hc 9 (by omega) h9, hc 11 (by omega) h11]
  simp [h3, h5, h7, h9, h11]

end Lines

/-! ## From one cycle to the next -/

/-- No line falls between the two cycles, and the timer does not wrap. -/
structure LinesHold (i j : CsrIn) (c c' : CsrUnit) : Prop where
  irq3 : i.irq3 = true → j.irq3 = true
  irq7 : i.irq7 = true → j.irq7 = true
  irq9 : i.irq9 = true → j.irq9 = true
  irq11 : i.irq11 = true → j.irq11 = true
  timer : c.timerCounter ≤ c'.timerCounter

section Next

variable {c c' : CsrUnit} {i j : CsrIn}

/-- What is pending stays pending, and only a source makes something new pending. -/
theorem pendingIrqs_next (h : LinesOnly i c c') (hl : LinesHold i j c c') {k : ℕ} (hk : k < 32) :
    (bitOf (c.pendingIrqs i.irq3 i.irq7 i.irq9 i.irq11) k = true →
      bitOf (c'.pendingIrqs j.irq3 j.irq7 j.irq9 j.irq11) k = true) ∧
    (k ∉ irqCodes → bitOf (c'.pendingIrqs j.irq3 j.irq7 j.irq9 j.irq11) k
      = bitOf (c.pendingIrqs i.irq3 i.irq7 i.irq9 i.irq11) k) := by
  have hmie : c'.mie = c.mie := by rw [h.rest]
  have hsstc : c'.checkSstcConditions = c.checkSstcConditions := by rw [h.rest]; rfl
  have hcmp : c.checkSstcTmAndCmp = true → c'.checkSstcTmAndCmp = true := by
    have h1 : c'.stimecmph = c.stimecmph := by rw [h.rest]
    have h2 : c'.stimecmp = c.stimecmp := by rw [h.rest]
    unfold checkSstcTmAndCmp
    rw [hsstc, h1, h2]
    simp only [Bool.and_eq_true, BitVec.ule, decide_eq_true_eq]
    rintro ⟨hle, hc⟩
    exact ⟨le_trans hle hl.timer, hc⟩
  have hmip : bitOf (c.mipNext i.irq3 i.irq7 i.irq9 i.irq11) k = true →
      bitOf (c'.mipNext j.irq3 j.irq7 j.irq9 j.irq11) k = true := by
    obtain ⟨a3, a7, a9, a11, a5⟩ := mipNext_bits c i.irq3 i.irq7 i.irq9 i.irq11
    obtain ⟨b3, b7, b9, b11, b5⟩ := mipNext_bits c' j.irq3 j.irq7 j.irq9 j.irq11
    -- bit 1 is software's; the other codes each have a line or a comparison behind them
    by_cases hmem : k ∉ irqCodes ∨ k = 1
    · rw [mipNext_of_not_mem (c := c') hk hmem, h.mip]
      exact id
    · have hcode : k = 3 ∨ k = 5 ∨ k = 7 ∨ k = 9 ∨ k = 11 := by
        obtain ⟨hin, h1⟩ := not_or.1 hmem
        have hin' := not_not.1 hin
        simp only [irqCodes, List.mem_cons, List.not_mem_nil, or_false] at hin'
        omega
      rcases hcode with rfl | rfl | rfl | rfl | rfl
      · intro hb
        rw [b3, h.mip, hb]
        rfl
      · rw [a5, b5, h.mip, a5, hsstc]
        simp only [Bool.or_eq_true]
        rintro (hb | hb)
        · left
          simp only [Bool.and_eq_true, Bool.or_eq_true] at hb ⊢
          exact ⟨.inl hb, hb.2⟩
        · exact .inr (hcmp hb)
      · rw [a7, b7]
        exact hl.irq7
      · rw [a9, b9]
        exact hl.irq9
      · rw [a11, b11]
        exact hl.irq11
  unfold pendingIrqs
  rw [bitOf_and, bitOf_and, hmie]
  refine ⟨fun hb => ?_, fun hno => ?_⟩
  · simp only [Bool.and_eq_true] at hb ⊢
    exact ⟨hmip hb.1, hb.2⟩
  · rw [mipNext_of_not_mem hk (.inl hno), h.mip]

/-- A raised line is followed by a raised line. -/
theorem pending_next (h : LinesOnly i c c') (hl : LinesHold i j c c')
    (hp : (c.irqLines i.irq3 i.irq7 i.irq9 i.irq11).pending = true) :
    (c'.irqLines j.irq3 j.irq7 j.irq9 j.irq11).pending = true := by
  have hdeleg : c'.mideleg = c.mideleg := by rw [h.rest]
  have hm : c'.mEnabled = c.mEnabled := by rw [h.rest]; rfl
  have hs : c'.sEnabled = c.sEnabled := by rw [h.rest]; rfl
  have hcodes : ∀ k, k ∈ irqCodes → k < 32 := by decide
  obtain ⟨k, hk, hb⟩ := pending_iff.1 hp
  have hk32 := hcodes k hk
  -- an interrupt of either level is still one of its level
  have keepM : ∀ l, l < 32 → c.mInterrupt i.irq3 i.irq7 i.irq9 i.irq11 l = true →
      c'.mInterrupt j.irq3 j.irq7 j.irq9 j.irq11 l = true := by
    intro l hl32
    unfold mInterrupt
    rw [hdeleg, hm]
    simp only [Bool.and_eq_true]
    rintro ⟨⟨h1, h2⟩, h3⟩
    exact ⟨⟨h1, (pendingIrqs_next h hl hl32).1 h2⟩, h3⟩
  rw [pending_iff]
  rcases interrupts_bits c i.irq3 i.irq7 i.irq9 i.irq11 with ⟨-, hq⟩ | ⟨hno, hq⟩
  · rw [hq k hk32] at hb
    refine ⟨k, hk, ?_⟩
    rcases interrupts_bits c' j.irq3 j.irq7 j.irq9 j.irq11 with ⟨-, hq'⟩ | ⟨hno', -⟩
    · rw [hq' k hk32]
      exact keepM k hk32 hb
    · exact absurd ((hno' k hk32).symm.trans (keepM k hk32 hb)) (by decide)
  · rw [hq k hk32] at hb
    rcases interrupts_bits c' j.irq3 j.irq7 j.irq9 j.irq11 with ⟨⟨l, hl32, hl'⟩, hq'⟩ | ⟨-, hq'⟩
    · -- a new interrupt of machine level, which only a source can bring
      refine ⟨l, ?_, by rw [hq' l hl32]; exact hl'⟩
      by_contra hcode
      have hsame := (pendingIrqs_next h hl hl32).2 hcode
      have hold := hno l hl32
      unfold mInterrupt at hl' hold
      rw [hdeleg, hm, hsame, hold] at hl'
      exact absurd hl' (by decide)
    · refine ⟨k, hk, ?_⟩
      rw [hq' k hk32]
      unfold sInterrupt at hb ⊢
      rw [hdeleg, hs]
      simp only [Bool.and_eq_true] at hb ⊢
      exact ⟨⟨hb.1.1, (pendingIrqs_next h hl hk32).1 hb.1.2⟩, hb.2⟩

end Next

/-! ## The cause and the target mode -/

/-- `IRQ_0` picks one of the raised lines. -/
theorem cause_irq0 {i : FsmIn} {c : CsrUnit} {irq3 irq7 irq9 irq11 : Bool}
    (hi : i.irq = c.irqLines irq3 irq7 irq9 irq11) (hp : i.irq.pending = true) :
    ∃ k, k ∈ irqCodes ∧ cause .irq0 i = 0x80000000#32 ||| BitVec.ofNat 32 k ∧
      bitOf (c.interrupts irq3 irq7 irq9 irq11) k = true := by
  have pick : ∀ k, k ∈ irqCodes → cause .irq0 i = 0x80000000#32 ||| BitVec.ofNat 32 k →
      bitOf (c.interrupts irq3 irq7 irq9 irq11) k = true →
      ∃ k, k ∈ irqCodes ∧ cause .irq0 i = 0x80000000#32 ||| BitVec.ofNat 32 k ∧
        bitOf (c.interrupts irq3 irq7 irq9 irq11) k = true :=
    fun k h1 h2 h3 => ⟨k, h1, h2, h3⟩
  rw [hi] at hp
  simp only [IrqLines.pending, Bool.or_eq_true] at hp
  unfold cause at pick ⊢
  simp only [hi] at pick ⊢
  by_cases h1 : (c.irqLines irq3 irq7 irq9 irq11).ctrl1 = true
  · exact pick 1 (by decide) (by rw [if_pos h1]; rfl) h1
  by_cases h3 : (c.irqLines irq3 irq7 irq9 irq11).ctrl3 = true
  · exact pick 3 (by decide) (by rw [if_neg h1, if_pos h3]; rfl) h3
  by_cases h5 : (c.irqLines irq3 irq7 irq9 irq11).ctrl5 = true
  · exact pick 5 (by decide) (by rw [if_neg h1, if_neg h3, if_pos h5]; rfl) h5
  by_cases h7 : (c.irqLines irq3 irq7 irq9 irq11).ctrl7 = true
  · exact pick 7 (by decide) (by rw [if_neg h1, if_neg h3, if_neg h5, if_pos h7]; rfl) h7
  by_cases h9 : (c.irqLines irq3 irq7 irq9 irq11).ctrl9 = true
  · exact pick 9 (by decide)
      (by rw [if_neg h1, if_neg h3, if_neg h5, if_neg h7, if_pos h9]; rfl) h9
  · have h11 : (c.irqLines irq3 irq7 irq9 irq11).ctrl11 = true := by
      simpa [h1, h3, h5, h7, h9] using hp
    exact pick 11 (by decide)
      (by rw [if_neg h1, if_neg h3, if_neg h5, if_neg h7, if_neg h9, if_pos h11]; rfl) h11

/-- An interrupt is delegated by its bit in `mideleg`. -/
theorem delegated_interrupt (c : CsrUnit) {k : ℕ} (hk : k ∈ irqCodes) :
    c.delegated (0x80000000#32 ||| BitVec.ofNat 32 k)
      = ((isUser c.privilegeMode || isSupervisor c.privilegeMode) && bitOf c.mideleg k) := by
  have hint : (0x80000000#32 ||| BitVec.ofNat 32 k).getLsbD 31 = true := by simp
  have hmask : 1#32 <<< ((0x80000000#32 ||| BitVec.ofNat 32 k) &&& 0x7FFFFFFF#32)
      = BitVec.twoPow 32 k := by
    revert k
    decide
  have hbit : (c.mideleg &&& BitVec.twoPow 32 k != 0#32) = bitOf c.mideleg k := by
    have hne : BitVec.twoPow 32 k ≠ 0#32 := by
      clear hmask hint
      revert k
      decide
    rw [BitVec.and_twoPow]
    unfold bitOf
    cases c.mideleg.getLsbD k <;> simp [hne]
  unfold delegated
  dsimp only
  rw [hmask, hint, if_pos rfl, hbit]

/-- The interrupt with code `k` goes where the privilege modes and `mideleg` say. -/
structure DeliveredTo (c : CsrUnit) (mode : BitVec 2) (k : ℕ) : Prop where
  target : mode = if bitOf c.mideleg k then 1#2 else 3#2
  notBelow : c.privilegeMode ≤ mode
  delegated : bitOf c.mideleg k = true → c.privilegeMode ≠ 3#2
  mie : bitOf c.mideleg k = false → c.privilegeMode = 3#2 → bitOf c.mstatus 3 = true
  sie : bitOf c.mideleg k = true → c.privilegeMode = 1#2 → bitOf c.mstatus 1 = true

/-- An interrupt that raises its line is enabled and goes to the mode of its level. -/
theorem deliveredTo_of_interrupt {c : CsrUnit} {irq3 irq7 irq9 irq11 : Bool} {k : ℕ}
    (hk : k ∈ irqCodes) (h : bitOf (c.interrupts irq3 irq7 irq9 irq11) k = true) :
    bitOf (c.mipNext irq3 irq7 irq9 irq11 &&& c.mie) k = true ∧
      DeliveredTo c (if c.delegated (0x80000000#32 ||| BitVec.ofNat 32 k) then 1#2 else 3#2) k := by
  have hk32 : k < 32 := by
    clear h
    revert k
    decide
  -- a machine interrupt is not delegated and a supervisor interrupt is
  rcases interrupts_bits c irq3 irq7 irq9 irq11 with ⟨-, hq⟩ | ⟨-, hq⟩
  · rw [hq k hk32] at h
    simp only [mInterrupt, Bool.and_eq_true, Bool.not_eq_true'] at h
    obtain ⟨⟨hen, hpend⟩, hdel⟩ := h
    have htarget : c.delegated (0x80000000#32 ||| BitVec.ofNat 32 k) = false := by
      rw [delegated_interrupt c hk, hdel, Bool.and_false]
    rw [htarget]
    refine ⟨hpend, ⟨by rw [hdel], ?_, fun hd => ?_, fun _ hm => ?_, fun hd => ?_⟩⟩
    · generalize c.privilegeMode = m
      revert m
      decide
    · exact absurd (hdel.symm.trans hd) (by decide)
    · rw [mEnabled, hm] at hen
      simpa [isMachine] using hen
    · exact absurd (hdel.symm.trans hd) (by decide)
  · rw [hq k hk32] at h
    simp only [sInterrupt, Bool.and_eq_true] at h
    obtain ⟨⟨hen, hpend⟩, hdel⟩ := h
    have hmode : c.privilegeMode = 0#2 ∨ c.privilegeMode = 1#2 ∧ bitOf c.mstatus 1 = true := by
      simpa [sEnabled, isUser, isSupervisor] using hen
    have htarget : c.delegated (0x80000000#32 ||| BitVec.ofNat 32 k) = true := by
      rw [delegated_interrupt c hk, hdel, Bool.and_true]
      rcases hmode with hm | ⟨hm, -⟩ <;> rw [hm] <;> rfl
    rw [htarget]
    refine ⟨hpend, ⟨by rw [hdel], ?_, fun _ => ?_, fun hd => ?_, fun _ hm => ?_⟩⟩
    · rcases hmode with hm | ⟨hm, -⟩ <;> rw [hm] <;> decide
    · rcases hmode with hm | ⟨hm, -⟩ <;> rw [hm] <;> decide
    · exact absurd (hdel.symm.trans hd) (by decide)
    · rcases hmode with hm' | ⟨-, hs⟩
      · exact absurd (hm'.symm.trans hm) (by decide)
      · exact hs

end CsrUnit

/-! ## Interrupts in a run -/

/-- Only an answered fetch leads to `DECODE`. -/
theorem eq_fetch_of_stateNxt_eq_decode {st : FsmState} {i : FsmIn} (h : stateNxt st i = .decode) :
    st = .fetch ∧ i.memReady = true ∧ i.accessFault = false := by
  cases st
  case fetch =>
    simp only [stateNxt, accessNxt] at h
    split_ifs at h with _ _ hr ha
    exact ⟨rfl, hr, Bool.eq_false_of_not_eq_true ha⟩
  case decode => exact absurd h (decodeNxt_ne_decode i)
  all_goals
    simp only [stateNxt, accessNxt] at h
    first
    | exact absurd h (by decide)
    | split_ifs at h

section Run

variable {iw dw : ℕ} {p : Params} {s : Cpu iw dw} {inp : ℕ → CpuIn}

/-- `OldPC` in `DECODE` is the address the core presented when its fetch was answered. -/
theorem oldPc_of_decode (hs : s.IsReset p) {m : ℕ} (hd : (coreAt p s inp (m + 1)).state = .decode) :
    (coreAt p s inp m).state = .fetch ∧ (coreInAt p s inp m).memReady = true ∧
      (coreAt p s inp (m + 1)).oldPc = (coreAt p s inp m).memAddr ∧
      (coreAt p s inp (m + 1)).instr = (coreInAt p s inp m).memRdata := by
  have hstall : (coreInAt p s inp m).stall = false := by
    by_contra hst
    rw [Bool.not_eq_false] at hst
    -- a stalled `DECODE` is impossible, since `sv32` is at rest there
    have hm : (coreAt p s inp m).state = .decode := by
      rw [coreAt_succ, Core.next_state_of_stall _ _ hst] at hd
      exact hd
    have hidle := Cpu.idle_afterDecode hs inp m
      (by rw [show (Sync.run (Cpu.next p) s inp m).core.state = .decode from hm]; rfl)
    have hst' : (Sync.run (Cpu.next p) s inp m).mmu.stall = true := hst
    rw [Sv32.stall, hidle] at hst'
    exact absurd hst' (by decide)
  rw [coreAt_succ, Core.next_state _ _ hstall] at hd
  obtain ⟨hf, hr, -⟩ := eq_fetch_of_stateNxt_eq_decode hd
  have hr' : (coreInAt p s inp m).memReady = true := hr
  have hstore : storeInstr (coreAt p s inp m).state (coreInAt p s inp m).memReady = true := by
    rw [hf, hr']
    rfl
  refine ⟨hf, hr', ?_, ?_⟩
  · rw [(Core.memAddr_of_presentsFetch (.inr hf)).1, coreAt_succ]
    simp only [Core.next, hstore, if_true]
  · rw [coreAt_succ]
    simp only [Core.next, hstore, if_true]

/-- The request on the bus in cycle `n`. -/
def busReqAt (p : Params) (s : Cpu iw dw) (inp : ℕ → CpuIn) (n : ℕ) : BusReq :=
  (Sync.run (Cpu.next p) s inp n).mmu.busReq

theorem busReqAt_afterDecode (hs : s.IsReset p) {n : ℕ}
    (h : afterDecode (coreAt p s inp n).state = true) :
    (busReqAt p s inp n).valid = false := by
  unfold busReqAt Sv32.busReq
  rw [Cpu.idle_afterDecode hs inp n h]

/-- How the interrupt seen in the `DECODE` of cycle `n` is taken. -/
structure InterruptSound (p : Params) (s : Cpu iw dw) (inp : ℕ → CpuIn) (n : ℕ) : Prop where
  states : (coreAt p s inp (n + 1)).state = .irq0 ∧ (coreAt p s inp (n + 2)).state = .irq1 ∧
    (coreAt p s inp (n + 3)).state = .fetch
  /-- the cause recorded is an enabled pending interrupt, taken in the mode `mideleg` names -/
  cause : ∃ k, k ∈ CsrUnit.irqCodes ∧
    (csrInAt p s inp (n + 1)).cause = 0x80000000#32 ||| BitVec.ofNat 32 k ∧
    bitOf ((coreAt p s inp (n + 1)).csr.mipNext (inp (n + 1)).irq3 (inp (n + 1)).irq7
      (inp (n + 1)).irq9 (inp (n + 1)).irq11 &&& (coreAt p s inp (n + 1)).csr.mie) k = true ∧
    CsrUnit.DeliveredTo (coreAt p s inp (n + 1)).csr (coreAt p s inp (n + 2)).csr.privilegeMode k
  recorded :
    ((coreAt p s inp (n + 2)).csr.privilegeMode = 1#2 →
      (coreAt p s inp (n + 2)).csr.scause = (csrInAt p s inp (n + 1)).cause ∧
        (coreAt p s inp (n + 2)).csr.sepc = (coreAt p s inp n).oldPc) ∧
    ((coreAt p s inp (n + 2)).csr.privilegeMode = 3#2 →
      (coreAt p s inp (n + 2)).csr.mcause = (csrInAt p s inp (n + 1)).cause ∧
        (coreAt p s inp (n + 2)).csr.mepc = (coreAt p s inp n).oldPc)
  /-- the address recorded is the one the instruction was fetched from -/
  address : ∃ m, n = m + 1 ∧ (coreAt p s inp m).state = .fetch ∧
    (coreInAt p s inp m).memReady = true ∧
    (coreAt p s inp n).oldPc = (coreAt p s inp m).memAddr ∧
    (coreAt p s inp n).instr = (coreInAt p s inp m).memRdata
  /-- the instruction changes no register, drives no bus request, and leaves the CSRs to the
  trap -/
  regs : (coreAt p s inp (n + 3)).regs = (coreAt p s inp n).regs
  bus : ∀ k, n ≤ k → k < n + 3 → (busReqAt p s inp k).valid = false
  csrs :
    CsrUnit.LinesOnly (csrInAt p s inp n) (coreAt p s inp n).csr (coreAt p s inp (n + 1)).csr ∧
    CsrUnit.LinesOnly (csrInAt p s inp (n + 1))
      ((coreAt p s inp (n + 1)).csr.takeException (csrInAt p s inp (n + 1)).cause
        (coreAt p s inp n).oldPc 0#32) (coreAt p s inp (n + 2)).csr ∧
    CsrUnit.LinesOnly (csrInAt p s inp (n + 2)) (coreAt p s inp (n + 2)).csr
      (coreAt p s inp (n + 3)).csr

/-- **Interrupt delivery.**  In a run from reset, an interrupt seen in `DECODE` whose lines
hold for one more cycle is taken with an enabled pending cause, in the mode `mideleg` names,
and before the instruction in `DECODE` has had any effect. -/
theorem interrupt_sound (hs : s.IsReset p) (n : ℕ) (hd : (coreAt p s inp n).state = .decode)
    (hp : ((coreAt p s inp n).fsmIn (coreInAt p s inp n)).irq.pending = true)
    (hl : CsrUnit.LinesHold (csrInAt p s inp n) (csrInAt p s inp (n + 1))
      (coreAt p s inp n).csr (coreAt p s inp (n + 1)).csr) :
    InterruptSound p s inp n := by
  have h1 : (coreAt p s inp (n + 1)).state = .irq0 := by
    rw [state_succ_afterDecode hs (by rw [hd]; rfl), hd]
    simp only [stateNxt, decodeNxt, hp, if_true]
  have h2 : (coreAt p s inp (n + 2)).state = .irq1 := by
    rw [state_succ_afterDecode hs (by rw [h1]; rfl), h1]
    rfl
  have h3 : (coreAt p s inp (n + 3)).state = .fetch := by
    rw [state_succ_afterDecode hs (by rw [h2]; rfl), h2]
    rfl
  have hl0 : CsrUnit.LinesOnly (csrInAt p s inp n) (coreAt p s inp n).csr
      (coreAt p s inp (n + 1)).csr := linesOnly_succ n (by rw [hd]; rfl)
  -- what `IRQ_0` hands to `csr_unit`
  have hx : (csrInAt p s inp (n + 1)).exceptionEvent = true :=
    (moore_exceptionEvent _ _).trans (by rw [h1]; rfl)
  have hold : (coreAt p s inp (n + 1)).oldPc = (coreAt p s inp n).oldPc := by
    rw [coreAt_succ]
    simp [Core.next, storeInstr, hd]
  have hpc : (csrInAt p s inp (n + 1)).pc = (coreAt p s inp n).oldPc := by
    rw [← hold]
    show (if (moore (coreAt p s inp (n + 1)).state _).selectPC then _ else _) = _
    rw [h1]
    rfl
  have hbad : (csrInAt p s inp (n + 1)).badaddr = 0#32 := by
    show badaddr (coreAt p s inp (n + 1)).state _ _ = _
    rw [h1]
    rfl
  have hl1 := CsrUnit.linesOnly_of_exception (c := (coreAt p s inp (n + 1)).csr) hx p.systemClk
  rw [hpc, hbad, ← csr_succ] at hl1
  -- the line is still raised there, so the cause is one of the interrupts
  have hpend := CsrUnit.pending_next hl0 hl hp
  obtain ⟨k, hk, hcause, hbit⟩ := CsrUnit.cause_irq0
    (i := (coreAt p s inp (n + 1)).fsmIn (coreInAt p s inp (n + 1))) rfl hpend
  have hcause' : (csrInAt p s inp (n + 1)).cause = 0x80000000#32 ||| BitVec.ofNat 32 k := by
    show KianRiscV.cause (coreAt p s inp (n + 1)).state _ = _
    rw [h1]
    exact hcause
  obtain ⟨hpk, hto⟩ := CsrUnit.deliveredTo_of_interrupt hk hbit
  have hmode : (coreAt p s inp (n + 2)).csr.privilegeMode
      = if (coreAt p s inp (n + 1)).csr.delegated (csrInAt p s inp (n + 1)).cause then 1#2
        else 3#2 := by
    rw [hl1.rest]
    unfold CsrUnit.takeException
    split <;> rfl
  refine ⟨⟨h1, h2, h3⟩, ⟨k, hk, hcause', hpk, ?_⟩, ⟨fun hm => ?_, fun hm => ?_⟩, ?_, ?_, ?_,
    hl0, hl1, linesOnly_succ (n + 2) (by rw [h2]; rfl)⟩
  · rw [hmode, hcause']
    exact hto
  · rw [hmode] at hm
    have hdel : (coreAt p s inp (n + 1)).csr.delegated (csrInAt p s inp (n + 1)).cause = true := by
      by_contra hno
      rw [if_neg hno] at hm
      exact absurd hm (by decide)
    rw [hl1.rest]
    simp only [CsrUnit.takeException, hdel, if_true, and_self]
  · rw [hmode] at hm
    have hdel : (coreAt p s inp (n + 1)).csr.delegated (csrInAt p s inp (n + 1)).cause = false := by
      by_contra hno
      rw [if_pos (by simpa using hno)] at hm
      exact absurd hm (by decide)
    rw [hl1.rest]
    simp only [CsrUnit.takeException, hdel, Bool.false_eq_true, if_false, and_self]
  · cases n with
    | zero =>
      have h0 : (coreAt p s inp 0).state = .fetch := hs.1.1
      exact absurd (h0.symm.trans hd) (by decide)
    | succ m => exact ⟨m, rfl, oldPc_of_decode hs hd⟩
  · rw [coreAt_succ (n + 2), Core.next_regs (by rw [h2]; rfl), coreAt_succ (n + 1),
      Core.next_regs (by rw [h1]; rfl), coreAt_succ n, Core.next_regs (by rw [hd]; rfl)]
  · intro k hnk hk
    obtain rfl | rfl | rfl : k = n ∨ k = n + 1 ∨ k = n + 2 := by omega
    · exact busReqAt_afterDecode hs (by rw [hd]; rfl)
    · exact busReqAt_afterDecode hs (by rw [h1]; rfl)
    · exact busReqAt_afterDecode hs (by rw [h2]; rfl)

/-- Lines that are the same in the two cycles do not fall. -/
theorem System.linesHold_busAt {s : System iw dw} {inp : ℕ → SystemIn} {n : ℕ}
    (h3 : (inp n).irq3 = (inp (n + 1)).irq3) (h7 : (inp n).irq7 = (inp (n + 1)).irq7)
    (h9 : (inp n).irq9 = (inp (n + 1)).irq9) (h11 : (inp n).irq11 = (inp (n + 1)).irq11)
    (ht : (Sync.run (System.next p) s inp n).cpu.core.csr.timerCounter
      ≤ (Sync.run (System.next p) s inp (n + 1)).cpu.core.csr.timerCounter) :
    CsrUnit.LinesHold (csrInAt p s.cpu (s.busAt p inp) n) (csrInAt p s.cpu (s.busAt p inp) (n + 1))
      (coreAt p s.cpu (s.busAt p inp) n).csr (coreAt p s.cpu (s.busAt p inp) (n + 1)).csr := by
  rw [← coreAt_busAt, ← coreAt_busAt] at ht
  exact ⟨fun h => h3.symm.trans h, fun h => h7.symm.trans h, fun h => h9.symm.trans h,
    fun h => h11.symm.trans h, ht⟩

end Run

/-- `csrrwi x0, mie, 8; csrrwi x0, mstatus, 8; nop`: software interrupts are enabled when the
`nop` is decoded. -/
def softwareIrqProgram : BitVec 32 → Word := fun a =>
  [0x30445073#32, 0x30045073#32, 0x00000013#32].getD a.toNat 0#32

/-- Memory answering every held request, and the software interrupt line raised. -/
def softwareIrq : ℕ → SystemIn := fun _ => ⟨⟨true, false⟩, true, false, false, false⟩

theorem interrupt_sound_software :
    (coreAt sampleParams (System.reset 4 3 sampleParams softwareIrqProgram).cpu
        ((System.reset 4 3 sampleParams softwareIrqProgram).busAt sampleParams softwareIrq)
        16).instr = 0x00000013#32 ∧
    InterruptSound sampleParams (System.reset 4 3 sampleParams softwareIrqProgram).cpu
      ((System.reset 4 3 sampleParams softwareIrqProgram).busAt sampleParams softwareIrq) 16 := by
  refine ⟨by rw [coreAt_busAt]; decide +kernel, interrupt_sound
    (System.reset_isReset 4 3 sampleParams softwareIrqProgram).1 16 ?_ ?_
    (System.linesHold_busAt rfl rfl rfl rfl (by decide +kernel))⟩
  · rw [coreAt_busAt]
    decide +kernel
  · rw [coreAt_busAt, coreInAt_busAt]
    decide +kernel

end KianRiscV
