/-
# A master that waits for its answers

A master that holds a request until it is answered and then leaves the bus for a cycle at least.
Its requests may be answered, and end, in their first cycle: an address no device answers for is
answered at once, while an access fault for it may still be under way.  So the ownership of
`SocResponders` is too much to ask for; `Tied` says what is left of it, and that a UART is the
only one that answers a request to its data register.
-/
import KianRiscV.SocResponders

namespace KianRiscV

namespace Soc

variable {iset iways dset dways : ℕ} {ipolicy : ReplacementPolicy iset iways}
  {dpolicy : ReplacementPolicy dset dways} (cfg : SocConfig) (s : Soc ipolicy dpolicy)
  (x x' : BusAccess) (e : SocEnv)

/-- A read of the receive register of UART `i`. -/
def rxHit (x : BusAccess) (i : Fin 2) : Bool :=
  x.valid && !x.wr && x.addr == BusAccess.uartRxAddr i

/-- What a master that waits puts on the bus after `x`, with `ready` the answer. -/
structure Follows (ready : Bool) (x x' : BusAccess) : Prop where
  hold : x.valid = true → ready = false → x' = x
  idle : x.valid = true → ready = true → x'.valid = false

/-- One of the ready registers behind `io_ready` other than those of the UART data registers. -/
def deviceReady : Bool :=
  s.systemCpuFreqReady || s.systemMemSizeAccessReady || s.clintReady || s.plicReady ||
    s.divReady || (List.finRange 3).any s.spiReady || s.gpioReady || s.sndReady ||
    (List.finRange 2).any s.uartLsrRdy

/-- The answers under way belong to the request on the bus, as far as it can take them. -/
structure Tied : Prop where
  bram : s.bramReady = true → x.valid = true → x.isBram = true
  flash : s.flashBusy = true ∨ s.flashReady = true → x.valid = true ∧ x.isFlash cfg = true
  flashIdle : s.flashReady = true → s.flashBusy = false
  icache : s.cache.icache.state ≠ .s0 →
    x.valid = true ∧ x.isInstruction = true ∧ BusAccess.inSdram cfg x.addr = true
  dcache : s.cache.dcache.state ≠ .s0 →
    x.valid = true ∧ x.isInstruction = false ∧ BusAccess.inSdram cfg x.addr = true ∧
      s.cache.dcache.reqAddr = x.addr
  fault : s.accessFaultReady = true → x.valid = true → x.invalid cfg = true
  devices : ∀ i, x.valid = true → x.addr = BusAccess.uartTxAddr i → s.deviceReady = false
  tx : ∀ i, s.uartTxReady i = true → txHit x i = true
  seen : ∀ i, txHit x i = true → s.txSeen i = s.uartTxReady i
  rx : ∀ i, s.uartRxReady i = true → rxHit x i = true
  fetch : ∀ i, s.accessFaultReady = true → rxHit x i = true → s.uartRxReady i = true

variable {cfg s x x' e} {i : Fin 2}

/-! ## Who answers -/

theorem txHit_iff :
    txHit x i = true ↔ x.valid = true ∧ x.wr = true ∧ x.addr = BusAccess.uartTxAddr i := by
  simp [txHit, and_assoc]

theorem rxHit_iff :
    rxHit x i = true ↔ x.valid = true ∧ x.wr = false ∧ x.addr = BusAccess.uartTxAddr i := by
  simp [rxHit, and_assoc, BusAccess.uartRxAddr, BusAccess.uartTxAddr]

theorem uartTxAddr_inj {i j : Fin 2} (h : BusAccess.uartTxAddr i = BusAccess.uartTxAddr j) :
    i = j := by
  revert i j
  decide

theorem isIo_of_uartTxAddr (h : x.addr = BusAccess.uartTxAddr i) : x.isIo = true :=
  isIo_of_txHit (x := { x with valid := true, wstrb := 1#4 }) (txHit_iff.2 ⟨rfl, rfl, h⟩)

/-- The memories do not answer a request that is not theirs. -/
theorem Tied.memSdramReady_eq (h : s.Tied cfg x) (hx : BusAccess.inSdram cfg x.addr = false) :
    s.memSdramReady x e = false := by
  by_contra hr
  rw [Bool.not_eq_false] at hr
  have hin : BusAccess.inSdram cfg x.addr = true := by
    rcases busy_of_memSdramReady hr with ⟨-, hs⟩ | ⟨-, hs⟩
    · exact (h.icache hs).2.2
    · exact (h.dcache hs).2.2.1
  rw [hx] at hin
  exact Bool.noConfusion hin

theorem Tied.bramReady_eq (h : s.Tied cfg x) (hv : x.valid = true) (hx : x.isBram = false) :
    s.bramReady = false := by
  by_contra hr
  rw [Bool.not_eq_false] at hr
  exact absurd ((h.bram hr hv).symm.trans hx) (by decide)

theorem Tied.flashReady_eq (h : s.Tied cfg x) (hx : x.isFlash cfg = false) :
    s.flashReady = false := by
  by_contra hr
  rw [Bool.not_eq_false] at hr
  exact absurd ((h.flash (.inr hr)).2.symm.trans hx) (by decide)

theorem Tied.accessFaultReady_eq (h : s.Tied cfg x) (hv : x.valid = true)
    (hx : x.invalid cfg = false) : s.accessFaultReady = false := by
  by_contra hr
  rw [Bool.not_eq_false] at hr
  exact absurd ((h.fault hr hv).symm.trans hx) (by decide)

/-- Only the flash answers a request to the flash. -/
theorem Tied.ready_of_isFlash (h : s.Tied cfg x) (hv : x.valid = true)
    (hx : x.isFlash cfg = true) : s.cpuMemReady cfg x e = s.flashReady := by
  obtain ⟨hb, hs, hio⟩ := BusAccess.of_isFlash hx
  have hinv : x.invalid cfg = false := by simp [BusAccess.invalid, BusAccess.mapped, hx]
  simp [cpuMemReady, ioReady, hio, h.bramReady_eq hv hb, h.memSdramReady_eq hs,
    h.accessFaultReady_eq hv hinv]

/-- Only the caches answer a request to the SDRAM. -/
theorem Tied.ready_of_inSdram (h : s.Tied cfg x) (hv : x.valid = true)
    (hx : BusAccess.inSdram cfg x.addr = true) :
    s.cpuMemReady cfg x e = s.memSdramReady x e := by
  obtain ⟨hb, hf, hio⟩ := BusAccess.of_inSdram hx
  have hinv : x.invalid cfg = false := by simp [BusAccess.invalid, BusAccess.mapped, hx]
  simp [cpuMemReady, ioReady, hio, h.bramReady_eq hv hb, h.flashReady_eq hf,
    h.accessFaultReady_eq hv hinv]

theorem matchUart_of_uartTxAddr (hx : x.addr = BusAccess.uartTxAddr i) : matchUart x = true := by
  simp only [matchUart, List.any_eq_true, Bool.or_eq_true, beq_iff_eq]
  exact ⟨i, List.mem_finRange i, .inl (.inr hx)⟩

/-- During a request to the data register of a UART no other ready register of a UART is set. -/
theorem Tied.uart_alone (h : s.Tied cfg x) (hv : x.valid = true)
    (hx : x.addr = BusAccess.uartTxAddr i) :
    (∀ j, s.uartLsrRdy j = false) ∧
      ∀ j, j ≠ i → s.uartTxReady j = false ∧ s.uartRxReady j = false := by
  have hdev := h.devices i hv hx
  simp only [deviceReady, Bool.or_eq_false_iff, List.any_eq_false] at hdev
  refine ⟨fun j => by simpa using hdev.2 j (List.mem_finRange j), fun j hj => ⟨?_, ?_⟩⟩
  · by_contra hr
    have haddr := (txHit_iff.1 (h.tx j (by simpa using hr))).2.2
    exact hj (uartTxAddr_inj (haddr.symm.trans hx))
  · by_contra hr
    have haddr := (rxHit_iff.1 (h.rx j (by simpa using hr))).2.2
    exact hj (uartTxAddr_inj (haddr.symm.trans hx))

/-- A request to the data register of a UART is answered by this register, or by the access
fault. -/
theorem Tied.ready_of_uart (h : s.Tied cfg x) (hv : x.valid = true)
    (hx : x.addr = BusAccess.uartTxAddr i) :
    s.cpuMemReady cfg x e = (s.uartTxReady i || s.uartRxReady i || s.accessFaultReady) := by
  have hio := isIo_of_uartTxAddr hx
  obtain ⟨hb, hf, hs⟩ : x.isBram = false ∧ x.isFlash cfg = false ∧
      BusAccess.inSdram cfg x.addr = false := BusAccess.of_isIo hio
  obtain ⟨hlsr, hother⟩ := h.uart_alone hv hx
  have huart : s.ioReadyUart = (s.uartTxReady i || s.uartRxReady i) := by
    rw [Bool.eq_iff_iff]
    simp only [ioReadyUart, List.any_eq_true, List.mem_finRange, true_and, hlsr,
      Bool.false_or, Bool.or_eq_true]
    constructor
    · rintro ⟨j, hj⟩
      by_cases hji : j = i
      · rw [← hji]
        exact hj.symm
      · rw [(hother j hji).1, (hother j hji).2] at hj
        simp at hj
    · exact fun hr => ⟨i, hr.symm⟩
  have hun : s.unmatchedIo cfg x = false := by
    simp [unmatchedIo, matchUart_of_uartTxAddr hx]
  have hdev := h.devices i hv hx
  simp only [deviceReady, Bool.or_eq_false_iff] at hdev
  obtain ⟨⟨⟨⟨⟨⟨⟨⟨h1, h2⟩, h3⟩, h4⟩, h5⟩, h6⟩, h7⟩, h8⟩, -⟩ := hdev
  simp only [cpuMemReady, ioReady, hio, huart, h.bramReady_eq hv hb, h.flashReady_eq hf,
    h.memSdramReady_eq hs, h1, h2, h3, h4, h5, h6, h7, h8, hun, Bool.or_false, Bool.false_or,
    Bool.true_and]

/-- A write to a transmit register is answered when its byte has been taken. -/
theorem Tied.ready_of_txHit (h : s.Tied cfg x) (hw : x.isInstruction = true → x.wr = false)
    (hx : txHit x i = true) : s.cpuMemReady cfg x e = s.uartTxReady i := by
  obtain ⟨hv, hwr, haddr⟩ := txHit_iff.1 hx
  have hrx : s.uartRxReady i = false := by
    by_contra hr
    have hrd := (rxHit_iff.1 (h.rx i (by simpa using hr))).2.1
    exact absurd (hrd.symm.trans hwr) (by decide)
  have hd : x.isInstruction = false := by
    by_contra hi
    exact absurd ((hw (by simpa using hi)).symm.trans hwr) (by decide)
  have hinv : x.invalid cfg = false := by
    simp [BusAccess.invalid, BusAccess.mapped, hd, isIo_of_uartTxAddr haddr]
  rw [h.ready_of_uart hv haddr, hrx, h.accessFaultReady_eq hv hinv, Bool.or_false, Bool.or_false]

/-- A read of a receive register is answered by it, if need be together with the access fault. -/
theorem Tied.ready_of_rxHit (h : s.Tied cfg x) (hx : rxHit x i = true) :
    s.cpuMemReady cfg x e = s.uartRxReady i := by
  obtain ⟨hv, hrd, haddr⟩ := rxHit_iff.1 hx
  have htx : s.uartTxReady i = false := by
    by_contra hr
    have hwr := (txHit_iff.1 (h.tx i (by simpa using hr))).2.1
    exact absurd (hrd.symm.trans hwr) (by decide)
  rw [h.ready_of_uart hv haddr, htx, Bool.false_or]
  cases hf : s.accessFaultReady with
  | false => rw [Bool.or_false]
  | true => rw [h.fetch i hf hx, Bool.true_or]

/-! ## One edge -/

/-- A request that follows a request is the same one. -/
theorem Follows.eq {ready : Bool} (hf : Follows ready x x') (hv : x.valid = true)
    (hv' : x'.valid = true) : x' = x ∧ ready = false := by
  cases hr : ready with
  | false => exact ⟨hf.hold hv hr, rfl⟩
  | true => exact absurd ((hf.idle hv hr).symm.trans hv') (by decide)

theorem Tied.flash_next (h : s.Tied cfg x)
    (hb : (s.next cfg x e).flashBusy = true ∨ (s.next cfg x e).flashReady = true) :
    x.valid = true ∧ x.isFlash cfg = true ∧ s.cpuMemReady cfg x e = false := by
  rcases flash_busy_next hb with hbusy | hn
  · obtain ⟨hv, hx⟩ := h.flash (.inl hbusy)
    refine ⟨hv, hx, ?_⟩
    rw [h.ready_of_isFlash hv hx]
    by_contra hr
    exact absurd ((h.flashIdle (by simpa using hr)).symm.trans hbusy) (by decide)
  · simp only [spiNorMemValid, Bool.and_eq_true, Bool.not_eq_true'] at hn
    exact ⟨hn.1.1.2, hn.1.2, (h.ready_of_isFlash hn.1.1.2 hn.1.2).trans hn.1.1.1⟩

theorem Tied.flashIdle_next (h : s.Tied cfg x) (hr : (s.next cfg x e).flashReady = true) :
    (s.next cfg x e).flashBusy = false := by
  cases hbusy : s.flashBusy with
  | true =>
    have hnot : s.flashReady = false := by
      by_contra hne
      exact absurd ((h.flashIdle (by simpa using hne)).symm.trans hbusy) (by decide)
    have hdone : e.flashDone = true := by simpa [next, hbusy, hnot] using hr
    simp [next, hbusy, hdone]
  | false =>
    simp only [next, hbusy, Bool.false_eq_true, if_false, spiNorMemValid, Bool.and_eq_true,
      Bool.not_eq_true'] at hr
    exact absurd (hr.1.symm.trans hr.2.1.1.1) (by decide)

theorem Tied.isSdram (h : s.Tied cfg x) :
    s.isSdram cfg x e = BusAccess.inSdram cfg x.addr :=
  isSdram_eq fun hs => (h.dcache hs).2.2.2

theorem Tied.of_memSdramValid (h : s.Tied cfg x) (hm : s.memSdramValid cfg x e = true) :
    x.valid = true ∧ BusAccess.inSdram cfg x.addr = true ∧ s.cpuMemReady cfg x e = false := by
  simp only [memSdramValid, Bool.and_eq_true, Bool.not_eq_true', h.isSdram] at hm
  exact ⟨hm.1.2, hm.2, (h.ready_of_inSdram hm.1.2 hm.2).trans hm.1.1⟩

theorem Tied.icache_next (h : s.Tied cfg x)
    (hs : (s.next cfg x e).cache.icache.state ≠ .s0) :
    (x.valid = true ∧ x.isInstruction = true ∧ BusAccess.inSdram cfg x.addr = true) ∧
      s.cpuMemReady cfg x e = false := by
  rcases icache_busy_next hs with ⟨hi, hm⟩ | ⟨hst, hr⟩
  · obtain ⟨hv, hx, hnot⟩ := h.of_memSdramValid hm
    exact ⟨⟨hv, hi, hx⟩, hnot⟩
  · obtain ⟨hv, hi, hx⟩ := h.icache hst
    exact ⟨⟨hv, hi, hx⟩, (h.ready_of_inSdram hv hx).trans (hr hi)⟩

theorem Tied.dcache_next (h : s.Tied cfg x)
    (hs : (s.next cfg x e).cache.dcache.state ≠ .s0) :
    (x.valid = true ∧ x.isInstruction = false ∧ BusAccess.inSdram cfg x.addr = true ∧
      (s.next cfg x e).cache.dcache.reqAddr = x.addr) ∧ s.cpuMemReady cfg x e = false := by
  rcases dcache_busy_next hs with ⟨hi, hm, ha⟩ | ⟨hst, hr, ha⟩
  · obtain ⟨hv, hx, hnot⟩ := h.of_memSdramValid hm
    exact ⟨⟨hv, hi, hx, ha⟩, hnot⟩
  · obtain ⟨hv, hi, hx, haddr⟩ := h.dcache hst
    exact ⟨⟨hv, hi, hx, ha.trans haddr⟩, (h.ready_of_inSdram hv hx).trans (hr hi)⟩

/-- The register of the access fault is set by an access outside every region. -/
theorem Tied.fault_next (h : s.Tied cfg x) (hr : (s.next cfg x e).accessFaultReady = true) :
    x.valid = true ∧ x.invalid cfg = true := by
  have hf : s.accessFaultValid cfg x e = true := hr
  simp only [accessFaultValid, invalidAccess, h.isSdram, Bool.and_eq_true] at hf
  exact ⟨hf.1.2, hf.2⟩

/-- No other device takes part in an access to the data register of a UART, nor without one. -/
theorem deviceReady_next (hx : x.valid = false ∨ x.addr = BusAccess.uartTxAddr i) :
    (s.next cfg x e).deviceReady = false := by
  rcases hx with hv | hx
  · simp [deviceReady, next, systemCpuFreqValid, systemMemSizeAccessValid, clintValid, plicValid,
      divValid, spiAccept, spiMemValid, gpioValid, sndValid, uartLsrValidRd, hv]
  · -- None of the other registers is at the address.
    have hne : (x.addr == 0x10000014#32) = false ∧ (x.addr == 0x10000018#32) = false ∧
        (x.addr == 0x10000010#32) = false ∧ (x.addr == 0x10000700#32) = false ∧
        (x.addr == 0x10000704#32) = false ∧ (x.addr == 0x10000708#32) = false ∧
        (x.addr == 0x10500300#32) = false ∧ x.isClint = false ∧ x.isPlic = false := by
      rw [BusAccess.isClint, BusAccess.isPlic, hx]
      clear hx
      revert i
      decide
    have hspi : ∀ j, (x.addr == BusAccess.spiCtrl j) = false ∧
        (x.addr == BusAccess.spiData j) = false := by
      rw [hx]
      clear hx
      revert i
      decide
    have hlsr : ∀ j, (x.addr == BusAccess.uartLsrAddr j) = false := by
      rw [hx]
      clear hx
      revert i
      decide
    obtain ⟨h1, h2, h3, h4, h5, h6, h7, h8, h9⟩ := hne
    simp [deviceReady, next, systemCpuFreqValid, systemMemSizeAccessValid, clintValid, plicValid,
      divValid, spiAccept, spiMemValid, gpioValid, sndValid, uartLsrValidRd, h1, h2, h3, h4, h5,
      h6, h7, h8, h9, hspi, hlsr]

/-- A byte that is taken is one of a write that is not answered yet. -/
theorem Tied.tx_next (h : s.Tied cfg x) (hw : x.isInstruction = true → x.wr = false)
    (ha : s.txAccept x e i = true) : txHit x i = true ∧ s.cpuMemReady cfg x e = false := by
  simp only [txAccept, Bool.and_eq_true, Bool.not_eq_true'] at ha
  refine ⟨ha.1.1, ?_⟩
  rw [h.ready_of_txHit hw ha.1.1, ← h.seen i ha.1.1]
  exact ha.1.2

/-- A byte is popped for a read that was not answered yet. -/
theorem Tied.rx_next (h : s.Tied cfg x) (hr : s.uartRxValidRd x i = true) :
    rxHit x i = true ∧ s.cpuMemReady cfg x e = false := by
  simp only [uartRxValidRd, Bool.and_eq_true, Bool.not_eq_true'] at hr
  have hx : rxHit x i = true := by simp [rxHit, hr.1, hr.2.1.2, hr.2.2]
  exact ⟨hx, (h.ready_of_rxHit hx).trans hr.2.1.1⟩

/-- **One edge.**  The answers stay with the request of a master that waits, if its fetches do
not write. -/
theorem Tied.step (h : s.Tied cfg x) (hw : x.isInstruction = true → x.wr = false)
    (hf : Follows (s.cpuMemReady cfg x e) x x') : (s.next cfg x e).Tied cfg x' where
  bram hb hv' := by
    have hbv : s.bramValid x = true := hb
    simp only [bramValid, Bool.and_eq_true] at hbv
    rw [(hf.eq hbv.1.2 hv').1]
    exact hbv.2
  flash hb := by
    obtain ⟨hv, hx, hr⟩ := h.flash_next hb
    rw [hf.hold hv hr]
    exact ⟨hv, hx⟩
  flashIdle := h.flashIdle_next
  icache hs := by
    obtain ⟨hx, hr⟩ := h.icache_next hs
    rw [hf.hold hx.1 hr]
    exact hx
  dcache hs := by
    obtain ⟨hx, hr⟩ := h.dcache_next hs
    rw [hf.hold hx.1 hr]
    exact hx
  fault hr hv' := by
    obtain ⟨hv, hinv⟩ := h.fault_next hr
    rw [(hf.eq hv hv').1]
    exact hinv
  devices i hv' haddr := by
    cases hv : x.valid with
    | false => exact deviceReady_next (i := i) (.inl hv)
    | true =>
      rw [(hf.eq hv hv').1] at haddr
      exact deviceReady_next (.inr haddr)
  tx i ha := by
    obtain ⟨hx, hr⟩ := h.tx_next (e := e) hw ha
    rw [hf.hold (txHit_iff.1 hx).1 hr]
    exact hx
  seen i hx' := by
    show (txHit x i && (s.txAccept x e i || s.txSeen i)) = s.txAccept x e i
    cases hv : x.valid with
    | false => simp [txAccept, txHit, hv]
    | true =>
      -- The write was not answered in this cycle: its byte has not been taken before.
      obtain ⟨rfl, hr⟩ := hf.eq hv (txHit_iff.1 hx').1
      rw [h.ready_of_txHit hw hx', ← h.seen i hx'] at hr
      rw [hx', hr, Bool.true_and, Bool.or_false]
  rx i hr := by
    obtain ⟨hx, hnot⟩ := h.rx_next (e := e) hr
    rw [hf.hold (rxHit_iff.1 hx).1 hnot]
    exact hx
  fetch i hfault hx' := by
    obtain ⟨rfl, hr⟩ := hf.eq (h.fault_next hfault).1 (rxHit_iff.1 hx').1
    rw [h.ready_of_rxHit hx'] at hr
    show s.uartRxValidRd x' i = true
    simp only [rxHit, Bool.and_eq_true] at hx'
    simp [uartRxValidRd, hr, hx'.1.1, hx'.2]
    simpa using hx'.1.2

theorem IsReset.tied (h : s.IsReset) (x : BusAccess) : s.Tied cfg x where
  bram hb := by simp [h.bram] at hb
  flash hb := by simp [h.flash] at hb
  flashIdle _ := h.flash.1
  icache hs := absurd h.caches.1 hs
  dcache hs := absurd h.caches.2 hs
  fault hr := by simp [h.accessFault] at hr
  devices i _ _ := by simp [deviceReady, h.system, h.devices, h.spi, h.uart]
  tx i hr := by simp [h.uart] at hr
  seen i _ := by simp [h.uart]
  rx i hr := by simp [h.uart] at hr
  fetch i hr := by simp [h.accessFault] at hr

end Soc

end KianRiscV
