/-
# Who answers on the bus

In a cycle with a request and no answer, some responder should be engaged for the request.
The invariant `Owned` says that every answer under way belongs to the request on the bus; in
particular the address the caches show is that of the request, so that the decoding sees one
address.  What remains is a case split over the memory map, which leaves three kinds of
access that nobody answers.
-/
import KianRiscV.SocBus

namespace KianRiscV

/-! ## The memory map -/

namespace BusAccess

variable (cfg : SocConfig) (x : BusAccess)

/-- The access falls into a mapped region. -/
def mapped : Bool := x.isIo || x.isBram || inSdram cfg x.addr || x.isFlash cfg

/-- The access that `invalidAccess` should report, with the address of the access itself. -/
def invalid : Bool :=
  (!x.isInstruction && !(x.mapped cfg || x.isReboot)) ||
    (x.isInstruction && !(inSdram cfg x.addr || x.isBram || x.isFlash cfg))

/-- The accesses that nobody answers: writes to the flash, data writes to a line status
register, and data accesses outside every region that carry the reboot word. -/
def orphaned : Bool :=
  (x.isFlash cfg && x.wr) ||
    (!x.isInstruction && x.wr && (x.addr == uartLsrAddr 0 || x.addr == uartLsrAddr 1)) ||
    (!x.isInstruction && !x.mapped cfg && x.isRebootData)

variable {cfg x}

theorem isBram_bound (h : x.isBram = true) : x.addr.toNat < 0x4000 := by
  simpa [isBram, BitVec.lt_def] using h

theorem isFlash_bound (h : x.isFlash cfg = true) :
    0x20000000 ≤ x.addr.toNat ∧ x.addr.toNat < 0x21000000 := by
  simp only [isFlash, Bool.and_eq_true, decide_eq_true_eq, BitVec.le_def, BitVec.lt_def] at h
  exact ⟨h.1.2, h.2⟩

theorem inSdram_bound {addr : Word} (h : inSdram cfg addr = true) : 0x80000000 ≤ addr.toNat := by
  simp only [inSdram, Bool.and_eq_true, decide_eq_true_eq, BitVec.le_def] at h
  exact h.1

theorem isIo_bound (h : x.isIo = true) :
    0x2000000 ≤ x.addr.toNat ∧ x.addr.toNat ≤ 0x12000000 := by
  have hpage : ∀ b : BitVec 8, x.addr.extractLsb' 24 8 = b → x.addr.toNat / 2 ^ 24 = b.toNat := by
    rintro b rfl
    have hlt := x.addr.isLt
    rw [BitVec.extractLsb'_toNat, Nat.shiftRight_eq_div_pow]
    omega
  simp only [isIo, isPlic, isClint, Bool.or_eq_true, Bool.and_eq_true, decide_eq_true_eq,
    BitVec.le_def, beq_iff_eq] at h
  rcases h with ⟨hlo, hhi⟩ | h | h
  · exact ⟨by simp at hlo; omega, hhi⟩
  · have hd := hpage _ h
    simp at hd
    omega
  · have hd := hpage _ h
    simp at hd
    omega

/-! The regions are disjoint. -/

theorem of_isBram (h : x.isBram = true) :
    x.isFlash cfg = false ∧ inSdram cfg x.addr = false ∧ x.isIo = false := by
  have hb := isBram_bound h
  refine ⟨?_, ?_, ?_⟩ <;> rw [← Bool.not_eq_true] <;> intro h'
  · have := isFlash_bound h'
    omega
  · have := inSdram_bound h'
    omega
  · have := isIo_bound h'
    omega

theorem of_isFlash (h : x.isFlash cfg = true) :
    x.isBram = false ∧ inSdram cfg x.addr = false ∧ x.isIo = false := by
  have hb := isFlash_bound h
  refine ⟨?_, ?_, ?_⟩ <;> rw [← Bool.not_eq_true] <;> intro h'
  · have := isBram_bound h'
    omega
  · have := inSdram_bound h'
    omega
  · have := isIo_bound h'
    omega

theorem of_inSdram (h : inSdram cfg x.addr = true) :
    x.isBram = false ∧ x.isFlash cfg = false ∧ x.isIo = false := by
  have hb := inSdram_bound h
  refine ⟨?_, ?_, ?_⟩ <;> rw [← Bool.not_eq_true] <;> intro h'
  · have := isBram_bound h'
    omega
  · have := isFlash_bound h'
    omega
  · have := isIo_bound h'
    omega

theorem of_isIo (h : x.isIo = true) :
    x.isBram = false ∧ x.isFlash cfg = false ∧ inSdram cfg x.addr = false := by
  have hb := isIo_bound h
  refine ⟨?_, ?_, ?_⟩ <;> rw [← Bool.not_eq_true] <;> intro h'
  · have := isBram_bound h'
    omega
  · have := isFlash_bound h'
    omega
  · have := inSdram_bound h'
    omega

/-- Outside every region only the reboot word escapes the fault. -/
theorem invalid_of_unmapped (hm : x.mapped cfg = false) (ho : x.orphaned cfg = false) :
    x.invalid cfg = true := by
  have hregions := hm
  simp only [mapped, Bool.or_eq_false_iff] at hregions
  obtain ⟨⟨⟨hio, hb⟩, hs⟩, hf⟩ := hregions
  cases hi : x.isInstruction with
  | true => simp [invalid, hi, hb, hs, hf]
  | false =>
    have haddr : x.isRebootAddr = false := by
      by_contra hne
      simp only [isRebootAddr, Bool.not_eq_false, beq_iff_eq] at hne
      simp [isIo, hne] at hio
    have hdata : x.isRebootData = false := by
      by_contra hne
      rw [Bool.not_eq_false] at hne
      simp [orphaned, hi, hm, hne] at ho
    simp [invalid, isReboot, hi, hm, haddr, hdata]

end BusAccess

/-! ## Responders -/

namespace Soc

variable {iset iways dset dways : ℕ} {ipolicy : ReplacementPolicy iset iways}
  {dpolicy : ReplacementPolicy dset dways} (cfg : SocConfig) (s : Soc ipolicy dpolicy)
  (x : BusAccess) (e : SocEnv)

/-- One of the devices behind `io_ready` has the request. -/
def ioEngaged : Bool :=
  ((List.finRange 2).any fun i => txHit x i && !s.txSeen i) ||
    ((List.finRange 2).any fun i => s.uartLsrValidRd x i || s.uartRxValidRd x i) ||
    ((List.finRange 3).any fun i => s.spiMemValid cfg x i) ||
    s.gpioValid cfg x || s.sndValid cfg x || s.divValid x || s.systemCpuFreqValid x ||
    s.systemMemSizeAccessValid x || s.clintValid x || s.plicValid x || x.isRebootValid

/-- Some responder is engaged: a slave has the request, the SoC is being reset by it, or the
access fault is asserted. -/
def engaged : Bool :=
  s.memSdramValid cfg x e || s.bramValid x || s.spiNorMemValid cfg x || s.ioEngaged cfg x ||
    s.accessFaultValid cfg x e

/-- Every answer under way belongs to the request `x`, which is carried over from the cycle
before if `c`. -/
structure Owned (c : Bool) : Prop where
  bram : s.bramReady = true → c = true ∧ x.isBram = true
  flash : s.flashBusy = true ∨ s.flashReady = true → c = true ∧ x.isFlash cfg = true
  flashIdle : s.flashReady = true → s.flashBusy = false
  fault : s.accessFaultReady = (c && x.invalid cfg)
  icache : s.cache.icache.state ≠ .s0 →
    c = true ∧ x.isInstruction = true ∧ BusAccess.inSdram cfg x.addr = true
  dcache : s.cache.dcache.state ≠ .s0 →
    c = true ∧ x.isInstruction = false ∧ BusAccess.inSdram cfg x.addr = true ∧
      s.cache.dcache.reqAddr = x.addr
  seen : ∀ i, txHit x i = true → s.txSeen i = true → c = true ∧ s.uartTxReady i = true

variable {cfg s x e} {c : Bool}

/-! ## The edges of the memories -/

/-- The address the caches show is that of the request, if the data cache has latched it. -/
theorem isSdram_eq (h : s.cache.dcache.state ≠ .s0 → s.cache.dcache.reqAddr = x.addr) :
    s.isSdram cfg x e = BusAccess.inSdram cfg x.addr := by
  have haddr : s.cacheAddr x e = x.addr := by
    unfold cacheAddr Cache.ramRequest
    split
    · rfl
    · show s.cache.dcache.addrQ (cacheReq x false) = x.addr
      unfold Dcache.addrQ Dcache.inLookup
      by_cases hs : s.cache.dcache.state = .s0
      · simp [hs, cacheReq]
      · simp [hs, h hs]
  rw [Soc.isSdram, haddr]

/-- The SDRAM path answers only while the cache of the request is busy. -/
theorem busy_of_memSdramReady (h : s.memSdramReady x e = true) :
    (x.isInstruction = true ∧ s.cache.icache.state ≠ .s0) ∨
      (x.isInstruction = false ∧ s.cache.dcache.state ≠ .s0) := by
  unfold memSdramReady Cache.cpuReady at h
  split at h
  · next hi => exact .inl ⟨hi, fun hs => by simp [Icache.cpuReady, hs] at h⟩
  · next hi =>
    exact .inr ⟨Bool.eq_false_of_not_eq_true hi, fun hs => by simp [Dcache.cpuReady, hs] at h⟩

/-- The instruction cache becomes busy with a fetch from the SDRAM, and stays so until it has
answered. -/
theorem icache_busy_next (hs : (s.next cfg x e).cache.icache.state ≠ .s0) :
    (x.isInstruction = true ∧ s.memSdramValid cfg x e = true) ∨
      (s.cache.icache.state ≠ .s0 ∧
        (x.isInstruction = true → s.memSdramReady x e = false)) := by
  simp only [next, Cache.next, Icache.next] at hs
  cases hfl : e.icacheFlush with
  | true => simp [hfl] at hs
  | false =>
    simp only [hfl, Bool.not_false, Bool.not_true, Bool.false_eq_true, if_false] at hs
    by_cases hst : s.cache.icache.state = .s0
    · -- A lookup in this cycle.
      simp only [Icache.nextState, hst, Icache.fetchValid, Icache.cpuReady] at hs
      cases hi : x.isInstruction with
      | false => simp [hi] at hs
      | true =>
        refine .inl ⟨rfl, ?_⟩
        by_contra hne
        simp [hi, cacheReq, hne] at hs
    · refine .inr ⟨hst, fun hi => ?_⟩
      by_contra hr
      simp only [memSdramReady, Cache.cpuReady, hi, if_true, Bool.not_eq_false] at hr
      cases hst' : s.cache.icache.state with
      | s0 => exact hst hst'
      | s1 => simp [Icache.cpuReady, hst'] at hr; simp [Icache.nextState, hst', hi, hr] at hs
      | s2 => simp [Icache.nextState, hst'] at hs

/-- So does the data cache with a data access, which latches the address. -/
theorem dcache_busy_next (hs : (s.next cfg x e).cache.dcache.state ≠ .s0) :
    (x.isInstruction = false ∧ s.memSdramValid cfg x e = true ∧
        (s.next cfg x e).cache.dcache.reqAddr = x.addr) ∨
      (s.cache.dcache.state ≠ .s0 ∧ (x.isInstruction = false → s.memSdramReady x e = false) ∧
        (s.next cfg x e).cache.dcache.reqAddr = s.cache.dcache.reqAddr) := by
  simp only [next, Cache.next, Dcache.next] at hs ⊢
  cases hfl : e.icacheFlush with
  | true => simp [hfl] at hs
  | false =>
    simp only [hfl, Bool.not_false, Bool.not_true, Bool.false_eq_true, if_false] at hs ⊢
    -- it starts with the request on the bus, or goes on with the one it has latched
    by_cases hst : s.cache.dcache.state = .s0
    · cases hi : x.isInstruction with
      | true => simp [Dcache.nextState, hst, Dcache.fetchValid, Cache.dcacheReq, hi] at hs
      | false =>
        have hm : s.memSdramValid cfg x e = true := by
          by_contra hne
          simp [Dcache.nextState, hst, Dcache.fetchValid, Cache.dcacheReq, hi, cacheReq, hne] at hs
        have hlatch : s.cache.dcache.fetchValid (Cache.dcacheReq false
            (cacheReq x (s.memSdramValid cfg x e))) = true := by
          simp [Dcache.fetchValid, Dcache.inLookup, hst, Cache.dcacheReq, cacheReq, hm]
        rw [hlatch]
        exact .inl ⟨rfl, hm, rfl⟩
    · have hlatch : s.cache.dcache.fetchValid (Cache.dcacheReq x.isInstruction
          (cacheReq x (s.memSdramValid cfg x e))) = false := by
        simp [Dcache.fetchValid, Dcache.inLookup, hst]
      rw [hlatch]
      refine .inr ⟨hst, fun hi => ?_, rfl⟩
      by_contra hr
      simp only [memSdramReady, Cache.cpuReady, hi, Bool.false_eq_true, if_false,
        Bool.not_eq_false] at hr
      cases hst' : s.cache.dcache.state with
      | s0 => exact hst hst'
      | s1 =>
        simp only [Dcache.cpuReady, hst'] at hr
        simp [Dcache.nextState, hst', hi, hr] at hs
      | s2 => simp [Dcache.nextState, hst'] at hs
      | s3 =>
        simp only [Dcache.cpuReady, hst'] at hr
        simp [Dcache.nextState, hst', hi, hr] at hs

/-- The flash controller becomes busy with a read. -/
theorem flash_busy_next
    (h : (s.next cfg x e).flashBusy = true ∨ (s.next cfg x e).flashReady = true) :
    s.flashBusy = true ∨ s.spiNorMemValid cfg x = true := by
  cases hbusy : s.flashBusy with
  | true => exact .inl rfl
  | false =>
    refine .inr ?_
    rcases h with h | h
    · simpa [next, hbusy] using h
    · simp only [next, hbusy, Bool.false_eq_true, if_false, Bool.and_eq_true] at h
      exact h.2

/-! ## Ownership -/

theorem Owned.isSdram (h : s.Owned cfg x c) :
    s.isSdram cfg x e = BusAccess.inSdram cfg x.addr :=
  isSdram_eq fun hs => (h.dcache hs).2.2.2

theorem Owned.invalidAccess (h : s.Owned cfg x c) :
    s.invalidAccess cfg x e = x.invalid cfg := by
  simp only [Soc.invalidAccess, BusAccess.invalid, BusAccess.mapped, h.isSdram]

/-- The SDRAM path answers only requests to the SDRAM. -/
theorem Owned.of_memSdramReady (h : s.Owned cfg x c) (hr : s.memSdramReady x e = true) :
    BusAccess.inSdram cfg x.addr = true := by
  rcases busy_of_memSdramReady hr with ⟨-, hs⟩ | ⟨-, hs⟩
  · exact (h.icache hs).2.2
  · exact (h.dcache hs).2.2.1

/-- A request outside the I/O region whose own responder is not ready is not answered. -/
theorem Owned.not_ready (h : s.Owned cfg x c) (hio : x.isIo = false)
    (hinv : x.invalid cfg = false) (hb : x.isBram = true → s.bramReady = false)
    (hf : x.isFlash cfg = true → s.flashReady = false)
    (hs : BusAccess.inSdram cfg x.addr = true → s.memSdramReady x e = false) :
    s.cpuMemReady cfg x e = false := by
  have h1 : s.bramReady = false := by
    by_contra hne
    rw [Bool.not_eq_false] at hne
    exact absurd (hb (h.bram hne).2) (by rw [hne]; decide)
  have h2 : s.flashReady = false := by
    by_contra hne
    rw [Bool.not_eq_false] at hne
    exact absurd (hf (h.flash (.inr hne)).2) (by rw [hne]; decide)
  have h3 : s.memSdramReady x e = false := by
    by_contra hne
    rw [Bool.not_eq_false] at hne
    exact absurd (hs (h.of_memSdramReady hne)) (by rw [hne]; decide)
  simp [cpuMemReady, ioReady, h1, h2, h3, hio, h.fault, hinv]

/-- Whether the request is carried over to the next cycle: it is new or not answered. -/
def carries (cfg : SocConfig) (s : Soc ipolicy dpolicy) (x : BusAccess) (e : SocEnv) (c : Bool) :
    Bool :=
  x.valid && (!c || !s.cpuMemReady cfg x e)

theorem carries_of_not_ready (hv : x.valid = true) (h : s.cpuMemReady cfg x e = false) :
    s.carries cfg x e c = true := by
  simp [carries, hv, h]

theorem Owned.bram_next (h : s.Owned cfg x c) (hb : s.bramValid x = true) :
    s.carries cfg x e c = true ∧ x.isBram = true := by
  simp only [bramValid, Bool.and_eq_true, Bool.not_eq_true'] at hb
  obtain ⟨⟨hr, hv⟩, hx⟩ := hb
  obtain ⟨hf, hs, hio⟩ : x.isFlash cfg = false ∧ BusAccess.inSdram cfg x.addr = false ∧
      x.isIo = false := BusAccess.of_isBram hx
  have hinv : x.invalid cfg = false := by simp [BusAccess.invalid, BusAccess.mapped, hx]
  exact ⟨carries_of_not_ready hv (h.not_ready hio hinv (fun _ => hr) (by simp [hf])
    (by simp [hs])), hx⟩

/-- A flash read that is not answered yet is carried over. -/
theorem Owned.carries_of_flash (h : s.Owned cfg x c) (hv : x.valid = true)
    (hx : x.isFlash cfg = true) (hr : s.flashReady = false) : s.carries cfg x e c = true := by
  obtain ⟨hb, hs, hio⟩ := BusAccess.of_isFlash hx
  have hinv : x.invalid cfg = false := by simp [BusAccess.invalid, BusAccess.mapped, hx]
  exact carries_of_not_ready hv (h.not_ready hio hinv (by simp [hb]) (fun _ => hr) (by simp [hs]))

/-- So is an access to the SDRAM that its cache has not finished. -/
theorem Owned.carries_of_sdram (h : s.Owned cfg x c) (hv : x.valid = true)
    (hx : BusAccess.inSdram cfg x.addr = true) (hr : s.memSdramReady x e = false) :
    s.carries cfg x e c = true := by
  obtain ⟨hb, hf, hio⟩ := BusAccess.of_inSdram hx
  have hinv : x.invalid cfg = false := by simp [BusAccess.invalid, BusAccess.mapped, hx]
  exact carries_of_not_ready hv (h.not_ready hio hinv (by simp [hb]) (by simp [hf]) (fun _ => hr))

theorem Owned.flash_next (h : s.Owned cfg x c) (hv : c = true → x.valid = true)
    (hb : (s.next cfg x e).flashBusy = true ∨ (s.next cfg x e).flashReady = true) :
    s.carries cfg x e c = true ∧ x.isFlash cfg = true := by
  rcases flash_busy_next hb with hbusy | hn
  · obtain ⟨hc, hx⟩ := h.flash (.inl hbusy)
    have hr : s.flashReady = false := by
      by_contra hne
      rw [Bool.not_eq_false] at hne
      exact absurd (h.flashIdle hne) (by rw [hbusy]; decide)
    exact ⟨h.carries_of_flash (hv hc) hx hr, hx⟩
  · simp only [spiNorMemValid, Bool.and_eq_true, Bool.not_eq_true'] at hn
    exact ⟨h.carries_of_flash hn.1.1.2 hn.1.2 hn.1.1.1, hn.1.2⟩

theorem Owned.fault_next (h : s.Owned cfg x c) :
    (s.next cfg x e).accessFaultReady = (s.carries cfg x e c && x.invalid cfg) := by
  show s.accessFaultValid cfg x e = _
  rw [accessFaultValid, h.invalidAccess, h.fault, carries]
  cases hi : x.invalid cfg with
  | false => simp
  | true =>
    cases hc : c with
    | false => simp
    | true =>
      -- The fault of the carried request is asserted, so that it is answered.
      have hr : s.cpuMemReady cfg x e = true := by simp [cpuMemReady, h.fault, hi, hc]
      simp [hr]

/-- A request for the SDRAM path is one to the SDRAM that its cache has not finished. -/
theorem Owned.of_memSdramValid (h : s.Owned cfg x c) (hm : s.memSdramValid cfg x e = true) :
    s.carries cfg x e c = true ∧ BusAccess.inSdram cfg x.addr = true := by
  simp only [memSdramValid, Bool.and_eq_true, Bool.not_eq_true', h.isSdram] at hm
  exact ⟨h.carries_of_sdram hm.1.2 hm.2 hm.1.1, hm.2⟩

/-- The instruction cache is busy with the request, if at all. -/
theorem Owned.icache_next (h : s.Owned cfg x c) (hv : c = true → x.valid = true)
    (hs : (s.next cfg x e).cache.icache.state ≠ .s0) :
    s.carries cfg x e c = true ∧ x.isInstruction = true ∧
      BusAccess.inSdram cfg x.addr = true := by
  rcases icache_busy_next hs with ⟨hi, hm⟩ | ⟨hst, hr⟩
  · obtain ⟨hc, hx⟩ := h.of_memSdramValid hm
    exact ⟨hc, hi, hx⟩
  · obtain ⟨hc, hi, hx⟩ := h.icache hst
    exact ⟨h.carries_of_sdram (hv hc) hx (hr hi), hi, hx⟩

/-- The data cache is busy with the request, if at all, and has latched its address. -/
theorem Owned.dcache_next (h : s.Owned cfg x c) (hv : c = true → x.valid = true)
    (hs : (s.next cfg x e).cache.dcache.state ≠ .s0) :
    s.carries cfg x e c = true ∧ x.isInstruction = false ∧
      BusAccess.inSdram cfg x.addr = true ∧
      (s.next cfg x e).cache.dcache.reqAddr = x.addr := by
  rcases dcache_busy_next hs with ⟨hi, hm, ha⟩ | ⟨hst, hr, ha⟩
  · obtain ⟨hc, hx⟩ := h.of_memSdramValid hm
    exact ⟨hc, hi, hx, ha⟩
  · obtain ⟨hc, hi, hx, haddr⟩ := h.dcache hst
    exact ⟨h.carries_of_sdram (hv hc) hx (hr hi), hi, hx, ha.trans haddr⟩

theorem isIo_of_txHit {i : Fin 2} (h : txHit x i = true) : x.isIo = true := by
  simp only [txHit, Bool.and_eq_true, beq_iff_eq] at h
  have hall : ∀ i : Fin 2, BusAccess.isIo ⟨true, BusAccess.uartTxAddr i, 0, 0, true⟩ = true := by
    decide
  have hi := hall i
  rw [← h.2] at hi
  exact hi

/-- A UART that has taken the byte answers in the next cycle. -/
theorem ready_of_uartTxReady {i : Fin 2} (hx : txHit x i = true) (h : s.uartTxReady i = true) :
    s.cpuMemReady cfg x e = true := by
  have hu : s.ioReadyUart = true := by
    simp only [ioReadyUart, List.any_eq_true]
    exact ⟨i, List.mem_finRange i, by simp [h]⟩
  simp [cpuMemReady, ioReady, isIo_of_txHit hx, hu]

theorem Owned.flashIdle_next (h : s.Owned cfg x c) (hr : (s.next cfg x e).flashReady = true) :
    (s.next cfg x e).flashBusy = false := by
  cases hbusy : s.flashBusy with
  | true =>
    have hnot : s.flashReady = false := by
      by_contra hne
      rw [Bool.not_eq_false] at hne
      exact absurd (h.flashIdle hne) (by rw [hbusy]; decide)
    have hdone : e.flashDone = true := by simpa [next, hbusy, hnot] using hr
    simp [next, hbusy, hdone]
  | false =>
    simp only [next, hbusy, Bool.false_eq_true, if_false, spiNorMemValid, Bool.and_eq_true,
      Bool.not_eq_true'] at hr
    exact absurd hr.1 (by rw [hr.2.1.1.1]; decide)

/-- Ownership is kept, if a request carried over stays and a write that has been answered is
not followed directly by another write. -/
theorem Owned.step {x' : BusAccess} (h : s.Owned cfg x c) (hv : c = true → x.valid = true)
    (hx : s.carries cfg x e c = true → x' = x)
    (hw : s.carries cfg x e c = false → x.valid = true → x.wr = true → x'.valid = true →
      x'.wr = false) :
    (s.next cfg x e).Owned cfg x' (s.carries cfg x e c) := by
  constructor
  · intro hb
    obtain ⟨hc, hr⟩ := h.bram_next (e := e) hb
    exact ⟨hc, by rw [hx hc]; exact hr⟩
  · intro hb
    obtain ⟨hc, hr⟩ := h.flash_next hv hb
    exact ⟨hc, by rw [hx hc]; exact hr⟩
  · exact h.flashIdle_next
  · rw [h.fault_next]
    cases hc : s.carries cfg x e c with
    | false => rfl
    | true => rw [hx hc]
  · intro hs
    obtain ⟨hc, hi, hr⟩ := h.icache_next hv hs
    exact ⟨hc, by rw [hx hc]; exact hi, by rw [hx hc]; exact hr⟩
  · intro hs
    obtain ⟨hc, hi, hr, ha⟩ := h.dcache_next hv hs
    exact ⟨hc, by rw [hx hc]; exact hi, by rw [hx hc]; exact hr, by rw [hx hc]; exact ha⟩
  · intro i hhit hseen
    have hseen' : (txHit x i && (s.txAccept x e i || s.txSeen i)) = true := hseen
    simp only [Bool.and_eq_true, Bool.or_eq_true] at hseen'
    obtain ⟨hold, hor⟩ := hseen'
    have hc : s.carries cfg x e c = true := by
      by_contra hne
      rw [Bool.not_eq_true] at hne
      simp only [txHit, Bool.and_eq_true] at hold hhit
      exact absurd (hw hne hold.1.1 hold.1.2 hhit.1.1) (by rw [hhit.1.2]; decide)
    refine ⟨hc, ?_⟩
    rcases hor with hacc | hsn
    · exact hacc
    · -- The byte was taken earlier: then the request has been answered and ends.
      obtain ⟨hc', hr⟩ := h.seen i hold hsn
      simp [carries, hc', ready_of_uartTxReady hold hr] at hc

theorem IsReset.owned (h : s.IsReset) (x : BusAccess) : s.Owned cfg x false where
  bram hb := by simp [h.bram] at hb
  flash hb := by simp [h.flash] at hb
  flashIdle _ := h.flash.1
  fault := h.accessFault
  icache hs := absurd h.caches.1 hs
  dcache hs := absurd h.caches.2 hs
  seen i _ hs := by simp [(h.uart i).2.1] at hs

/-! ## A cycle without answer -/

/-- The devices behind `io_ready` have requests to the I/O region only. -/
theorem isIo_of_ioEngaged (h : s.ioEngaged cfg x = true) : x.isIo = true := by
  have hlsr : ∀ i : Fin 2, BusAccess.isIo ⟨true, BusAccess.uartLsrAddr i, 0, 0, true⟩ = true := by
    decide
  have hrx : ∀ i : Fin 2, BusAccess.isIo ⟨true, BusAccess.uartRxAddr i, 0, 0, true⟩ = true := by
    decide
  have hctrl : ∀ i : Fin 3, BusAccess.isIo ⟨true, BusAccess.spiCtrl i, 0, 0, true⟩ = true := by
    decide
  have hdata : ∀ i : Fin 3, BusAccess.isIo ⟨true, BusAccess.spiData i, 0, 0, true⟩ = true := by
    decide
  have haddr : ∀ w : Word, BusAccess.isIo ⟨true, w, 0, 0, true⟩ = true → x.addr = w →
      x.isIo = true := by
    rintro w hw rfl
    exact hw
  simp only [ioEngaged, Bool.or_eq_true, List.any_eq_true] at h
  -- one case for each device in the order of `io_ready`
  rcases h with (((((((((⟨i, -, h⟩ | ⟨i, -, h⟩) | ⟨i, -, h⟩) | h) | h) | h) | h) | h) | h) | h) | h
  · simp only [Bool.and_eq_true] at h
    exact isIo_of_txHit h.1
  · simp only [uartLsrValidRd, uartRxValidRd, Bool.and_eq_true, beq_iff_eq] at h
    rcases h with h | h
    · exact haddr _ (hlsr i) h.2
    · exact haddr _ (hrx i) h.2.2
  · simp only [spiMemValid, Bool.and_eq_true, Bool.or_eq_true, beq_iff_eq] at h
    rcases h.2 with h | h
    · exact haddr _ (hctrl i) h
    · exact haddr _ (hdata i) h
  · simp only [gpioValid, Bool.and_eq_true, Bool.or_eq_true, beq_iff_eq] at h
    rcases h.2 with (h | h) | h <;> exact haddr _ (by decide) h
  · simp only [sndValid, Bool.and_eq_true, beq_iff_eq] at h
    exact haddr _ (by decide) h.2
  · simp only [divValid, Bool.and_eq_true, beq_iff_eq] at h
    exact haddr _ (by decide) h.2
  · simp only [systemCpuFreqValid, Bool.and_eq_true, beq_iff_eq] at h
    exact haddr _ (by decide) h.1.2
  · simp only [systemMemSizeAccessValid, Bool.and_eq_true, beq_iff_eq] at h
    exact haddr _ (by decide) h.1.2
  · simp only [clintValid, Bool.and_eq_true] at h
    simp [BusAccess.isIo, h.1.2.1]
  · simp only [plicValid, Bool.and_eq_true] at h
    simp [BusAccess.isIo, h.2.1]
  · simp only [BusAccess.isRebootValid, BusAccess.isRebootAddr, Bool.and_eq_true, beq_iff_eq] at h
    exact haddr _ (by decide) h.1.1.2

/-- A data write to a line status register engages no device. -/
theorem ioEngaged_of_lsr_write (hw : x.wr = true)
    (ha : x.addr = BusAccess.uartLsrAddr 0 ∨ x.addr = BusAccess.uartLsrAddr 1) :
    s.ioEngaged cfg x = false := by
  have hfin2 : List.finRange 2 = [0, 1] := by decide
  have hfin3 : List.finRange 3 = [0, 1, 2] := by decide
  rcases ha with ha | ha <;>
    simp [ioEngaged, txHit, uartLsrValidRd, uartRxValidRd, spiMemValid, gpioValid, sndValid,
      divValid, systemCpuFreqValid, systemMemSizeAccessValid, clintValid, plicValid,
      BusAccess.isRebootValid, BusAccess.isRebootAddr, BusAccess.isClint, BusAccess.isPlic, ha, hw,
      hfin2, hfin3, BusAccess.uartLsrAddr, BusAccess.uartTxAddr, BusAccess.uartRxAddr,
      BusAccess.spiCtrl, BusAccess.spiData]

/-- What the bus owes a request that is not answered in this cycle: a responder, and outside
every mapped region the access fault. -/
def Responded (cfg : SocConfig) (s : Soc ipolicy dpolicy) (x : BusAccess) (e : SocEnv) : Prop :=
  s.engaged cfg x e = true ∧
    (x.mapped cfg = false → (s.next cfg x e).accessFaultReady = true)

/-- The accesses nobody answers have no responder. -/
theorem Owned.not_engaged (h : s.Owned cfg x c) (ho : x.orphaned cfg = true) :
    s.engaged cfg x e = false := by
  simp only [BusAccess.orphaned, Bool.or_eq_true, Bool.and_eq_true, Bool.not_eq_true',
    beq_iff_eq] at ho
  -- In all three cases no memory has the request and no fault is raised.
  suffices hmain : BusAccess.inSdram cfg x.addr = false ∧ x.isBram = false ∧
      (x.isFlash cfg = false ∨ x.wr = true) ∧ s.ioEngaged cfg x = false ∧
      x.invalid cfg = false by
    obtain ⟨hs, hb, hf, hio, hinv⟩ := hmain
    have hnor : s.spiNorMemValid cfg x = false := by
      rcases hf with hf | hf <;> simp [spiNorMemValid, hf]
    simp [engaged, memSdramValid, bramValid, accessFaultValid, h.isSdram, h.invalidAccess, hs, hb,
      hnor, hio, hinv]
  have hquiet : x.isIo = false → s.ioEngaged cfg x = false := by
    intro hio
    by_contra hne
    rw [Bool.not_eq_false] at hne
    exact absurd (isIo_of_ioEngaged hne) (by rw [hio]; decide)
  rcases ho with (⟨hf, hw⟩ | ⟨⟨hd, hw⟩, ha⟩) | ⟨⟨hd, hm⟩, hr⟩
  · obtain ⟨hb, hs, hio⟩ := BusAccess.of_isFlash hf
    exact ⟨hs, hb, .inr hw, hquiet hio, by simp [BusAccess.invalid, BusAccess.mapped, hf]⟩
  · have hio : x.isIo = true := by
      rcases ha with ha | ha <;> simp [BusAccess.isIo, ha, BusAccess.uartLsrAddr]
    obtain ⟨hb, hf, hs⟩ : x.isBram = false ∧ x.isFlash cfg = false ∧
        BusAccess.inSdram cfg x.addr = false := BusAccess.of_isIo hio
    exact ⟨hs, hb, .inl hf, ioEngaged_of_lsr_write hw ha,
      by simp [BusAccess.invalid, BusAccess.mapped, hd, hio]⟩
  · simp only [BusAccess.mapped, Bool.or_eq_false_iff] at hm
    obtain ⟨⟨⟨hio, hb⟩, hs⟩, hf⟩ := hm
    exact ⟨hs, hb, .inl hf, hquiet hio,
      by simp [BusAccess.invalid, BusAccess.isReboot, hd, hr]⟩

/-- A request to the I/O region that is not answered has a device, unless it is a write to a
line status register. -/
theorem Owned.ioEngaged_of_unanswered (h : s.Owned cfg x c) (hv : x.valid = true)
    (hio : x.isIo = true) (hr : s.ioReady cfg x = false)
    (hlsr : x.wr = true → ¬ (x.addr = BusAccess.uartLsrAddr 0 ∨ x.addr = BusAccess.uartLsrAddr 1)) :
    s.ioEngaged cfg x = true := by
  simp only [ioReady, hio, Bool.true_and, Bool.or_eq_false_iff] at hr
  obtain ⟨⟨⟨⟨⟨⟨⟨⟨⟨huart, -⟩, -⟩, -⟩, -⟩, -⟩, -⟩, -⟩, -⟩, hun⟩ := hr
  have hquiet : ∀ i, s.uartLsrRdy i = false ∧ s.uartRxReady i = false ∧
      s.uartTxReady i = false := by
    intro i
    have hi := List.any_eq_false.1 huart i (List.mem_finRange i)
    simpa [and_assoc] using hi
  cases hm : matchUart x with
  | false =>
    by_contra hne
    simp only [ioEngaged, Bool.not_eq_true, Bool.or_eq_false_iff] at hne
    obtain ⟨⟨⟨⟨⟨⟨⟨⟨⟨-, hspi⟩, hgpio⟩, hsnd⟩, hdiv⟩, hfreq⟩, hsize⟩, hclint⟩, hplic⟩, -⟩ := hne
    simp [unmatchedIo, hm, hspi, hgpio, hsnd, hdiv, hfreq, hsize, hclint, hplic] at hun
  | true =>
    simp only [matchUart, List.any_eq_true, Bool.or_eq_true, beq_iff_eq] at hm
    obtain ⟨i, hi, ha⟩ := hm
    -- The transmit and the receive register share their address.
    have hdata : x.addr = BusAccess.uartTxAddr i → s.ioEngaged cfg x = true := by
      intro ha
      cases hw : x.wr with
      | true =>
        have hhit : txHit x i = true := by simp [txHit, hv, hw, ha]
        have hseen : s.txSeen i = false := by
          by_contra hne
          rw [Bool.not_eq_false] at hne
          exact absurd (h.seen i hhit hne).2 (by rw [(hquiet i).2.2]; decide)
        have hany : ((List.finRange 2).any fun i => txHit x i && !s.txSeen i) = true :=
          List.any_eq_true.2 ⟨i, hi, by simp [hhit, hseen]⟩
        rw [ioEngaged, hany]
        simp only [Bool.true_or]
      | false =>
        have hrd : s.uartRxValidRd x i = true := by
          simp [uartRxValidRd, hw, hv, (hquiet i).2.1, ha, BusAccess.uartRxAddr,
            BusAccess.uartTxAddr]
        have hany : ((List.finRange 2).any fun i => s.uartLsrValidRd x i || s.uartRxValidRd x i) =
            true := List.any_eq_true.2 ⟨i, hi, by rw [hrd, Bool.or_true]⟩
        rw [ioEngaged, hany]
        simp only [Bool.or_true, Bool.true_or]
    rcases ha with (ha | ha) | ha
    · have hw : x.wr = false := by
        by_contra hne
        rw [Bool.not_eq_false] at hne
        apply hlsr hne
        have hfin : ∀ i : Fin 2, i = 0 ∨ i = 1 := by decide
        rcases hfin i with rfl | rfl
        · exact .inl ha
        · exact .inr ha
      have hrd : s.uartLsrValidRd x i = true := by
        simp [uartLsrValidRd, hw, hv, (hquiet i).1, ha]
      have hany : ((List.finRange 2).any fun i => s.uartLsrValidRd x i || s.uartRxValidRd x i) =
          true := List.any_eq_true.2 ⟨i, hi, by rw [hrd, Bool.true_or]⟩
      rw [ioEngaged, hany]
      simp only [Bool.or_true, Bool.true_or]
    · exact hdata ha
    · exact hdata ha

/-- A request to the I/O region that is not answered has a device, or is a fetch, which
faults, or a data write to a line status register. -/
theorem Owned.engaged_of_isIo (h : s.Owned cfg x c) (hv : x.valid = true)
    (hr : s.cpuMemReady cfg x e = false) (hio : x.isIo = true) (ho : x.orphaned cfg = false) :
    s.engaged cfg x e = true := by
  obtain ⟨hb, hf, hs⟩ : x.isBram = false ∧ x.isFlash cfg = false ∧
      BusAccess.inSdram cfg x.addr = false := BusAccess.of_isIo hio
  simp only [cpuMemReady, Bool.or_eq_false_iff] at hr
  obtain ⟨⟨⟨⟨-, -⟩, -⟩, hior⟩, hfault⟩ := hr
  by_cases hi : x.isInstruction = true
  · -- A fetch from the I/O region is a fault.
    have hinv : x.invalid cfg = true := by simp [BusAccess.invalid, hi, hb, hf, hs]
    simp [engaged, accessFaultValid, h.invalidAccess, hinv, hfault, hv]
  · rw [Bool.not_eq_true] at hi
    have hdev : s.ioEngaged cfg x = true := by
      apply h.ioEngaged_of_unanswered hv hio hior
      intro hw ha
      simp only [BusAccess.orphaned, hi, hw, Bool.or_eq_false_iff, Bool.not_false, Bool.true_and,
        beq_eq_false_iff_ne] at ho
      rcases ha with ha | ha
      · exact ho.1.2.1 ha
      · exact ho.1.2.2 ha
    simp [engaged, hdev]

/-- A request is served as it should be in every cycle without answer, unless it is one of
the accesses nobody answers. -/
theorem Owned.responded_iff (h : s.Owned cfg x c) (hv : x.valid = true)
    (hr : s.cpuMemReady cfg x e = false) :
    s.Responded cfg x e ↔ x.orphaned cfg = false := by
  constructor
  · rintro ⟨heng, -⟩
    by_contra hne
    rw [Bool.not_eq_false] at hne
    exact absurd heng (by rw [h.not_engaged hne]; decide)
  · intro ho
    have hready := hr
    simp only [cpuMemReady, Bool.or_eq_false_iff] at hready
    obtain ⟨⟨⟨⟨hbr, hfr⟩, hsr⟩, -⟩, hafr⟩ := hready
    have hfault : x.invalid cfg = true → s.accessFaultValid cfg x e = true := by
      intro hinv
      simp [accessFaultValid, h.invalidAccess, hinv, hafr, hv]
    by_cases hm : x.mapped cfg = true
    · refine ⟨?_, by simp [hm]⟩
      simp only [BusAccess.mapped, Bool.or_eq_true] at hm
      rcases hm with ((hio | hb) | hs) | hf
      · exact h.engaged_of_isIo hv hr hio ho
      · simp [engaged, bramValid, hb, hbr, hv]
      · simp [engaged, memSdramValid, h.isSdram, hs, hsr, hv]
      · have hw : x.wr = false := by
          by_contra hne
          rw [Bool.not_eq_false] at hne
          simp [BusAccess.orphaned, hf, hne] at ho
        simp [engaged, spiNorMemValid, hf, hfr, hv, hw]
    · rw [Bool.not_eq_true] at hm
      have hinv : x.invalid cfg = true := BusAccess.invalid_of_unmapped hm ho
      exact ⟨by simp [engaged, hfault hinv], fun _ => hfault hinv⟩

/-! ## Runs -/

variable (cfg) (s) (bus : ℕ → BusAccess) (env : ℕ → SocEnv)

/-- The registers after `n` cycles. -/
def socAt (n : ℕ) : Soc ipolicy dpolicy :=
  Sync.run (fun t i => Soc.next cfg t i.1 i.2) s (fun k => (bus k, env k)) n

/-- `cpu_mem_ready` in cycle `n`. -/
def readyAt (n : ℕ) : Bool := (socAt cfg s bus env n).cpuMemReady cfg (bus n) (env n)

/-- The request of cycle `n` is that of the cycle before, where it was new or not answered. -/
def carriedAt : ℕ → Bool
  | 0 => false
  | n + 1 => (socAt cfg s bus env n).carries cfg (bus n) (env n) (carriedAt n)

/-- How the processor uses the bus: it does not withdraw a request in its first cycle nor
before it is answered, and leaves the bus, or reads, after an answered write. -/
structure Disciplined : Prop where
  hold : ∀ n, carriedAt cfg s bus env (n + 1) = true → bus (n + 1) = bus n
  write : ∀ n, carriedAt cfg s bus env (n + 1) = false → (bus n).valid = true →
    (bus n).wr = true → (bus (n + 1)).valid = true → (bus (n + 1)).wr = false

variable {cfg s bus env}

theorem valid_of_carriedAt (hd : Disciplined cfg s bus env) (n : ℕ)
    (h : carriedAt cfg s bus env n = true) : (bus n).valid = true := by
  cases n with
  | zero => simp [carriedAt] at h
  | succ n =>
    rw [hd.hold n h]
    simp only [carriedAt, carries, Bool.and_eq_true] at h
    exact h.1

theorem owned_run (hs : s.IsReset) (hd : Disciplined cfg s bus env) (n : ℕ) :
    (socAt cfg s bus env n).Owned cfg (bus n) (carriedAt cfg s bus env n) := by
  induction n with
  | zero => exact hs.owned _
  | succ n ih => exact ih.step (valid_of_carriedAt hd n) (hd.hold n) (hd.write n)

end Soc

/-- **Who answers on the bus.**  In every cycle of every run from reset in which no request is
withdrawn, a request that is not answered in the cycle has a responder, and the access fault
if it lies outside every mapped region, if and only if it is not a write to the flash, a data
write to a line status register, or a data access outside every region with the reboot word
on its data lines. -/
theorem bus_responds_iff {iset iways dset dways : ℕ} {ipolicy : ReplacementPolicy iset iways}
    {dpolicy : ReplacementPolicy dset dways} {cfg : SocConfig} {s : Soc ipolicy dpolicy}
    {bus : ℕ → BusAccess} {env : ℕ → SocEnv} (hs : s.IsReset)
    (hd : Soc.Disciplined cfg s bus env) {n : ℕ} (hv : (bus n).valid = true)
    (hr : Soc.readyAt cfg s bus env n = false) :
    Soc.Responded cfg (Soc.socAt cfg s bus env n) (bus n) (env n) ↔
      (bus n).orphaned cfg = false :=
  (Soc.owned_run hs hd n).responded_iff hv hr

/-- The SoC after reset, with cleared memories in its caches. -/
def Soc.reset : Soc (lruFourWay 6) (lruFourWay 6) where
  bramReady := false
  systemCpuFreqReady := false
  systemMemSizeAccessReady := false
  divReady := false
  gpioReady := false
  sndReady := false
  clintReady := false
  plicReady := false
  accessFaultReady := false
  spiReady := fun _ => false
  uartTxReady := fun _ => false
  txSeen := fun _ => false
  uartLsrRdy := fun _ => false
  uartRxReady := fun _ => false
  flashBusy := false
  flashReady := false
  cache :=
    { icache := ⟨.s0, ⟨fun _ => ⟨fun _ => false, fun _ => 0, fun _ => 0⟩, fun _ => 0⟩⟩
      dcache := ⟨.s0, 0, 0, 0, false, false,
        ⟨fun _ => ⟨fun _ => false, fun _ => 0, fun _ => 0⟩, fun _ => 0⟩⟩ }

theorem Soc.reset_isReset : Soc.reset.IsReset :=
  ⟨rfl, ⟨rfl, rfl, rfl⟩, ⟨rfl, rfl, rfl, rfl⟩, rfl, fun _ => rfl, fun _ => ⟨rfl, rfl, rfl, rfl⟩,
    ⟨rfl, rfl⟩, ⟨rfl, rfl⟩⟩

/-- The board with everything: flash, GPIO, audio, network, display and 32 MiB of SDRAM. -/
def ulx3s : SocConfig := ⟨true, true, true, true, true, 0x2000000#32⟩

/-- An environment in which nothing happens. -/
def quietEnv : SocEnv := ⟨fun _ => true, fun _ => false, false, false, 0, false⟩

/-- A load from `0x40000000` with `wdata` on the data lines, for as long as it takes. -/
def unmappedLoad (wdata : Word) : ℕ → BusAccess := fun _ => ⟨true, 0x40000000#32, 0#4, wdata, false⟩

theorem unmappedLoad_disciplined (wdata : Word) :
    Soc.Disciplined ulx3s Soc.reset (unmappedLoad wdata) (fun _ => quietEnv) :=
  ⟨fun _ _ => rfl, fun _ _ _ _ _ => rfl⟩

/-- With zero on the data lines the load is answered with an access fault. -/
theorem bus_responds_iff_unmapped :
    Soc.Responded ulx3s (Soc.socAt ulx3s Soc.reset (unmappedLoad 0) (fun _ => quietEnv) 0)
      (unmappedLoad 0 0) quietEnv :=
  (bus_responds_iff Soc.reset_isReset (unmappedLoad_disciplined 0) (n := 0) rfl
    (by decide +kernel)).2 (by decide +kernel)

/-- With the reboot word on the data lines nobody answers it and no access fault follows. -/
theorem unmapped_load_is_orphaned :
    Soc.Disciplined ulx3s Soc.reset (unmappedLoad 0x7777#32) (fun _ => quietEnv) ∧
      (unmappedLoad 0x7777#32 0).valid = true ∧
      Soc.readyAt ulx3s Soc.reset (unmappedLoad 0x7777#32) (fun _ => quietEnv) 0 = false ∧
      Soc.engaged ulx3s (Soc.socAt ulx3s Soc.reset (unmappedLoad 0x7777#32) (fun _ => quietEnv) 0)
        (unmappedLoad 0x7777#32 0) quietEnv = false ∧
      (Soc.socAt ulx3s Soc.reset (unmappedLoad 0x7777#32) (fun _ => quietEnv) 1).accessFaultReady
        = false :=
  ⟨unmappedLoad_disciplined _, rfl, by decide +kernel, by decide +kernel, by decide +kernel⟩

end KianRiscV
