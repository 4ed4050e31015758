/-
# What the two sides of the caches see

Both caches of `cache.v` over one RAM, with a request that is held until it is answered.
A data access sees the words of the RAM.  An instruction access, which may be a page-table
read made for a fetch, sees the line of the instruction cache where there is one, and a store
does not change that line: this is `view`.  Over the cycles of a request neither view changes,
except that an answer to an instruction access may replace a line.
-/
import KianRiscV.Cache
import KianRiscV.DcacheTransparency

namespace KianRiscV

open MemoryPort

/-! ## The instruction cache -/

namespace Icache

variable {iset iways : ℕ} {policy : ReplacementPolicy iset iways}

/-- The word an instruction access sees over a RAM with contents `m`. -/
def view (c : Icache policy) (m : BitVec 30 → Word) (t : BitVec 30) : Word :=
  if c.cacheInst.hit t then c.cacheInst.payload t else m t

/-- The request to the RAM. -/
def ramRequest (c : Icache policy) (q : CacheReq) (ramReady : Bool) : CacheReq :=
  ⟨c.ramValid ramReady, q.addr, 0#4, 0#32⟩

/-- What holds of the request and of the RAM in each state. -/
def Phase (c : Icache policy) (r : CacheRam) (q : CacheReq) : Prop :=
  match c.state with
  | .s0 => r.held = none
  | .s1 => q.valid = true ∧ c.cacheHit q.addr = false ∧
      (r.held = none ∨ r.held = some ⟨true, q.addr, 0#4, 0#32⟩)
  | .s2 => q.valid = true ∧ c.cacheHit q.addr = true ∧ r.held = none

variable {c : Icache policy} {r : CacheRam} {q : CacheReq} {a : Answer Word} {addr x : Word}
  {v b : Bool} {m : BitVec 30 → Word} {t : BitVec 30}

theorem view_of_hit (h : c.cacheInst.hit t = true) : c.view m t = c.cacheInst.payload t :=
  if_pos h

theorem view_of_miss (h : c.cacheInst.hit t = false) : c.view m t = m t := by
  rw [view, h]
  rfl

theorem view_congr {c' : Icache policy} (h : c'.cacheInst.way = c.cacheInst.way) :
    c'.view m t = c.view m t := by
  rw [view, view, AssociativeCache.hit_congr h, AssociativeCache.payload_congr h]

theorem next_way_of_not_we (h : c.cacheWe b = false) :
    (c.next addr v b x true).cacheInst.way = c.cacheInst.way := by
  unfold next
  exact AssociativeCache.next_way_of_not_write (by rw [h, Bool.false_and])

theorem cacheWe_of_not_ready (h : c.cpuReady b = false) : c.cacheWe b = false := by
  unfold cpuReady at h
  unfold cacheWe
  cases hs : c.state <;> simp_all

theorem Phase.held (h : c.Phase r q) :
    r.held = none ∨ r.held = some ⟨true, q.addr, 0#4, 0#32⟩ := by
  unfold Phase at h
  split at h
  · exact .inl h
  · exact h.2.2
  · exact .inl h.2.2

theorem Phase.held_of_ready (h : c.Phase r q) (hr : r.ready a = true) :
    r.held = some ⟨true, q.addr, 0#4, 0#32⟩ := by
  rcases h.held with hn | hq
  · rw [Ram.ready_eq_false_of_none hn] at hr
    exact absurd hr (by decide)
  · exact hq

theorem Phase.valid (h : c.Phase r q) (hs : c.state ≠ .s0) : q.valid = true := by
  unfold Phase at h
  split at h
  · exact absurd ‹_› hs
  · exact h.1
  · exact h.1

/-- The RAM is only read. -/
theorem Phase.next_content (h : c.Phase r q) (p : CacheReq) :
    (r.next wordPort a p).content = r.content := by
  rcases h.held with hn | hq
  · exact Ram.next_content_of_not_ready (Ram.ready_eq_false_of_none hn)
  · exact Ram.next_content_of_read hq rfl

/-- Without a request, or with an answer, `S0` follows. -/
theorem Phase.next_idle (h : c.Phase r q)
    (hq : q.valid = false ∨ c.cpuReady (r.ready a) = true) :
    (c.next q.addr q.valid (r.ready a) x true).state = .s0 ∧
      (r.next wordPort a (c.ramRequest q (r.ready a))).held = none := by
  have hstate : (c.next q.addr q.valid (r.ready a) x true).state =
      c.nextState q.addr q.valid (r.ready a) := rfl
  rw [hstate]
  cases hs : c.state with
  | s0 =>
    have hv : q.valid = false := by simpa [cpuReady, hs] using hq
    exact ⟨by simp [nextState, hs, fetchValid, hv],
      Ram.next_held_of_not_valid (by simp [ramRequest, ramValid, hs])⟩
  | s1 =>
    have hr : r.ready a = true := by simpa [cpuReady, hs, h.valid (by simp [hs])] using hq
    exact ⟨by simp [nextState, hs, hr], Ram.next_held_of_ready hr⟩
  | s2 =>
    exact ⟨by simp [nextState, hs],
      Ram.next_held_of_not_valid (by simp [ramRequest, ramValid, hs])⟩

/-- A request that is not answered is looked up or waits for the RAM. -/
theorem Phase.next_wait (h : c.Phase r q) (hv : q.valid = true)
    (hr : c.cpuReady (r.ready a) = false) :
    (c.next q.addr q.valid (r.ready a) x true).Phase
        (r.next wordPort a (c.ramRequest q (r.ready a))) q ∧
      (c.next q.addr q.valid (r.ready a) x true).state ≠ .s0 := by
  have hstate : (c.next q.addr q.valid (r.ready a) x true).state =
      c.nextState q.addr q.valid (r.ready a) := rfl
  have hhit : (c.next q.addr q.valid (r.ready a) x true).cacheHit q.addr = c.cacheHit q.addr :=
    AssociativeCache.hit_congr (next_way_of_not_we (cacheWe_of_not_ready hr))
  -- not answered: looked up in this cycle, or in `S1` without an answer of the RAM
  cases hs : c.state with
  | s0 =>
    have hnone : (r.next wordPort a (c.ramRequest q (r.ready a))).held = none :=
      Ram.next_held_of_not_valid (by simp [ramRequest, ramValid, hs])
    cases hc : c.cacheHit q.addr with
    | true =>
      have hn : c.nextState q.addr q.valid (r.ready a) = .s2 := by
        simp [nextState, hs, fetchValid, hv, hr, hc]
      simp only [Phase, hstate, hn]
      exact ⟨⟨hv, hhit.trans hc, hnone⟩, by decide⟩
    | false =>
      have hn : c.nextState q.addr q.valid (r.ready a) = .s1 := by
        simp [nextState, hs, fetchValid, hv, hr, hc]
      simp only [Phase, hstate, hn]
      exact ⟨⟨hv, hhit.trans hc, .inl hnone⟩, by decide⟩
  | s1 =>
    have hr' : r.ready a = false := by simpa [cpuReady, hs] using hr
    have hn : c.nextState q.addr q.valid (r.ready a) = .s1 := by simp [nextState, hs, hr']
    have hreq : c.ramRequest q (r.ready a) = ⟨true, q.addr, 0#4, 0#32⟩ := by
      simp [ramRequest, ramValid, hs, hr']
    simp only [Phase, hs] at h
    simp only [Phase, hstate, hn]
    refine ⟨⟨hv, hhit.trans h.2.1, ?_⟩, by decide⟩
    rw [hreq]
    exact Ram.next_held_of_same h.2.2
  | s2 => simp [cpuReady, hs] at hr

/-- An answer is that of the line or, after a miss, of the RAM. -/
theorem Phase.read (h : c.Phase r q) (hr : c.cpuReady (r.ready a) = true) :
    q.valid = true ∧ c.cpuDout q.addr (r.rdata wordPort a) =
      c.view r.content (Dcache.fullTag q.addr) := by
  cases hs : c.state with
  | s0 => simp [cpuReady, hs] at hr
  | s1 =>
    have hr' : r.ready a = true := by simpa [cpuReady, hs] using hr
    have hq := h.held_of_ready hr'
    simp only [Phase, hs] at h
    refine ⟨h.1, ?_⟩
    rw [view_of_miss h.2.1, cpuDout, hs, if_neg (by decide), Ram.rdata_of_ready hq hr' rfl]
    rfl
  | s2 =>
    simp only [Phase, hs] at h
    refine ⟨h.1, ?_⟩
    rw [view_of_hit h.2.1, cpuDout, hs, if_pos rfl]

/-- Without an answer the view stays. -/
theorem Phase.view_next (h : c.Phase r q) (hr : c.cpuReady (r.ready a) = false) (p : CacheReq) :
    (c.next q.addr q.valid (r.ready a) x true).view (r.next wordPort a p).content t =
      c.view r.content t := by
  rw [view_congr (next_way_of_not_we (cacheWe_of_not_ready hr)), h.next_content]

/-- What is filled in is the word of the RAM. -/
theorem Phase.rdata_of_we (h : c.Phase r q) (hw : c.cacheWe (r.ready a) = true) :
    r.rdata wordPort a = r.content (Dcache.fullTag q.addr) := by
  obtain ⟨-, hr⟩ : c.state = .s1 ∧ r.ready a = true := by simpa [cacheWe] using hw
  rw [Ram.rdata_of_ready (h.held_of_ready hr) hr rfl]
  rfl

/-- A line is filled after a miss, with the word of the RAM. -/
theorem Phase.fill (h : c.Phase r q) (hw : c.cacheWe (r.ready a) = true) :
    c.cacheInst.hit (Dcache.fullTag q.addr) = false ∧
      (c.next q.addr q.valid (r.ready a) (r.rdata wordPort a) true).cacheInst =
        c.cacheInst.next true (Dcache.fullTag q.addr) true true
          (r.content (Dcache.fullTag q.addr)) := by
  have hx := h.rdata_of_we hw
  obtain ⟨hs, hr⟩ : c.state = .s1 ∧ r.ready a = true := by simpa [cacheWe] using hw
  simp only [Phase, hs] at h
  exact ⟨h.2.1, by simp [next, cacheWe, cacheValid, hs, hr, hx]⟩

/-- With an answer the view stays where it was read, although another line may have gone. -/
theorem Phase.view_next_read (h : c.Phase r q) (hr : c.cpuReady (r.ready a) = true)
    (p : CacheReq) :
    (c.next q.addr q.valid (r.ready a) (r.rdata wordPort a) true).view
        (r.next wordPort a p).content (Dcache.fullTag q.addr) =
      c.view r.content (Dcache.fullTag q.addr) := by
  rw [h.next_content]
  cases hs : c.state with
  | s0 => simp [cpuReady, hs] at hr
  | s1 =>
    have hr' : r.ready a = true := by simpa [cpuReady, hs] using hr
    obtain ⟨hmiss, hn⟩ := h.fill (a := a) (by simp [cacheWe, hs, hr'])
    obtain ⟨hhit, hpay⟩ := AssociativeCache.lookup_next_write
      (r.content (Dcache.fullTag q.addr)) hmiss
    rw [view_of_miss hmiss, view, hn, hhit, hpay]
    rfl
  | s2 => exact view_congr (next_way_of_not_we (by simp [cacheWe, hs]))

/-- Not selected, the cache keeps still. -/
theorem next_unselected (hs : c.state = .s0) :
    (c.next addr false false x true).state = .s0 ∧
      (c.next addr false false x true).cacheInst.way = c.cacheInst.way :=
  ⟨by simp [next, nextState, hs, fetchValid], next_way_of_not_we (by simp [cacheWe, hs])⟩

end Icache

/-! ## The data cache -/

namespace Dcache

variable {dset dways : ℕ} {policy : ReplacementPolicy dset dways} {d : Dcache policy}
  {r : CacheRam} {q : CacheReq} {a : Answer Word} {x : Word}

theorem Phase.valid (h : d.Phase r q) (hs : d.state ≠ .s0) : q.valid = true := by
  unfold Phase at h
  split at h
  · exact absurd ‹_› hs
  · exact h.1.valid
  · exact h.1.valid
  · exact h.1.valid

/-- Without a request, or with an answer, `S0` follows. -/
theorem Phase.next_idle (h : d.Phase r q)
    (hq : q.valid = false ∨ d.cpuReady (r.ready a) = true) :
    (d.next q (r.ready a) x true).state = .s0 ∧
      (r.next wordPort a (d.ramRequest q (r.ready a))).held = none := by
  have hstate : (d.next q (r.ready a) x true).state = d.nextState q (r.ready a) := rfl
  rw [hstate]
  cases hs : d.state with
  | s0 =>
    have hv : q.valid = false := by simpa [cpuReady, hs] using hq
    exact ⟨by simp [nextState, hs, fetchValid, hv],
      Ram.next_held_of_not_valid (by simp [ramRequest, hs])⟩
  | s1 =>
    have hr : r.ready a = true := by simpa [cpuReady, hs, h.valid (by simp [hs])] using hq
    exact ⟨by simp [nextState, hs, hr], Ram.next_held_of_ready hr⟩
  | s2 =>
    exact ⟨by simp [nextState, hs], Ram.next_held_of_not_valid (by simp [ramRequest, hs])⟩
  | s3 =>
    have hr : r.ready a = true := by simpa [cpuReady, hs, h.valid (by simp [hs])] using hq
    exact ⟨by simp [nextState, hs, hr], Ram.next_held_of_ready hr⟩

/-- A request that is not answered is looked up or waits for the RAM. -/
theorem next_state_of_wait (hv : q.valid = true) (hr : d.cpuReady (r.ready a) = false) :
    (d.next q (r.ready a) x true).state ≠ .s0 := by
  cases hs : d.state with
  | s0 =>
    rcases next_state_of_lookup (b := r.ready a) (x := x) hs hv with h | h | h <;> rw [h] <;>
      decide
  | s1 =>
    have hr' : r.ready a = false := by simpa [cpuReady, hs] using hr
    simp [next, nextState, hs, hr']
  | s2 => simp [cpuReady, hs] at hr
  | s3 =>
    have hr' : r.ready a = false := by simpa [cpuReady, hs] using hr
    simp [next, nextState, hs, hr']

/-- Not selected, the cache keeps still. -/
theorem next_unselected (hs : d.state = .s0) (hv : q.valid = false) :
    (d.next q false x true).state = .s0 ∧
      (d.next q false x true).cacheInst.lines = d.cacheInst.lines :=
  ⟨by simp [next, nextState, hs, fetchValid, hv], next_lines_of_not_we (by simp [cacheWe, hs])⟩

end Dcache

/-! ## Both caches -/

namespace Cache

variable {iset iways dset dways : ℕ} {ipolicy : ReplacementPolicy iset iways}
  {dpolicy : ReplacementPolicy dset dways}

/-- The word an access sees over a RAM with contents `m`. -/
def view (c : Cache ipolicy dpolicy) (isInstruction : Bool) (m : BitVec 30 → Word)
    (t : BitVec 30) : Word :=
  if isInstruction then c.icache.view m t else m t

/-- One of the caches works on a request. -/
def busy (c : Cache ipolicy dpolicy) : Bool := c.icache.state != .s0 || c.dcache.state != .s0

/-- The selected cache works on the request, the other one rests, and the lines of the data
cache agree with the RAM. -/
structure Serves (c : Cache ipolicy dpolicy) (r : CacheRam) (isInstruction : Bool)
    (q : CacheReq) : Prop where
  icache : if isInstruction then c.icache.Phase r q else c.icache.state = .s0
  dcache : if isInstruction then c.dcache.state = .s0 else c.dcache.Phase r q
  coherent : c.dcache.Coherent r

variable {c : Cache ipolicy dpolicy} {r : CacheRam} {isInstruction isInstruction' : Bool}
  {q q' : CacheReq} {a : Answer Word} {b resetn : Bool} {x : Word} {t : BitVec 30}

/-- Both caches at rest serve whatever comes. -/
theorem serves_of_rest (hi : c.icache.state = .s0) (hd : c.dcache.state = .s0)
    (hr : r.held = none) (hc : c.dcache.Coherent r) : c.Serves r isInstruction q := by
  refine ⟨?_, ?_, hc⟩
  · split
    · simp only [Icache.Phase, hi]
      exact hr
    · exact hi
  · split
    · exact hd
    · simp only [Dcache.Phase, hd]
      exact hr

/-- That `soc.v` takes the request back in the cycle of its answer makes no difference. -/
theorem next_guard :
    c.next isInstruction ⟨q.valid && !c.cpuReady isInstruction b, q.addr, q.mask, q.data⟩ b x
      resetn = c.next isInstruction q b x resetn := by
  cases isInstruction with
  | true =>
    have hf : c.icache.fetchValid (q.valid && !c.icache.cpuReady b) b =
        c.icache.fetchValid q.valid b := by
      cases q.valid <;> cases hr : c.icache.cpuReady b <;> simp [Icache.fetchValid, hr]
    simp only [next, cpuReady, if_true, dcacheReq, Icache.next, Icache.nextState,
      Icache.cacheValid, hf]
  | false =>
    have hf : c.dcache.fetchValid ⟨q.valid && !c.dcache.cpuReady b, q.addr, q.mask, q.data⟩ =
        c.dcache.fetchValid q := by
      by_cases hs : c.dcache.state = .s0
      · simp [Dcache.fetchValid, Dcache.cpuReady_of_s0 hs]
      · have hl : c.dcache.inLookup = false := beq_eq_false_iff_ne.2 hs
        simp [Dcache.fetchValid, hl]
    simp only [next, cpuReady, Bool.false_eq_true, if_false, dcacheReq, Dcache.next,
      Dcache.nextState, Dcache.cacheValid, hf]
    rfl

/-! ### Answers -/

theorem Serves.valid (h : c.Serves r isInstruction q) (hb : c.busy = true) : q.valid = true := by
  cases isInstruction with
  | true =>
    apply Icache.Phase.valid h.icache
    intro hs
    have hd : c.dcache.state = .s0 := h.dcache
    simp [busy, hs, hd] at hb
  | false =>
    apply Dcache.Phase.valid h.dcache
    intro hs
    have hi : c.icache.state = .s0 := h.icache
    simp [busy, hs, hi] at hb

/-- Only a busy cache answers. -/
theorem busy_of_ready (hr : c.cpuReady isInstruction b = true) : c.busy = true := by
  unfold cpuReady at hr
  split at hr
  · have hs : c.icache.state ≠ .s0 := fun hs => by simp [Icache.cpuReady, hs] at hr
    simp [busy, hs]
  · have hs : c.dcache.state ≠ .s0 := fun hs => by simp [Dcache.cpuReady, hs] at hr
    simp [busy, hs]

/-- The answer to a read is the word the access sees. -/
theorem Serves.read (h : c.Serves r isInstruction q)
    (hr : c.cpuReady isInstruction (r.ready a) = true) (hm : q.mask = 0#4) :
    c.cpuDout isInstruction q (r.rdata wordPort a) =
      c.view isInstruction r.content (Dcache.fullTag q.addr) := by
  cases isInstruction with
  | true => exact (Icache.Phase.read h.icache hr).2
  | false => exact (Dcache.faithful h.coherent h.dcache).read hr hm

/-- The contents change by the data accesses answered. -/
theorem Serves.next_content (h : c.Serves r isInstruction q) (p : CacheReq) :
    (r.next wordPort a p).content =
      if !isInstruction && c.cpuReady isInstruction (r.ready a) then wordPort.write r.content q
      else r.content := by
  cases isInstruction with
  | true => exact Icache.Phase.next_content h.icache p
  | false => exact (Dcache.faithful h.coherent h.dcache).next_content p

/-- The address that the caches show to the RAM is that of the request. -/
theorem Serves.ramRequest_addr (h : c.Serves r isInstruction q) (p : CacheReq)
    (hp : p.addr = q.addr) : (c.ramRequest isInstruction p b).addr = q.addr := by
  cases isInstruction with
  | true => exact hp
  | false =>
    show c.dcache.addrQ p = q.addr
    have hd : c.dcache.Phase r q := h.dcache
    unfold Dcache.addrQ Dcache.inLookup
    cases hs : c.dcache.state with
    | s0 => exact hp
    | s1 => simp only [Dcache.Phase, hs] at hd; exact hd.1.addr
    | s2 => simp only [Dcache.Phase, hs] at hd; exact hd.1.addr
    | s3 => simp only [Dcache.Phase, hs] at hd; exact hd.1.addr

/-! ### The clock edge -/

/-- Coherence over an edge of the caches. -/
theorem Serves.next_coherent (h : c.Serves r isInstruction q) (p : CacheReq) :
    (c.next isInstruction q (r.ready a) (r.rdata wordPort a) true).dcache.Coherent
      (r.next wordPort a p) := by
  cases isInstruction with
  | true =>
    have hlines := (Dcache.next_unselected (q := dcacheReq true q) (x := 0#32) h.dcache rfl).2
    have hcontent : (r.next wordPort a p).content = r.content :=
      Icache.Phase.next_content h.icache p
    constructor
    · rw [show (c.next true q (r.ready a) (r.rdata wordPort a) true).dcache.cacheInst.lines
        = c.dcache.cacheInst.lines from hlines]
      exact h.coherent.unique
    · rw [show (c.next true q (r.ready a) (r.rdata wordPort a) true).dcache.cacheInst.lines
        = c.dcache.cacheInst.lines from hlines, hcontent]
      exact h.coherent.agrees
  | false => exact h.coherent.step h.dcache p

/-- After an answer, or without a request, both caches rest. -/
theorem Serves.next_idle (h : c.Serves r isInstruction q)
    (hq : q.valid = false ∨ c.cpuReady isInstruction (r.ready a) = true) :
    (c.next isInstruction q (r.ready a) x true).icache.state = .s0 ∧
      (c.next isInstruction q (r.ready a) x true).dcache.state = .s0 ∧
      (r.next wordPort a (c.ramRequest isInstruction q (r.ready a))).held = none := by
  cases isInstruction with
  | true =>
    obtain ⟨hi, hr⟩ := Icache.Phase.next_idle (x := x) h.icache hq
    exact ⟨hi, (Dcache.next_unselected h.dcache rfl).1, hr⟩
  | false =>
    obtain ⟨hd, hr⟩ := Dcache.Phase.next_idle (x := x) h.dcache hq
    exact ⟨(Icache.next_unselected h.icache).1, hd, hr⟩

/-- **The caches go on serving** a requester that holds its request until the answer. -/
theorem Serves.next (h : c.Serves r isInstruction q)
    (hq : q.valid = true → c.cpuReady isInstruction (r.ready a) = false →
      q' = q ∧ isInstruction' = isInstruction) :
    (c.next isInstruction q (r.ready a) (r.rdata wordPort a) true).Serves
      (r.next wordPort a (c.ramRequest isInstruction q (r.ready a))) isInstruction' q' := by
  by_cases hidle : q.valid = false ∨ c.cpuReady isInstruction (r.ready a) = true
  · obtain ⟨hi, hd, hr⟩ := h.next_idle (x := r.rdata wordPort a) hidle
    exact serves_of_rest hi hd hr (h.next_coherent _)
  · obtain ⟨hv, hr⟩ : q.valid = true ∧ c.cpuReady isInstruction (r.ready a) = false := by
      simpa using hidle
    obtain ⟨rfl, rfl⟩ := hq hv hr
    refine ⟨?_, ?_, h.next_coherent _⟩
    · cases isInstruction' with
      | true => exact (Icache.Phase.next_wait h.icache hv hr).1
      | false => exact (Icache.next_unselected h.icache).1
    · cases isInstruction' with
      | true => exact (Dcache.next_unselected h.dcache rfl).1
      | false => exact Dcache.Phase.step h.dcache fun _ _ => rfl

/-- A cache is busy in the next cycle if it has a request that it does not answer. -/
theorem Serves.busy_next (h : c.Serves r isInstruction q) :
    (c.next isInstruction q (r.ready a) x true).busy =
      (q.valid && !c.cpuReady isInstruction (r.ready a)) := by
  by_cases hidle : q.valid = false ∨ c.cpuReady isInstruction (r.ready a) = true
  · obtain ⟨hi, hd, -⟩ := h.next_idle (x := x) hidle
    have hno : (q.valid && !c.cpuReady isInstruction (r.ready a)) = false := by
      rcases hidle with hv | hr <;> simp [*]
    rw [hno, busy, hi, hd]
    rfl
  · obtain ⟨hv, hr⟩ : q.valid = true ∧ c.cpuReady isInstruction (r.ready a) = false := by
      simpa using hidle
    rw [hv, hr]
    cases isInstruction with
    | true =>
      have hs := (Icache.Phase.next_wait (x := x) h.icache hv hr).2
      simp only [busy, Cache.next, if_true]
      simpa using .inl hs
    | false =>
      have hs := Dcache.next_state_of_wait (x := x) hv hr
      simp only [busy, Cache.next, Bool.false_eq_true, if_false]
      simpa using .inr hs

/-- Nothing survives a reset without a request. -/
theorem Serves.next_reset (h : c.Serves r isInstruction q) (hv : q.valid = false) :
    (c.next isInstruction q (r.ready a) x false).Serves
        (r.next wordPort a (c.ramRequest isInstruction q (r.ready a))) isInstruction' q' ∧
      (c.next isInstruction q (r.ready a) x false).busy = false :=
  ⟨serves_of_rest rfl rfl (h.next_idle (x := x) (.inl hv)).2.2
    (Dcache.IsReset.coherent ⟨_, _, _, _, rfl⟩ _), rfl⟩

/-- The lines of the instruction cache stay sound if the word of the request in the RAM is good. -/
theorem Serves.icache_sound (h : c.Serves r isInstruction q) {good : BitVec 30 → Word → Prop}
    (hgood : good (Dcache.fullTag q.addr) (r.content (Dcache.fullTag q.addr)))
    (hs : c.icache.cacheInst.Sound good) :
    (c.next isInstruction q (r.ready a) (r.rdata wordPort a) resetn).icache.cacheInst.Sound good := by
  refine hs.next resetn fun hw => ?_
  obtain ⟨hwe, -⟩ := Bool.and_eq_true_iff.1 hw
  cases isInstruction with
  | true =>
    have hdata := Icache.Phase.rdata_of_we h.icache hwe
    exact hdata ▸ hgood
  | false => simp [Icache.cacheWe] at hwe

/-- Without an answer the view stays. -/
theorem Serves.view_next (h : c.Serves r isInstruction q)
    (hr : c.cpuReady isInstruction (r.ready a) = false) (p : CacheReq) :
    (c.next isInstruction q (r.ready a) x true).view isInstruction
        (r.next wordPort a p).content t = c.view isInstruction r.content t := by
  cases isInstruction with
  | true => exact Icache.Phase.view_next h.icache hr p
  | false =>
    have hc := h.next_content (a := a) p
    rw [hr] at hc
    exact congrFun hc t

/-- With an answer to a read the view stays where it was read. -/
theorem Serves.view_next_read (h : c.Serves r isInstruction q)
    (hr : c.cpuReady isInstruction (r.ready a) = true) (hm : q.mask = 0#4) (p : CacheReq) :
    (c.next isInstruction q (r.ready a) (r.rdata wordPort a) true).view isInstruction
        (r.next wordPort a p).content (Dcache.fullTag q.addr) =
      c.view isInstruction r.content (Dcache.fullTag q.addr) := by
  cases isInstruction with
  | true => exact Icache.Phase.view_next_read h.icache hr p
  | false =>
    have hc := h.next_content (a := a) p
    rw [hr] at hc
    have hw : wordPort.write r.content q = r.content := Format.write_of_read hm
    exact congrFun (hc.trans hw) _

end Cache

end KianRiscV
