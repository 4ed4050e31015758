/-
# The requests of the caches to the RAM

The port of `cache.v` to the RAM, for a requester that holds its request until it is answered and
resets the caches while it has none.  A cache that waits for the RAM presents the request at its
own port until the RAM is ready; then it rests for a cycle.  In the cycle of the answer a read is
not presented any more, and a write still is.
-/
import KianRiscV.CacheView

namespace KianRiscV

namespace Cache

variable {iset iways dset dways : ℕ} {ipolicy : ReplacementPolicy iset iways} {dpolicy : ReplacementPolicy dset dways}

/-- The request a cache works on is the one at its port. -/
structure Holds (c : Cache ipolicy dpolicy) (isInstruction : Bool) (q : CacheReq) : Prop where
  icache : c.icache.state ≠ .s0 → q.valid = true ∧ isInstruction = true
  dcache : c.dcache.state ≠ .s0 → c.dcache.Latched q ∧ isInstruction = false
  read : c.dcache.state = .s1 ∨ c.dcache.state = .s2 → q.mask = 0#4
  write : c.dcache.state = .s3 → q.mask ≠ 0#4

variable {c : Cache ipolicy dpolicy} {isInstruction isInstruction' b resetn : Bool}
  {q q' : CacheReq} {x : Word}

theorem holds_of_rest (hi : c.icache.state = .s0) (hd : c.dcache.state = .s0) :
    c.Holds isInstruction q where
  icache h := absurd hi h
  dcache h := absurd hd h
  read h := by simp [hd] at h
  write h := by simp [hd] at h

/-- The instruction cache works on, or takes up, a fetch that is not answered. -/
theorem Holds.icache_next (h : c.Holds true q)
    (hs : (c.icache.next q.addr q.valid b x true).state ≠ .s0) :
    q.valid = true ∧ c.icache.cpuReady b = false := by
  have hs' : c.icache.nextState q.addr q.valid b ≠ .s0 := hs
  cases hst : c.icache.state with
  | s0 =>
    refine ⟨?_, by simp [Icache.cpuReady, hst]⟩
    by_contra hv
    simp [Icache.nextState, hst, Icache.fetchValid, hv] at hs'
  | s1 =>
    refine ⟨(h.icache (by simp [hst])).1, ?_⟩
    by_contra hb
    have hb' : b = true := by simpa [Icache.cpuReady, hst] using hb
    simp [Icache.nextState, hst, hb'] at hs'
  | s2 => simp [Icache.nextState, hst] at hs'

/-- So does the data cache with a data access, which it latches. -/
theorem Holds.dcache_next (h : c.Holds false q) (hs : (c.dcache.next q b x true).state ≠ .s0) :
    (q.valid = true ∧ c.dcache.cpuReady b = false) ∧ (c.dcache.next q b x true).Latched q ∧
      ((c.dcache.next q b x true).state = .s1 ∨ (c.dcache.next q b x true).state = .s2 →
        q.mask = 0#4) ∧
      ((c.dcache.next q b x true).state = .s3 → q.mask ≠ 0#4) := by
  have hstate : (c.dcache.next q b x true).state = c.dcache.nextState q b := rfl
  rw [hstate] at hs ⊢
  -- busy afterwards: it has just begun, or its RAM request is not answered yet
  cases hst : c.dcache.state with
  | s0 =>
    have hv : q.valid = true := by
      by_contra hv
      simp [Dcache.nextState, hst, Dcache.fetchValid, hv] at hs
    have hmask : c.dcache.nextState q b =
        if q.mask = 0#4 then (if c.dcache.cacheHit q then .s2 else .s1) else .s3 := by
      cases hh : c.dcache.cacheHit q <;> by_cases hm : q.mask = 0#4 <;>
        simp [Dcache.nextState, hst, Dcache.fetchValid, hv, Dcache.inLookup, Dcache.wmaskQ, hh, hm]
    refine ⟨⟨hv, by simp [Dcache.cpuReady, hst]⟩, Dcache.latched_of_lookup hst hv, ?_, ?_⟩
    · intro h1
      by_contra hm
      simp [hmask, hm] at h1
    · intro h3 hm
      cases hh : c.dcache.cacheHit q <;> simp [hmask, hm, hh] at h3
  | s2 => simp [Dcache.nextState, hst] at hs
  | s1 =>
    have hb : b = false := by
      by_contra hb
      simp [Dcache.nextState, hst, hb] at hs
    have hl := (h.dcache (by simp [hst])).1
    exact ⟨⟨hl.valid, by simp [Dcache.cpuReady, hst, hb]⟩,
      hl.next (by simp [hst]) (by simp [Dcache.cacheWe, hst, hb]), fun _ => h.read (.inl hst),
      by simp [Dcache.nextState, hst, hb]⟩
  | s3 =>
    have hb : b = false := by
      by_contra hb
      simp [Dcache.nextState, hst, hb] at hs
    have hl := (h.dcache (by simp [hst])).1
    exact ⟨⟨hl.valid, by simp [Dcache.cpuReady, hst, hb]⟩,
      hl.next (by simp [hst]) (by simp [Dcache.cacheWe, hst, hb]),
      by simp [Dcache.nextState, hst, hb], fun _ => h.write hst⟩

/-- The data cache rests during a fetch. -/
theorem Holds.dcache_rests (h : c.Holds true q) :
    c.dcache.state = .s0 ∧ (c.next true q b x true).dcache.state = .s0 := by
  have hd : c.dcache.state = .s0 := by
    by_contra hne
    exact Bool.noConfusion (h.dcache hne).2
  refine ⟨hd, ?_⟩
  simp [Cache.next, Dcache.next, Dcache.nextState, hd, Dcache.fetchValid, dcacheReq]

/-- The instruction cache rests during a data access. -/
theorem Holds.icache_rests (h : c.Holds false q) :
    c.icache.state = .s0 ∧ (c.next false q b x true).icache.state = .s0 := by
  have hi : c.icache.state = .s0 := by
    by_contra hne
    exact Bool.noConfusion (h.icache hne).2
  refine ⟨hi, ?_⟩
  simp [Cache.next, Icache.next, Icache.nextState, hi, Icache.fetchValid]

/-- One edge, under a requester that holds its request until it is answered, and resets the
caches without one. -/
theorem Holds.next (h : c.Holds isInstruction q)
    (hheld : q.valid = true → c.cpuReady isInstruction b = false →
      q' = q ∧ isInstruction' = isInstruction)
    (hreset : resetn = false → q.valid = false) :
    (c.next isInstruction q b x resetn).Holds isInstruction' q' := by
  cases hrn : resetn with
  | false =>
    exact holds_of_rest (by simp [Cache.next, Icache.next]) (by simp [Cache.next, Dcache.next])
  | true =>
    cases hi : isInstruction with
    | true =>
      subst hi
      have hd := (h.dcache_rests (b := b) (x := x)).2
      by_cases hs : (c.next true q b x true).icache.state = .s0
      · exact holds_of_rest hs hd
      · obtain ⟨hv, hr⟩ := h.icache_next hs
        obtain ⟨rfl, rfl⟩ := hheld hv hr
        exact ⟨fun _ => ⟨hv, rfl⟩, fun hno => absurd hd hno, fun hno => by simp [hd] at hno,
          fun hno => by simp [hd] at hno⟩
    | false =>
      subst hi
      have hi := (h.icache_rests (b := b) (x := x)).2
      by_cases hs : (c.next false q b x true).dcache.state = .s0
      · exact holds_of_rest hi hs
      · obtain ⟨⟨hv, hr⟩, hl, h1, h3⟩ := h.dcache_next hs
        obtain ⟨rfl, rfl⟩ := hheld hv hr
        exact ⟨fun hno => absurd hi hno, fun _ => ⟨hl, rfl⟩, h1, h3⟩

/-! ## The requests to the RAM -/

/-- The request to the RAM, which a read takes back in the cycle of its answer. -/
def request (c : Cache ipolicy dpolicy) (isInstruction : Bool) (q : CacheReq) : CacheReq :=
  c.ramRequest isInstruction q false

/-- What waits for the RAM. -/
theorem request_valid_iff : (c.request isInstruction q).valid = true ↔
    if isInstruction then c.icache.state = .s1 else c.dcache.Waits := by
  cases isInstruction with
  | true => simp [request, ramRequest, Icache.ramValid]
  | false =>
    simp only [request, ramRequest, Bool.false_eq_true, if_false, Dcache.Waits]
    cases hs : c.dcache.state <;> simp [Dcache.ramRequest, hs]

/-- While it waits, the cache is ready when the RAM is. -/
theorem cpuReady_of_request (h : (c.request isInstruction q).valid = true) :
    c.cpuReady isInstruction b = b := by
  rw [request_valid_iff] at h
  cases isInstruction with
  | true =>
    have hs : c.icache.state = .s1 := h
    simp [cpuReady, Icache.cpuReady, hs]
  | false =>
    have hw : c.dcache.Waits := h
    exact hw.cpuReady b

theorem Holds.valid_of_request (h : c.Holds isInstruction q)
    (hr : (c.request isInstruction q).valid = true) : q.valid = true := by
  rw [request_valid_iff] at hr
  cases isInstruction with
  | true =>
    have hs : c.icache.state = .s1 := hr
    exact (h.icache (by simp [hs])).1
  | false =>
    have hw : c.dcache.Waits := hr
    exact (h.dcache (by rcases hw with hw | hw <;> simp [hw])).1.valid

/-- The request of a data access that waits is the access itself. -/
theorem Holds.request_eq (h : c.Holds false q) (hw : c.dcache.Waits) : c.request false q = q := by
  have hl := (h.dcache (by rcases hw with hw | hw <;> simp [hw])).1
  rcases hw with hs | hs
  · exact hl.ramRequest_s1 hs (h.read (.inl hs))
  · exact hl.ramRequest_s3 hs false

/-- A request that is not answered stays. -/
theorem Holds.request_next (h : c.Holds isInstruction q)
    (hr : (c.request isInstruction q).valid = true) :
    (c.next isInstruction q false x true).request isInstruction q =
      c.request isInstruction q := by
  have h' : (c.next isInstruction q false x true).Holds isInstruction q :=
    h.next (fun _ _ => ⟨rfl, rfl⟩) (fun hno => Bool.noConfusion hno)
  rw [request_valid_iff] at hr
  cases isInstruction with
  | true =>
    have hs : c.icache.state = .s1 := hr
    simp [request, ramRequest, Icache.ramValid, Cache.next, Icache.next, Icache.nextState, hs]
  | false =>
    have hw : c.dcache.Waits := hr
    have hw' : (c.next false q false x true).dcache.Waits := hw.next
    rw [h.request_eq hw, h'.request_eq hw']

/-- A read is taken back in the cycle of its answer. -/
theorem Holds.ramRequest_read (h : c.Holds isInstruction q)
    (hm : isInstruction = false → q.valid = true → q.mask = 0#4) :
    c.ramRequest isInstruction q b =
      { c.request isInstruction q with valid := (c.request isInstruction q).valid && !b } ∧
      (c.request isInstruction q).mask = 0#4 := by
  cases isInstruction with
  | true => simp [request, ramRequest, Icache.ramValid]
  | false =>
    have hne : c.dcache.state ≠ .s3 := fun hs =>
      h.write hs (hm rfl (h.dcache (by simp [hs])).1.valid)
    simp only [request, ramRequest, Bool.false_eq_true, if_false]
    cases hs : c.dcache.state with
    | s3 => exact absurd hs hne
    | _ => simp [Dcache.ramRequest, hs]

/-- A write is not. -/
theorem Holds.ramRequest_write (h : c.Holds false q) (hs : c.dcache.state = .s3) :
    c.ramRequest false q b = q :=
  (h.dcache (by simp [hs])).1.ramRequest_s3 hs b

end Cache

end KianRiscV
