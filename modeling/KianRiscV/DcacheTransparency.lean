/-
# The data cache is transparent

Between a processor that holds its requests and a RAM of arbitrary latency, `dcache` answers
every read with the word of the RAM and passes every write on exactly once.  The invariant
is that the lines agree with the RAM in every cycle (`Coherent`) and that the state of the
controller says which request the RAM works on (`Phase`).
-/
import KianRiscV.Dcache

namespace KianRiscV

namespace Dcache

open MemoryPort

variable {setWidth ways : ℕ}

/-! ## The invariant -/

variable {policy : ReplacementPolicy setWidth ways}

/-- The request has been latched, with what its lookup found. -/
structure Latched (d : Dcache policy) (q : CacheReq) : Prop where
  valid : q.valid = true
  addr : d.reqAddr = q.addr
  wdata : d.reqWdata = q.data
  wmask : d.reqWmask = q.mask
  fullMask : d.reqFullMask = (q.mask == BitVec.allOnes 4)
  selIsHit : d.reqSelIsHit = d.cacheInst.hit (fullTag q.addr)

/-- What holds of the request and of the RAM in each state. -/
def Phase (d : Dcache policy) (r : CacheRam) (q : CacheReq) : Prop :=
  match d.state with
  | .s0 => r.held = none
  | .s1 => Latched d q ∧ q.mask = 0#4 ∧ (r.held = none ∨ r.held = some q)
  | .s2 => Latched d q ∧ q.mask = 0#4 ∧ d.cacheInst.hit (fullTag q.addr) = true ∧ r.held = none
  | .s3 => Latched d q ∧ q.mask ≠ 0#4 ∧ (r.held = none ∨ r.held = some q)

/-- The lines are unique and agree with the RAM. -/
structure Coherent (d : Dcache policy) (r : CacheRam) : Prop where
  unique : CacheLines.Unique (AssociativeCache.keying setWidth 30) d.cacheInst.lines
  agrees : CacheLines.Agrees (AssociativeCache.keying setWidth 30) d.cacheInst.lines r.content

variable {d : Dcache policy} {r : CacheRam} {q q' : CacheReq} {a : Answer Word}

theorem Latched.addrQ (h : Latched d q) : d.addrQ q = q.addr := by
  unfold Dcache.addrQ
  split
  · rfl
  · exact h.addr

theorem Latched.wdataQ (h : Latched d q) : d.wdataQ q = q.data := by
  unfold Dcache.wdataQ
  split
  · rfl
  · exact h.wdata

theorem Latched.wmaskQ (h : Latched d q) : d.wmaskQ q = q.mask := by
  unfold Dcache.wmaskQ
  split
  · rfl
  · exact h.wmask

/-- While the RAM works on a latched request, it is the request of the processor. -/
theorem Latched.ramRequest_s1 (h : Latched d q) (hs : d.state = .s1) (hm : q.mask = 0#4) :
    d.ramRequest q false = q := by
  ext1
  · simp [ramRequest, hs, h.valid]
  · exact h.addrQ
  · simp [ramRequest, hs, hm]
  · simp [ramRequest, hs, h.wdataQ]

theorem Latched.ramRequest_s3 (h : Latched d q) (hs : d.state = .s3) (b : Bool) :
    d.ramRequest q b = q := by
  ext1
  · simp [ramRequest, hs, h.valid]
  · exact h.addrQ
  · simp [ramRequest, hs, h.wmask]
  · simp [ramRequest, hs, h.wdata]

/-! ## The lines -/

variable {b : Bool} {x : Word}

theorem next_way_of_not_we (h : d.cacheWe b = false) :
    (d.next q b x true).cacheInst.way = d.cacheInst.way := by
  unfold next
  exact AssociativeCache.next_way_of_not_write (by rw [h, Bool.false_and])

theorem next_lines_of_not_we (h : d.cacheWe b = false) :
    (d.next q b x true).cacheInst.lines = d.cacheInst.lines := by
  unfold next
  exact AssociativeCache.lines_next_of_not_write (by rw [h, Bool.false_and])

theorem next_lines_of_we (h : d.cacheWe b = true) :
    (d.next q b x true).cacheInst.lines =
      CacheLines.put (AssociativeCache.keying setWidth 30) d.cacheInst.lines
        (d.cacheInst.accessWay (fullTag (d.addrQ q))) (fullTag (d.addrQ q))
        (d.cachePayloadI q b x) := by
  have hv : d.cacheValid q b = true := by
    unfold cacheValid
    split
    · rename_i hs
      simp [cacheWe, hs] at h
    · exact h
  simp only [next, h, hv]
  exact AssociativeCache.lines_next_write

/-- A latched request stays latched while the lines stay. -/
theorem Latched.next (h : Latched d q) (hs : d.state ≠ .s0) (hwe : d.cacheWe b = false) :
    Latched (d.next q b x true) q := by
  have hf : d.fetchValid q = false := by simp [fetchValid, inLookup, hs]
  constructor
  · exact h.valid
  · simpa [Dcache.next, hf] using h.addr
  · simpa [Dcache.next, hf] using h.wdata
  · simpa [Dcache.next, hf] using h.wmask
  · simpa [Dcache.next, hf] using h.fullMask
  · rw [AssociativeCache.hit_congr (next_way_of_not_we hwe)]
    simpa [Dcache.next, hf] using h.selIsHit

/-- The lookup latches the request. -/
theorem latched_of_lookup (hs : d.state = .s0) (hv : q.valid = true) :
    Latched (d.next q b x true) q := by
  have hf : d.fetchValid q = true := by simp [fetchValid, inLookup, hs, hv]
  have ha : d.addrQ q = q.addr := by simp [addrQ, inLookup, hs]
  constructor
  · exact hv
  · simp [Dcache.next, hf]
  · simp [Dcache.next, hf]
  · simp [Dcache.next, hf]
  · simp [Dcache.next, hf]
  · rw [AssociativeCache.hit_congr (next_way_of_not_we (by simp [cacheWe, hs]))]
    simp [Dcache.next, hf, cacheHit, ha]

/-! ## The clock edge -/

/-- The RAM has nothing to answer, or works on the request. -/
theorem Phase.held (h : Phase d r q) : r.held = none ∨ r.held = some q := by
  unfold Phase at h
  split at h
  · exact .inl h
  · exact h.2.2
  · exact .inl h.2.2.2
  · exact h.2.2

theorem Phase.held_of_ready (h : Phase d r q) (hr : r.ready a = true) : r.held = some q := by
  rcases h.held with hn | hq
  · rw [Ram.ready_eq_false_of_none hn] at hr
    exact absurd hr (by decide)
  · exact hq

theorem ready_of_we (hwe : d.cacheWe b = true) : b = true ∧ (d.state = .s1 ∨ d.state = .s3) := by
  unfold cacheWe at hwe
  split at hwe
  · exact ⟨hwe, .inl ‹_›⟩
  · exact ⟨(Bool.and_eq_true_iff.1 hwe).1, .inr ‹_›⟩
  · exact absurd hwe (by decide)

/-- A line written is the word the RAM then has. -/
theorem next_content_of_we (h : Coherent d r) (hp : Phase d r q)
    (hwe : d.cacheWe (r.ready a) = true) (p : CacheReq) :
    (r.next wordPort a p).content = Function.update r.content (fullTag q.addr)
      (d.cachePayloadI q (r.ready a) (r.rdata wordPort a)) := by
  obtain ⟨hr, hs | hs⟩ := ready_of_we hwe
  · -- The fill after a read miss.
    have hq := hp.held_of_ready hr
    simp only [Phase, hs] at hp
    obtain ⟨-, hm, -⟩ := hp
    have hx : r.rdata wordPort a = r.content (fullTag q.addr) := Ram.rdata_of_ready hq hr hm
    rw [Ram.next_content_of_read hq hm]
    simp [cachePayloadI, hs, hx]
  · -- A write: merged into the line on a hit, the whole word on a miss.
    have hq := hp.held_of_ready hr
    simp only [Phase, hs] at hp
    obtain ⟨hl, -, -⟩ := hp
    rw [Ram.next_content_of_ready hq hr]
    change Function.update _ _ _ = _
    congr 1
    simp only [cachePayloadI, hs, hr, and_self, if_true, hl.wmaskQ, hl.wdataQ, merge_expandWmask]
    cases hsel : d.reqSelIsHit with
    | true =>
      have hpay : d.cachePayload q = r.content (fullTag q.addr) := by
        rw [cachePayload, hl.addrQ]
        exact AssociativeCache.payload_of_agrees h.agrees (hl.selIsHit ▸ hsel)
      rw [if_pos rfl, hpay]
      rfl
    | false =>
      have hfull : d.reqFullMask = true := by simpa [cacheWe, hs, hr, hsel] using hwe
      have hmask : q.mask = 0xf#4 := beq_iff_eq.1 (hl.fullMask.symm.trans hfull)
      rw [if_neg (by decide), if_pos hfull, hmask]
      exact mergeBytes_full _ _

/-- If no line is written, none holds the word that changes. -/
theorem agrees_of_not_we (h : Coherent d r) (hp : Phase d r q)
    (hwe : d.cacheWe (r.ready a) = false) (p : CacheReq) :
    CacheLines.Agrees (AssociativeCache.keying setWidth 30) d.cacheInst.lines
      (r.next wordPort a p).content := by
  cases hr : r.ready a with
  | false =>
    rw [Ram.next_content_of_not_ready hr]
    exact h.agrees
  | true =>
    have hq := hp.held_of_ready hr
    cases hs : d.state with
    | s0 =>
      simp only [Phase, hs] at hp
      simp [hp] at hq
    | s1 => simp [cacheWe, hs, hr] at hwe
    | s2 =>
      simp only [Phase, hs] at hp
      simp [hp.2.2.2] at hq
    | s3 =>
      -- A partial write that missed.
      simp only [Phase, hs] at hp
      have hsel : d.reqSelIsHit = false := by
        simp only [cacheWe, hs, hr, Bool.true_and, Bool.or_eq_false_iff] at hwe
        exact hwe.1
      rw [hp.1.selIsHit, AssociativeCache.hit_eq_false_iff_holds] at hsel
      rw [Ram.next_content_of_ready hq hr]
      exact h.agrees.update_of_miss hsel _

/-- The lines still agree with the RAM after every edge. -/
theorem Coherent.step (h : Coherent d r) (hp : Phase d r q) (p : CacheReq) :
    Coherent (d.next q (r.ready a) (r.rdata wordPort a) true) (r.next wordPort a p) := by
  cases hwe : d.cacheWe (r.ready a) with
  | false =>
    constructor
    · rw [next_lines_of_not_we hwe]
      exact h.unique
    · rw [next_lines_of_not_we hwe]
      exact agrees_of_not_we h hp hwe p
  | true =>
    have haddr : d.addrQ q = q.addr := by
      obtain ⟨-, hs | hs⟩ := ready_of_we hwe
      all_goals
        simp only [Phase, hs] at hp
        exact hp.1.addrQ
    have ht := AssociativeCache.target_accessWay d.cacheInst (fullTag q.addr)
    constructor
    · rw [next_lines_of_we hwe, haddr]
      exact h.unique.put ht
    · rw [next_lines_of_we hwe, next_content_of_we h hp hwe p, haddr]
      exact h.agrees.put h.unique ht

/-- A request is held until the RAM is ready, then `S0` follows. -/
theorem Latched.step {t : DcacheState} (hl : Latched d q) (hs : d.state = t) (ht : t ≠ .s0)
    (hwe : d.cacheWe false = false) (hready : ∀ b, d.cpuReady b = b)
    (hnext : ∀ b, d.nextState q b = if b then .s0 else t) (hreq : d.ramRequest q false = q)
    (hheld : r.held = none ∨ r.held = some q)
    (hq : q.valid = true → d.cpuReady (r.ready a) = false → q' = q) :
    ((d.next q (r.ready a) x true).state = .s0 ∧
      (r.next wordPort a (d.ramRequest q (r.ready a))).held = none) ∨
    ((d.next q (r.ready a) x true).state = t ∧ q' = q ∧ Latched (d.next q (r.ready a) x true) q ∧
      ((r.next wordPort a (d.ramRequest q (r.ready a))).held = none ∨
        (r.next wordPort a (d.ramRequest q (r.ready a))).held = some q)) := by
  rw [hready] at hq
  cases hr : r.ready a with
  | true =>
    left
    exact ⟨by simp [Dcache.next, hnext], Ram.next_held_of_ready hr⟩
  | false =>
    right
    refine ⟨by simp [Dcache.next, hnext], hq hl.valid hr, hl.next (hs ▸ ht) hwe, ?_⟩
    rw [hreq]
    exact Ram.next_held_of_same hheld

/-- The phases follow each other. -/
theorem Phase.step (hp : Phase d r q)
    (hq : q.valid = true → d.cpuReady (r.ready a) = false → q' = q) :
    Phase (d.next q (r.ready a) (r.rdata wordPort a) true)
      (r.next wordPort a (d.ramRequest q (r.ready a))) q' := by
  have hstate : (d.next q (r.ready a) (r.rdata wordPort a) true).state =
      d.nextState q (r.ready a) := rfl
  cases hs : d.state with
  | s0 =>
    have hnone : (r.next wordPort a (d.ramRequest q (r.ready a))).held = none :=
      Ram.next_held_of_not_valid (by simp [ramRequest, hs])
    cases hv : q.valid with
    | false =>
      have hn : d.nextState q (r.ready a) = .s0 := by simp [nextState, hs, fetchValid, hv]
      simp only [Phase, hstate, hn]
      exact hnone
    | true =>
      obtain rfl := hq hv (by simp [cpuReady, hs])
      have hl : Latched (d.next q' (r.ready a) (r.rdata wordPort a) true) q' :=
        latched_of_lookup hs hv
      have hhit : (d.next q' (r.ready a) (r.rdata wordPort a) true).cacheInst.hit
          (fullTag q'.addr) = d.cacheHit q' := by
        rw [AssociativeCache.hit_congr (next_way_of_not_we (by simp [cacheWe, hs])), cacheHit,
          addrQ, inLookup, hs]
        rfl
      have hmask : d.wmaskQ q' = q'.mask := by simp [wmaskQ, inLookup, hs]
      simp only [Phase, hstate, nextState, hs, fetchValid, hv, inLookup, hmask]
      -- a read goes on to `S1` unless it hits, and a write goes to `S3` in any case
      by_cases hm : q'.mask = 0#4
      · cases hc : d.cacheHit q' with
        | true => simpa [hm, hl, hnone] using hhit.trans hc
        | false => simp [hm, hl, hnone]
      · cases hc : d.cacheHit q' <;> simp [hm, hl, hnone]
  | s1 =>
    simp only [Phase, hs] at hp
    obtain ⟨hl, hm, hheld⟩ := hp
    rcases hl.step (x := r.rdata wordPort a) hs (by decide) (by simp [cacheWe, hs])
        (by simp [cpuReady, hs]) (by simp [nextState, hs]) (hl.ramRequest_s1 hs hm) hheld hq with
      ⟨hn, hnone⟩ | ⟨hn, rfl, hl', hheld'⟩
    · simp only [Phase, hn]
      exact hnone
    · simp only [Phase, hn]
      exact ⟨hl', hm, hheld'⟩
  | s2 =>
    have hn : d.nextState q (r.ready a) = .s0 := by simp [nextState, hs]
    simp only [Phase, hstate, hn]
    exact Ram.next_held_of_not_valid (by simp [ramRequest, hs])
  | s3 =>
    simp only [Phase, hs] at hp
    obtain ⟨hl, hm, hheld⟩ := hp
    rcases hl.step (x := r.rdata wordPort a) hs (by decide) (by simp [cacheWe, hs])
        (by simp [cpuReady, hs]) (by simp [nextState, hs]) (hl.ramRequest_s3 hs false) hheld hq with
      ⟨hn, hnone⟩ | ⟨hn, rfl, hl', hheld'⟩
    · simp only [Phase, hn]
      exact hnone
    · simp only [Phase, hn]
      exact ⟨hl', hm, hheld'⟩

/-! ## Cycles and runs -/

/-- Every cycle is faithful. -/
theorem faithful (h : Coherent d r) (hp : Phase d r q) :
    (frontEnd policy).Faithful wordPort d r q a := by
  cases hs : d.state with
  | s0 =>
    simp only [Phase, hs] at hp
    refine .quiet (by simp [frontEnd, cpuReady, hs]) fun o ho => ?_
    rw [Ram.served_of_not_ready (Ram.ready_eq_false_of_none hp)] at ho
    cases ho
  | s1 =>
    simp only [Phase, hs] at hp
    exact .pass hp.1.valid hp.2.2 (by simp [frontEnd, cpuReady, hs])
      fun _ => by simp [frontEnd, cpuDout, hs]
  | s2 =>
    simp only [Phase, hs] at hp
    obtain ⟨hl, hm, hhit, hnone⟩ := hp
    refine .answer hl.valid hm (Ram.ready_eq_false_of_none hnone) ?_
    simp only [frontEnd, cpuDout, hs, if_true, cachePayload, hl.addrQ]
    exact AssociativeCache.payload_of_agrees h.agrees hhit
  | s3 =>
    simp only [Phase, hs] at hp
    exact .pass hp.1.valid hp.2.2 (by simp [frontEnd, cpuReady, hs])
      fun hm => absurd hm hp.2.1

/-- The states in which the RAM is awaited. -/
def Waits (d : Dcache policy) : Prop := d.state = .s1 ∨ d.state = .s3

theorem Waits.cpuReady (h : d.Waits) (b : Bool) : d.cpuReady b = b := by
  rcases h with h | h <;> simp [Dcache.cpuReady, h]

theorem Waits.ramRequest (h : d.Waits) : (d.ramRequest q false).valid = true := by
  rcases h with h | h <;> simp [Dcache.ramRequest, h]

theorem Waits.next (h : d.Waits) : (d.next q false x true).Waits := by
  rcases h with h | h
  · left
    simp [Dcache.next, nextState, h]
  · right
    simp [Dcache.next, nextState, h]

theorem cpuReady_of_s0 (h : d.state = .s0) : d.cpuReady b = false := by
  simp [cpuReady, h]

theorem cpuReady_of_s2 (h : d.state = .s2) : d.cpuReady b = true := by
  simp [cpuReady, h]

theorem next_state_of_lookup (h : d.state = .s0) (hv : q.valid = true) :
    (d.next q b x true).state = .s2 ∨ (d.next q b x true).Waits := by
  change nextState _ _ _ = _ ∨ (nextState _ _ _ = _ ∨ nextState _ _ _ = _)
  simp only [nextState, h, fetchValid, hv, inLookup]
  by_cases hm : d.wmaskQ q = 0#4 <;> cases d.cacheHit q <;> simp [hm]

section

variable {d : Dcache policy} {r : CacheRam} {q : ℕ → CacheReq} {a : ℕ → Answer Word}

/-- Lines and phase in every cycle of a run. -/
theorem coherent_phase (hq : (frontEnd policy).Held wordPort (d, r) q a) (hc : Coherent d r)
    (hs : d.state = .s0) (hr : r.held = none) (n : ℕ) :
    Coherent ((frontEnd policy).trace wordPort (d, r) q a n).1
        ((frontEnd policy).trace wordPort (d, r) q a n).2 ∧
      Phase ((frontEnd policy).trace wordPort (d, r) q a n).1
        ((frontEnd policy).trace wordPort (d, r) q a n).2 (q n) := by
  refine FrontEnd.trace_invariant (F := frontEnd policy) hq
    (P := fun d r q => Coherent d r ∧ Phase d r q) ?_ ?_ n
  · intro p
    refine ⟨hc, ?_⟩
    simp only [Phase, hs]
    exact hr
  · rintro d r p b p' ⟨hc, hp⟩ hq'
    exact ⟨hc.step hp _, hp.step hq'⟩

/-- In `S1` and `S3` the request is answered as soon as the RAM is. -/
theorem answers_of_waits (hq : (frontEnd policy).Held wordPort (d, r) q a)
    (hfair : ∀ n, ∃ m, n ≤ m ∧ (a m).ready = true) {n : ℕ} (hv : (q n).valid = true)
    (hs : Waits ((frontEnd policy).trace wordPort (d, r) q a n).1) :
    (frontEnd policy).Answers wordPort (d, r) q a n := by
  obtain ⟨m, hm, hqm, hW, hr⟩ := FrontEnd.exists_ready (W := Waits) hq hfair
    (fun _ _ h => h.cpuReady false) (fun _ _ h => h.ramRequest) (fun _ _ _ h => h.next) hv hs
  exact ⟨m, hm, hqm, (hW.cpuReady _).trans hr⟩

/-- Every request is answered. -/
theorem answers (hq : (frontEnd policy).Held wordPort (d, r) q a)
    (hfair : ∀ n, ∃ m, n ≤ m ∧ (a m).ready = true) {n : ℕ} (hv : (q n).valid = true) :
    (frontEnd policy).Answers wordPort (d, r) q a n := by
  cases hs : ((frontEnd policy).trace wordPort (d, r) q a n).1.state with
  | s0 =>
    -- The lookup takes one cycle; behind it `S2` answers and the other two wait for the RAM.
    apply FrontEnd.answers_of_succ hq hv (cpuReady_of_s0 hs)
    intro hv'
    rcases next_state_of_lookup (x := Ram.rdata wordPort _ (a n)) hs hv with h2 | hw
    · exact FrontEnd.answers_of_ready (cpuReady_of_s2 h2)
    · exact answers_of_waits hq hfair hv' hw
  | s1 => exact answers_of_waits hq hfair hv (.inl hs)
  | s2 => exact FrontEnd.answers_of_ready (cpuReady_of_s2 hs)
  | s3 => exact answers_of_waits hq hfair hv (.inr hs)

end

/-- The registers after a cycle of reset. -/
def IsReset (d : Dcache policy) : Prop := ∃ d₀ q b x, d = next d₀ q b x false

theorem IsReset.coherent (h : IsReset d) (r : CacheRam) : Coherent d r := by
  obtain ⟨d₀, q, b, x, rfl⟩ := h
  have hl : (d₀.next q b x false).cacheInst.lines = fun _ _ => none :=
    AssociativeCache.lines_next_reset
  constructor
  · rw [hl]
    rintro t i j ⟨v, hv⟩
    cases hv
  · rw [hl]
    intro j k t v hv
    cases hv

end Dcache

/-- **The data cache is transparent.**  For every number of sets and ways and every
replacement policy, every sequence of requests that are held until they are answered and
every latency of the RAM: reads return the words of a flat memory, which is that of the RAM
in every cycle, every write reaches the RAM once, as it was requested, and in every cycle
each valid line is the word of the RAM at its address. -/
theorem dcache_transparent {setWidth ways : ℕ} {policy : ReplacementPolicy setWidth ways}
    {d : Dcache policy} {r : CacheRam} {q : ℕ → CacheReq} {a : ℕ → MemoryPort.Answer Word}
    (hd : d.IsReset) (hr : r.held = none)
    (hq : (Dcache.frontEnd policy).Held wordPort (d, r) q a) :
    (Dcache.frontEnd policy).Transparent wordPort (d, r) q a ∧
      ∀ n, CacheLines.Agrees (AssociativeCache.keying setWidth 30)
        ((Dcache.frontEnd policy).trace wordPort (d, r) q a n).1.cacheInst.lines
        ((Dcache.frontEnd policy).trace wordPort (d, r) q a n).2.content := by
  have hs : d.state = .s0 := by
    obtain ⟨d₀, q₀, b, x, rfl⟩ := hd
    rfl
  have hinv := Dcache.coherent_phase hq (hd.coherent r) hs hr
  constructor
  · exact MemoryPort.FrontEnd.transparent_of_faithful
      (fun n => Dcache.faithful (hinv n).1 (hinv n).2)
      fun hfair n hv => Dcache.answers hq hfair hv
  · exact fun n => (hinv n).1.agrees

/-- A run of half-word writes with two ways and two sets. -/
theorem dcache_transparent_two_way :
    let d : Dcache (lruTwoWay 1) :=
      Dcache.next ⟨.s3, 0, 0, 0, true, true,
          ⟨fun _ => ⟨fun _ => true, fun _ => 0, fun _ => 0⟩, fun _ => true⟩⟩
        ⟨true, 0, 0, 0⟩ true 0 false
    (Dcache.frontEnd (lruTwoWay 1)).Transparent wordPort (d, ⟨fun _ => 0, none, 0⟩)
      (fun _ => ⟨true, 0x80000010#32, 0x3#4, 0xbeef#32⟩) (fun _ => ⟨true, 0⟩) :=
  (dcache_transparent ⟨_, _, _, _, rfl⟩ rfl fun _ _ _ => rfl).1

end KianRiscV
