/-
# The cached and the bypassed path of LinuxSoC_v2 agree

Both variants of `cache` are transparent on data accesses, so runs that answer the same
requests return the same values and leave the RAM with the same contents.  The invariant of
the cached variant: the lines agree with the RAM (`Coherent`), and in each state the ways show
the set of the request, the registered lookup is that of the request, and a pending line is
the word the RAM will have (`Phase`).
-/
import KianRiscV.SocV2Lines

namespace KianRiscV

namespace V2

open MemoryPort

/-! ## The data cache -/

namespace Dcache

variable {p : Config} {d : Dcache p} {r : CacheRam} {q q' : CacheReq} {a : Answer Word}
  {b : Bool} {x : Word}

/-- The lines are unique and agree with the RAM. -/
structure Coherent (d : Dcache p) (r : CacheRam) : Prop where
  unique : CacheLines.Unique p.keying d.cacheD.lines
  agrees : CacheLines.Agrees p.keying d.cacheD.lines r.content

/-- The request has been sampled and its set is shown by the ways. -/
structure Sampled (d : Dcache p) (q : CacheReq) : Prop where
  valid : q.valid = true
  wmask : d.cpuWmaskQ = q.mask
  din : d.cpuDinQ = q.data
  settled : d.cacheD.Settled (p.idx (block q))

/-- The kind of the request has been registered, and whether it is a write that hit. -/
structure Classified (d : Dcache p) (q : CacheReq) : Prop where
  isRead : d.opIsRead = (q.mask == 0#4)
  isFull : d.opIsFull = (q.mask == 0xf#4)
  isPartial : d.opIsPartial = (q.mask != 0#4 && q.mask != 0xf#4)
  fromHit : d.wrFromHit = (d.cacheHit q && q.mask != 0#4)

/-- The read of the word a request is about. -/
def readOf (q : CacheReq) : CacheReq := { q with mask := 0#4 }

/-- What holds of the request and of the RAM in each state. -/
def Phase (d : Dcache p) (r : CacheRam) (q : CacheReq) : Prop :=
  match d.state with
  | .idle => r.held = none
  | .read => Sampled d q ∧ r.held = none
  | .check => Sampled d q ∧ r.held = none ∧ d.cacheHitQ = d.cacheHit q ∧
      d.cacheRdataQ = d.cacheRdata q
  | .rdReq => Sampled d q ∧ Classified d q ∧ q.mask ≠ 0xf#4 ∧
      (r.held = none ∨ r.held = some (readOf q))
  | .refill => Sampled d q ∧ q.mask = 0#4 ∧ r.held = none ∧ r.dout = r.content (block q)
  | .wrReq => Sampled d q ∧ Classified d q ∧ q.mask ≠ 0#4 ∧ d.pendingWe = true ∧
      d.pendingData = mergeBytes q.mask (r.content (block q)) q.data ∧
      (r.held = none ∨ r.held = some q)

/-! ### The clock edge -/

theorem next_state : (d.next q b x true false).state = d.nextState q b := rfl

theorem next_cacheD : (d.next q b x true false).cacheD =
    d.cacheD.next (p.idx (block q)) (p.tag (block q)) true false (d.cacheWe b) (d.cacheRe q)
      (d.cacheWdata b x) := rfl

theorem next_lines_of_not_we (h : d.cacheWe b = false) :
    (d.next q b x true false).cacheD.lines = d.cacheD.lines := by
  rw [next_cacheD, h]
  exact CacheSram.lines_next_of_not_write

theorem next_lines_of_we (h : d.cacheWe b = true) :
    (d.next q b x true false).cacheD.lines =
      CacheLines.put p.keying d.cacheD.lines
        (d.cacheD.targetWay (p.idx (block q)) (p.tag (block q))) (block q)
        (d.cacheWdata b x) := by
  rw [next_cacheD, h]
  exact CacheSram.lines_next_write

/-- A request presented in a cycle without write is sampled. -/
theorem sampled_next (hv : q.valid = true) (h : d.cacheWe b = false) :
    Sampled (d.next q b x true false) q where
  valid := hv
  wmask := rfl
  din := rfl
  settled := by
    rw [next_cacheD, h]
    exact CacheSram.settled_next

/-- A sampled request is looked up again with the same result. -/
theorem Sampled.cacheHit_next (hs : Sampled d q) (h : d.cacheWe b = false) :
    (d.next q b x true false).cacheHit q = d.cacheHit q := by
  rw [cacheHit, next_cacheD, h]
  exact CacheSram.hitComb_next_of_settled hs.settled

theorem Sampled.cacheRdata_next (hs : Sampled d q) (h : d.cacheWe b = false) :
    (d.next q b x true false).cacheRdata q = d.cacheRdata q := by
  rw [cacheRdata, next_cacheD, h]
  exact CacheSram.rdata_next_of_settled hs.settled

theorem Sampled.cacheHit_eq_false_iff (hs : Sampled d q) :
    d.cacheHit q = false ↔ ∀ j, ¬ CacheLines.Holds p.keying d.cacheD.lines (block q) j :=
  CacheSram.hitComb_eq_false_iff_holds hs.settled

/-- The registered kind stays behind the check. -/
theorem Classified.next (hc : Classified d q) (hs : Sampled d q) (hst : d.state ≠ .check)
    (h : d.cacheWe b = false) : Classified (d.next q b x true false) q where
  isRead := by simpa [Dcache.next, hst] using hc.isRead
  isFull := by simpa [Dcache.next, hst] using hc.isFull
  isPartial := by simpa [Dcache.next, hst] using hc.isPartial
  fromHit := by
    rw [hs.cacheHit_next h]
    simpa [Dcache.next, hst] using hc.fromHit

/-- The check registers the kind. -/
theorem classified_of_check (hs : Sampled d q) (hst : d.state = .check)
    (hhit : d.cacheHitQ = d.cacheHit q) : Classified (d.next q b x true false) q := by
  have hwe : d.cacheWe b = false := by simp [cacheWe, hst]
  constructor
  · simp [Dcache.next, hst, isReadReq, hs.wmask]
  · simp [Dcache.next, hst, isFullWrite, hs.wmask]
  · simp [Dcache.next, hst, isPartWrite, isFullWrite, hs.wmask, bne]
  · rw [hs.cacheHit_next hwe]
    simp [Dcache.next, hst, hhit, isReadReq, hs.wmask, bne]

/-! ### The lines -/

theorem of_we (h : d.cacheWe b = true) :
    d.state = .refill ∨
      (d.state = .wrReq ∧ b = true ∧ d.pendingWe = true ∧ d.wantAlloc = true) := by
  unfold cacheWe at h
  split at h
  · exact .inl ‹_›
  · simp only [Bool.and_eq_true] at h
    exact .inr ⟨‹_›, h.1.1, h.1.2, h.2⟩
  · exact absurd h (by decide)

/-- A state that writes a line has its request sampled. -/
theorem Phase.sampled (hp : Phase d r q) (h : d.cacheWe b = true) : Sampled d q := by
  rcases of_we h with hs | ⟨hs, -⟩
  all_goals
    simp only [Phase, hs] at hp
    exact hp.1

/-- A line written is the word the RAM then has. -/
theorem next_content_of_we (hp : Phase d r q) (hwe : d.cacheWe (r.ready a) = true)
    (o : CacheReq) :
    (r.next wordPort a o).content = Function.update r.content (block q)
      (d.cacheWdata (r.ready a) (r.rdata wordPort a)) := by
  rcases of_we hwe with hs | ⟨hs, hr, hwe', hal⟩
  · -- The refill, one cycle after the RAM was ready.
    simp only [Phase, hs] at hp
    obtain ⟨-, -, hheld, hdout⟩ := hp
    rw [Ram.next_content_of_not_ready (Ram.ready_eq_false_of_none hheld)]
    simp only [cacheWdata, hs, Ram.rdata_of_none hheld, hdout, Function.update_eq_self]
  · simp only [Phase, hs] at hp
    obtain ⟨-, -, -, -, hpend, hheld⟩ := hp
    have hq : r.held = some q := by
      rcases hheld with hn | hq
      · rw [Ram.ready_eq_false_of_none hn] at hr
        exact absurd hr (by decide)
      · exact hq
    rw [Ram.next_content_of_ready hq hr]
    simp only [cacheWdata, hs, hr, hwe', hal, Bool.and_self, if_true, hpend]
    rfl

/-- If no line is written, none holds the word that changes. -/
theorem agrees_of_not_we (h : Coherent d r) (hp : Phase d r q)
    (hwe : d.cacheWe (r.ready a) = false) (o : CacheReq) :
    CacheLines.Agrees p.keying d.cacheD.lines (r.next wordPort a o).content := by
  cases hr : r.ready a with
  | false =>
    rw [Ram.next_content_of_not_ready hr]
    exact h.agrees
  | true =>
    -- Only the two states that wait for the RAM can see it ready.
    have hno : ¬ r.held = none := by
      intro hn
      rw [Ram.ready_eq_false_of_none hn] at hr
      exact absurd hr (by decide)
    cases hs : d.state with
    | idle => simp only [Phase, hs] at hp; exact absurd hp hno
    | read => simp only [Phase, hs] at hp; exact absurd hp.2 hno
    | check => simp only [Phase, hs] at hp; exact absurd hp.2.1 hno
    | refill => simp only [Phase, hs] at hp; exact absurd hp.2.2.1 hno
    | rdReq =>
      simp only [Phase, hs] at hp
      obtain ⟨-, -, -, hn | hq⟩ := hp
      · exact absurd hn hno
      · rw [Ram.next_content_of_read hq rfl]
        exact h.agrees
    | wrReq =>
      simp only [Phase, hs] at hp
      obtain ⟨hsam, hc, hm, hpe, -, hn | hq⟩ := hp
      · exact absurd hn hno
      · -- A full-word store that missed and does not allocate.
        have hal : d.wantAlloc = false := by simpa [cacheWe, hs, hr, hpe] using hwe
        have hmiss : d.cacheHit q = false := by
          simp only [wantAlloc, Bool.or_eq_false_iff] at hal
          simpa [hc.fromHit, hm] using hal.1.1
        rw [Ram.next_content_of_ready hq hr]
        exact h.agrees.update_of_miss (hsam.cacheHit_eq_false_iff.1 hmiss) _

/-- The lines still agree with the RAM after every edge. -/
theorem Coherent.step (h : Coherent d r) (hp : Phase d r q) (o : CacheReq) :
    Coherent (d.next q (r.ready a) (r.rdata wordPort a) true false) (r.next wordPort a o) := by
  cases hwe : d.cacheWe (r.ready a) with
  | false =>
    constructor
    · rw [next_lines_of_not_we hwe]
      exact h.unique
    · rw [next_lines_of_not_we hwe]
      exact agrees_of_not_we h hp hwe o
  | true =>
    have ht := CacheSram.target_targetWay (hp.sampled hwe).settled
    constructor
    · rw [next_lines_of_we hwe]
      exact h.unique.put ht
    · rw [next_lines_of_we hwe, next_content_of_we hp hwe o]
      exact h.agrees.put h.unique ht

/-! ### The phases -/

/-- Behind the check, a write waits for the RAM with the line it leads to, a miss otherwise
fetches the word. -/
theorem phase_of_check (h : Coherent d r) (hs : d.state = .check) (hp : Phase d r q)
    (hnot : d.cpuReady (r.ready a) = false) :
    Phase (d.next q (r.ready a) (r.rdata wordPort a) true false)
      (r.next wordPort a (d.ramRequest q)) q := by
  have hnone : (r.next wordPort a (d.ramRequest q)).held = none :=
    Ram.next_held_of_not_valid (by simp [ramRequest, hs])
  simp only [Phase, hs] at hp
  obtain ⟨hsam, hheld, hhit, hrd⟩ := hp
  have hwe : d.cacheWe (r.ready a) = false := by simp [cacheWe, hs]
  have hsam' : Sampled (d.next q (r.ready a) (r.rdata wordPort a) true false) q :=
    sampled_next hsam.valid hwe
  have hcl : Classified (d.next q (r.ready a) (r.rdata wordPort a) true false) q :=
    classified_of_check hsam hs hhit
  have hcont : (r.next wordPort a (d.ramRequest q)).content = r.content :=
    Ram.next_content_of_not_ready (Ram.ready_eq_false_of_none hheld)
  -- a hit here is a write: the line it leads to is merged from the word in the cache
  cases hh : d.cacheHitQ with
  | true =>
    have hm : q.mask ≠ 0#4 := by simpa [cpuReady, hs, hh, isReadReq, hsam.wmask] using hnot
    have hword : d.cacheRdataQ = r.content (block q) := by
      rw [hrd]
      exact CacheSram.rdata_of_agrees hsam.settled h.agrees (hhit.symm.trans hh)
    have hst : d.nextState q (r.ready a) = .wrReq := by
      simp [nextState, hs, hh, isReadReq, hsam.wmask, hm]
    simp only [Phase, next_state, hst, hcont, hnone, true_or, and_true]
    refine ⟨hsam', hcl, hm, ?_, ?_⟩
    · simp [Dcache.next, pending?, hs, hh, isReadReq, hsam.wmask, hm]
    · by_cases hf : q.mask = 0xf#4
      · simp [Dcache.next, pending?, hs, hh, isReadReq, isFullWrite, hsam.wmask, hsam.din, hf,
          mergeBytes_full]
      · simp [Dcache.next, pending?, hs, hh, isReadReq, isFullWrite, hsam.wmask, hsam.din, hm, hf,
          hword]
  | false =>
    by_cases hf : q.mask = 0xf#4
    · have hst : d.nextState q (r.ready a) = .wrReq := by
        simp [nextState, hs, hh, isReadReq, isFullWrite, hsam.wmask, hf]
      simp only [Phase, next_state, hst, hcont, hnone, true_or, and_true]
      refine ⟨hsam', hcl, by rw [hf]; decide, ?_, ?_⟩
      · simp [Dcache.next, pending?, hs, hh, isFullWrite, hsam.wmask, hf]
      · simp [Dcache.next, pending?, hs, hh, isFullWrite, hsam.wmask, hsam.din, hf,
          mergeBytes_full]
    · have hst : d.nextState q (r.ready a) = .rdReq := by
        simp [nextState, hs, hh, isFullWrite, hsam.wmask, hf]
      simp only [Phase, next_state, hst, hnone, true_or, and_true]
      exact ⟨hsam', hcl, hf⟩

/-- Behind the fetch, a read is refilled and a partial write is merged and waits. -/
theorem phase_of_rdReq (hs : d.state = .rdReq) (hp : Phase d r q) :
    Phase (d.next q (r.ready a) (r.rdata wordPort a) true false)
      (r.next wordPort a (d.ramRequest q)) q := by
  simp only [Phase, hs] at hp
  obtain ⟨hsam, hcl, hf, hheld⟩ := hp
  have hwe : d.cacheWe (r.ready a) = false := by simp [cacheWe, hs]
  have hsam' : Sampled (d.next q (r.ready a) (r.rdata wordPort a) true false) q :=
    sampled_next hsam.valid hwe
  have hcl' : Classified (d.next q (r.ready a) (r.rdata wordPort a) true false) q :=
    hcl.next hsam (by simp [hs]) hwe
  cases hr : r.ready a with
  | false =>
    have hreq : d.ramRequest q = readOf q := by
      simp [ramRequest, readOf, hs, hsam.din, hsam.valid]
    rw [hr] at hsam' hcl'
    simp only [Phase, next_state, nextState, hs, Bool.false_eq_true, if_false, hreq]
    exact ⟨hsam', hcl', hf, Ram.next_held_of_same hheld⟩
  | true =>
    -- the RAM has answered, so that it was this read that it worked on
    have hq : r.held = some (readOf q) := by
      rcases hheld with hn | hq
      · rw [Ram.ready_eq_false_of_none hn] at hr
        exact absurd hr (by decide)
      · exact hq
    have hrd : r.rdata wordPort a = r.content (block q) :=
      Ram.rdata_of_ready (p := readOf q) hq hr rfl
    have hcont : (r.next wordPort a (d.ramRequest q)).content = r.content :=
      Ram.next_content_of_read hq rfl
    have hnone : (r.next wordPort a (d.ramRequest q)).held = none := Ram.next_held_of_ready hr
    rw [hr] at hsam' hcl'
    by_cases hm : q.mask = 0#4
    · have hst : d.nextState q true = .refill := by simp [nextState, hs, hcl.isRead, hm]
      simp only [Phase, next_state, hst, hcont, Ram.next_dout]
      exact ⟨hsam', hm, hnone, hrd⟩
    · have hst : d.nextState q true = .wrReq := by simp [nextState, hs, hcl.isRead, hm]
      simp only [Phase, next_state, hst, hcont, hnone, true_or, and_true]
      refine ⟨hsam', hcl', hm, ?_, ?_⟩
      · simp [Dcache.next, pending?, hs, hcl.isPartial, hm, hf]
      · simp [Dcache.next, pending?, hs, hcl.isPartial, hm, hf, hsam.wmask, hsam.din, hrd]

/-- A write waits for the RAM. -/
theorem phase_of_wrReq (hs : d.state = .wrReq) (hp : Phase d r q) (hr : r.ready a = false) :
    Phase (d.next q (r.ready a) (r.rdata wordPort a) true false)
      (r.next wordPort a (d.ramRequest q)) q := by
  simp only [Phase, hs] at hp
  obtain ⟨hsam, hcl, hm, hpe, hpd, hheld⟩ := hp
  have hwe : d.cacheWe (r.ready a) = false := by simp [cacheWe, hs, hr]
  have hsam' : Sampled (d.next q (r.ready a) (r.rdata wordPort a) true false) q :=
    sampled_next hsam.valid hwe
  have hcl' : Classified (d.next q (r.ready a) (r.rdata wordPort a) true false) q :=
    hcl.next hsam (by simp [hs]) hwe
  have hreq : d.ramRequest q = q := by
    ext1 <;> simp [ramRequest, hs, hsam.valid, hsam.wmask, hsam.din]
  have hst : d.nextState q (r.ready a) = .wrReq := by simp [nextState, hs, hr]
  simp only [Phase, next_state, hst, hreq, Ram.next_content_of_not_ready hr]
  refine ⟨hsam', hcl', hm, ?_, ?_, Ram.next_held_of_same hheld⟩
  · simpa [Dcache.next, pending?, hs, hr] using hpe
  · simpa [Dcache.next, pending?, hs] using hpd

/-- The phases follow each other. -/
theorem Phase.step (h : Coherent d r) (hp : Phase d r q)
    (hq : q.valid = true → d.cpuReady (r.ready a) = false → q' = q) :
    Phase (d.next q (r.ready a) (r.rdata wordPort a) true false)
      (r.next wordPort a (d.ramRequest q)) q' := by
  -- A state that answers is followed by the idle state with the RAM at rest.
  have hidle : d.nextState q (r.ready a) = .idle →
      (r.next wordPort a (d.ramRequest q)).held = none →
      Phase (d.next q (r.ready a) (r.rdata wordPort a) true false)
        (r.next wordPort a (d.ramRequest q)) q' := by
    intro hst hnone
    simp only [Phase, next_state, hst]
    exact hnone
  have hquiet : d.state ≠ .rdReq → d.state ≠ .wrReq →
      (r.next wordPort a (d.ramRequest q)).held = none := by
    intro h1 h2
    exact Ram.next_held_of_not_valid (by simp [ramRequest, h1, h2])
  cases hs : d.state with
  | idle =>
    have hnone := hquiet (by simp [hs]) (by simp [hs])
    cases hv : q.valid with
    | false => exact hidle (by simp [nextState, hs, hv]) hnone
    | true =>
      obtain rfl := hq hv (by simp [cpuReady, hs])
      simp only [Phase, next_state, nextState, hs, hv, if_true]
      exact ⟨sampled_next hv (by simp [cacheWe, hs]), hnone⟩
  | read =>
    have hnone := hquiet (by simp [hs]) (by simp [hs])
    have hwe : d.cacheWe (r.ready a) = false := by simp [cacheWe, hs]
    simp only [Phase, hs] at hp
    obtain rfl := hq hp.1.valid (by simp [cpuReady, hs])
    simp only [Phase, next_state, nextState, hs, hp.1.cacheHit_next hwe,
      hp.1.cacheRdata_next hwe]
    exact ⟨sampled_next hp.1.valid hwe, hnone, rfl, rfl⟩
  | check =>
    cases hready : d.cpuReady (r.ready a) with
    | true =>
      refine hidle ?_ (hquiet (by simp [hs]) (by simp [hs]))
      simp only [cpuReady, hs, Bool.and_eq_true] at hready
      simp [nextState, hs, hready]
    | false =>
      have hval : q.valid = true := by
        simp only [Phase, hs] at hp
        exact hp.1.valid
      obtain rfl := hq hval hready
      exact phase_of_check h hs hp hready
  | rdReq =>
    have hval : q.valid = true := by
      simp only [Phase, hs] at hp
      exact hp.1.valid
    obtain rfl := hq hval (by simp [cpuReady, hs])
    exact phase_of_rdReq hs hp
  | refill => exact hidle (by simp [nextState, hs]) (hquiet (by simp [hs]) (by simp [hs]))
  | wrReq =>
    cases hr : r.ready a with
    | true =>
      rw [hr] at hidle
      exact hidle (by simp [nextState, hs]) (Ram.next_held_of_ready hr)
    | false =>
      have hval : q.valid = true := by
        simp only [Phase, hs] at hp
        exact hp.1.valid
      obtain rfl := hq hval (by simp [cpuReady, hs, hr])
      have hph := phase_of_wrReq hs hp hr
      rw [hr] at hph
      exact hph

theorem state_next_of_idle (h : d.state = .idle) (hv : q.valid = true) :
    (d.next q b x true false).state = .read := by
  simp [next_state, nextState, h, hv]

theorem state_next_of_read (h : d.state = .read) : (d.next q b x true false).state = .check := by
  simp [next_state, nextState, h]

theorem state_next_of_rdReq (h : d.state = .rdReq) :
    (d.next q false x true false).state = .rdReq := by
  simp [next_state, nextState, h]

theorem state_next_of_wrReq (h : d.state = .wrReq) :
    (d.next q false x true false).state = .wrReq := by
  simp [next_state, nextState, h]

/-! ### Cycles and runs -/

/-- Every cycle is faithful. -/
theorem faithful (h : Coherent d r) (hp : Phase d r q) : (cached p).Faithful wordPort d r q a := by
  -- A cycle with the RAM at rest and no answer.
  have hrest : d.cpuReady (r.ready a) = false → r.held = none →
      (cached p).Faithful wordPort d r q a := by
    intro hready hnone
    refine .quiet hready fun o ho => ?_
    rw [Ram.served_of_not_ready (Ram.ready_eq_false_of_none hnone)] at ho
    cases ho
  cases hs : d.state with
  | idle =>
    simp only [Phase, hs] at hp
    exact hrest (by simp [cpuReady, hs]) hp
  | read =>
    simp only [Phase, hs] at hp
    exact hrest (by simp [cpuReady, hs]) hp.2
  | check =>
    simp only [Phase, hs] at hp
    obtain ⟨hsam, hnone, hhit, hrd⟩ := hp
    cases hready : d.cpuReady (r.ready a) with
    | false => exact hrest hready hnone
    | true =>
      simp only [cpuReady, hs, Bool.and_eq_true] at hready
      have hm : q.mask = 0#4 := by simpa [isReadReq, hsam.wmask] using hready.2
      refine .answer hsam.valid hm (Ram.ready_eq_false_of_none hnone) ?_
      change d.cpuDout (r.rdata wordPort a) = r.content (block q)
      simp only [cpuDout, hs, hready, Bool.and_self, if_true, hrd]
      exact CacheSram.rdata_of_agrees hsam.settled h.agrees (hhit.symm.trans hready.1)
  | rdReq =>
    simp only [Phase, hs] at hp
    obtain ⟨-, -, -, hheld⟩ := hp
    refine .quiet (by simp [cached, cpuReady, hs]) fun o ho => ?_
    rcases hheld with hn | hq
    · rw [Ram.served_of_not_ready (Ram.ready_eq_false_of_none hn)] at ho
      cases ho
    · simp only [Ram.served, hq] at ho
      split at ho
      · cases ho
        rfl
      · cases ho
  | refill =>
    simp only [Phase, hs] at hp
    obtain ⟨hsam, hm, hnone, hdout⟩ := hp
    refine .answer hsam.valid hm (Ram.ready_eq_false_of_none hnone) ?_
    change d.cpuDout (r.rdata wordPort a) = r.content (block q)
    simp only [cpuDout, hs, Ram.rdata_of_none hnone, hdout]
  | wrReq =>
    simp only [Phase, hs] at hp
    obtain ⟨hsam, -, hm, -, -, hheld⟩ := hp
    exact .pass hsam.valid hheld (by simp [cached, cpuReady, hs]) fun h0 => absurd h0 hm

section

variable {d : Dcache p} {r : CacheRam} {q : ℕ → CacheReq} {a : ℕ → Answer Word}

/-- Lines and phase in every cycle of a run. -/
theorem coherent_phase (hq : (cached p).Held wordPort (d, r) q a) (hc : Coherent d r)
    (hs : d.state = .idle) (hr : r.held = none) (n : ℕ) :
    Coherent ((cached p).trace wordPort (d, r) q a n).1
        ((cached p).trace wordPort (d, r) q a n).2 ∧
      Phase ((cached p).trace wordPort (d, r) q a n).1
        ((cached p).trace wordPort (d, r) q a n).2 (q n) := by
  refine FrontEnd.trace_invariant (F := cached p) hq
    (P := fun d r q => Coherent d r ∧ Phase d r q) ?_ ?_ n
  · intro o
    refine ⟨hc, ?_⟩
    simp only [Phase, hs]
    exact hr
  · rintro d r o b o' ⟨hc, hp⟩ hq'
    exact ⟨hc.step hp _, hp.step hc hq'⟩

theorem answers_of_wrReq (hq : (cached p).Held wordPort (d, r) q a)
    (hfair : ∀ n, ∃ m, n ≤ m ∧ (a m).ready = true) {n : ℕ} (hv : (q n).valid = true)
    (hs : Dcache.state ((cached p).trace wordPort (d, r) q a n).1 = .wrReq) :
    (cached p).Answers wordPort (d, r) q a n := by
  obtain ⟨m, hm, hqm, hW, hr⟩ := FrontEnd.exists_ready
    (W := fun t : Dcache p => t.state = .wrReq) hq hfair
    (fun t o h => by simp [cached, cpuReady, h]) (fun t o h => by simp [cached, ramRequest, h])
    (fun t o x h => state_next_of_wrReq h) hv hs
  refine ⟨m, hm, hqm, ?_⟩
  change cpuReady _ _ = true
  simp [cpuReady, hW, hr]

theorem answers_of_rdReq (hq : (cached p).Held wordPort (d, r) q a)
    (hfair : ∀ n, ∃ m, n ≤ m ∧ (a m).ready = true) {n : ℕ} (hv : (q n).valid = true)
    (hs : Dcache.state ((cached p).trace wordPort (d, r) q a n).1 = .rdReq) :
    (cached p).Answers wordPort (d, r) q a n := by
  obtain ⟨m, hm, hqm, hW, hr⟩ := FrontEnd.exists_ready
    (W := fun t : Dcache p => t.state = .rdReq) hq hfair
    (fun t o h => by simp [cached, cpuReady, h]) (fun t o h => by simp [cached, ramRequest, h])
    (fun t o x h => state_next_of_rdReq h) hv hs
  apply FrontEnd.answers_of_later hm hqm
  -- The word has come: a read is answered in the next cycle, a partial write goes on.
  refine FrontEnd.answers_of_succ hq (by rw [hqm]; exact hv) ?_ fun hv' => ?_
  · change cpuReady _ _ = false
    simp [cpuReady, hW]
  · have hst : Dcache.state ((cached p).trace wordPort (d, r) q a (m + 1)).1 =
        nextState ((cached p).trace wordPort (d, r) q a m).1 (q m)
          (((cached p).trace wordPort (d, r) q a m).2.ready (a m)) := rfl
    simp only [nextState, hW, hr, if_true] at hst
    split at hst
    · exact FrontEnd.answers_of_ready (by change cpuReady _ _ = true; simp [cpuReady, hst])
    · exact answers_of_wrReq hq hfair hv' hst

theorem answers_of_check (hq : (cached p).Held wordPort (d, r) q a)
    (hfair : ∀ n, ∃ m, n ≤ m ∧ (a m).ready = true) {n : ℕ} (hv : (q n).valid = true)
    (hs : Dcache.state ((cached p).trace wordPort (d, r) q a n).1 = .check) :
    (cached p).Answers wordPort (d, r) q a n := by
  cases hready : (cached p).readyAt wordPort (d, r) q a n with
  | true => exact FrontEnd.answers_of_ready hready
  | false =>
    apply FrontEnd.answers_of_succ hq hv hready
    intro hv'
    have hst : Dcache.state ((cached p).trace wordPort (d, r) q a (n + 1)).1 =
        nextState ((cached p).trace wordPort (d, r) q a n).1 (q n)
          (((cached p).trace wordPort (d, r) q a n).2.ready (a n)) := rfl
    change cpuReady _ _ = false at hready
    simp only [cpuReady, hs] at hready
    simp only [nextState, hs] at hst
    split_ifs at hst with hh hrd hrd hf
    · simp [hh, hrd] at hready
    · exact answers_of_wrReq hq hfair hv' hst
    · exact answers_of_rdReq hq hfair hv' hst
    · exact answers_of_wrReq hq hfair hv' hst
    · exact answers_of_rdReq hq hfair hv' hst

/-- Every request is answered. -/
theorem answers (hq : (cached p).Held wordPort (d, r) q a)
    (hfair : ∀ n, ∃ m, n ≤ m ∧ (a m).ready = true) {n : ℕ} (hv : (q n).valid = true) :
    (cached p).Answers wordPort (d, r) q a n := by
  have hread : ∀ n, (q n).valid = true →
      Dcache.state ((cached p).trace wordPort (d, r) q a n).1 = .read →
      (cached p).Answers wordPort (d, r) q a n := by
    intro n hv hs
    refine FrontEnd.answers_of_succ hq hv ?_ fun hv' => ?_
    · change cpuReady _ _ = false
      simp [cpuReady, hs]
    · exact answers_of_check hq hfair hv' (state_next_of_read hs)
  cases hs : Dcache.state ((cached p).trace wordPort (d, r) q a n).1 with
  | idle =>
    refine FrontEnd.answers_of_succ hq hv ?_ fun hv' => ?_
    · change cpuReady _ _ = false
      simp [cpuReady, hs]
    · exact hread (n + 1) hv' (state_next_of_idle hs hv)
  | read => exact hread n hv hs
  | check => exact answers_of_check hq hfair hv hs
  | rdReq => exact answers_of_rdReq hq hfair hv hs
  | refill =>
    apply FrontEnd.answers_of_ready
    change cpuReady _ _ = true
    simp [cpuReady, hs]
  | wrReq => exact answers_of_wrReq hq hfair hv hs

end

/-- The registers after a cycle of reset. -/
def IsReset (d : Dcache p) : Prop := ∃ d₀ q b x flush, d = next d₀ q b x false flush

theorem IsReset.coherent (h : IsReset d) (r : CacheRam) : Coherent d r := by
  obtain ⟨d₀, q, b, x, flush, rfl⟩ := h
  have hl : (d₀.next q b x false flush).cacheD.lines = fun _ _ => none := rfl
  constructor
  · rw [hl]
    rintro t i j ⟨v, hv⟩
    cases hv
  · rw [hl]
    intro j k t v hv
    cases hv

end Dcache

/-! ## The bypass -/

namespace Bypass

variable {b : Bypass} {r : CacheRam} {q q' : CacheReq} {a : Answer Word}

/-- The request has been latched. -/
structure Latched (b : Bypass) (q : CacheReq) : Prop where
  valid : q.valid = true
  addr : b.addrQ = q.addr
  din : b.dinQ = q.data
  wmask : b.wmaskQ = q.mask

/-- What holds of the request and of the RAM in each state. -/
def Phase (b : Bypass) (r : CacheRam) (q : CacheReq) : Prop :=
  match b.state with
  | .idle => r.held = none
  | .req => Latched b q ∧ (r.held = none ∨ r.held = some q)
  | .rsp => Latched b q ∧ q.mask = 0#4 ∧ r.held = none ∧ b.rdataQ = r.content (block q)

theorem Latched.ramRequest (h : Latched b q) (hs : b.state = .req) : b.ramRequest = q := by
  ext1 <;> simp [Bypass.ramRequest, hs, h.valid, h.addr, h.din, h.wmask]

theorem Latched.isWrite (h : Latched b q) : b.isWrite = (q.mask != 0#4) := by
  rw [Bypass.isWrite, h.wmask]

/-- The phases follow each other. -/
theorem Phase.step (hp : Phase b r q)
    (hq : q.valid = true → b.cpuReady (r.ready a) = false → q' = q) :
    Phase (b.next q (r.ready a) (r.rdata wordPort a)) (r.next wordPort a b.ramRequest) q' := by
  cases hs : b.state with
  | idle =>
    have hnone : (r.next wordPort a b.ramRequest).held = none :=
      Ram.next_held_of_not_valid (by simp [Bypass.ramRequest, hs])
    cases hv : q.valid with
    | false => simpa [Phase, Bypass.next, hs, hv] using hnone
    | true =>
      obtain rfl := hq hv (by simp [cpuReady, hs])
      simp only [Phase, Bypass.next, hs, hv, if_true]
      exact ⟨⟨hv, rfl, rfl, rfl⟩, .inl hnone⟩
  | req =>
    simp only [Phase, hs] at hp
    obtain ⟨hl, hheld⟩ := hp
    have hwr := hl.isWrite
    cases hr : r.ready a with
    | false =>
      obtain rfl := hq hl.valid (by simp [cpuReady, hs, hr])
      rw [hl.ramRequest hs]
      simp only [Phase, Bypass.next, hs, Bool.false_eq_true, if_false]
      exact ⟨hl, Ram.next_held_of_same hheld⟩
    | true =>
      have hnone : (r.next wordPort a b.ramRequest).held = none := Ram.next_held_of_ready hr
      by_cases hm : q.mask = 0#4
      · -- A read: its word is registered for the response.
        obtain rfl := hq hl.valid (by simp [cpuReady, hs, hwr, hm])
        have hheldq : r.held = some q' := by
          rcases hheld with hn | h
          · rw [Ram.ready_eq_false_of_none hn] at hr
            exact absurd hr (by decide)
          · exact h
        have hrd : r.rdata wordPort a = r.content (block q') := Ram.rdata_of_ready hheldq hr hm
        have hcont : (r.next wordPort a b.ramRequest).content = r.content :=
          Ram.next_content_of_read hheldq hm
        have hw : b.isWrite = false := by rw [hwr, hm]; rfl
        simp only [Phase, Bypass.next, hs, hw, Bool.false_eq_true, if_false, if_true, hcont]
        exact ⟨⟨hl.valid, hl.addr, hl.din, hl.wmask⟩, hm, hnone, hrd⟩
      · have hw : b.isWrite = true := by rw [hwr]; simpa using hm
        simp only [Phase, Bypass.next, hs, hw, if_true]
        exact hnone
  | rsp =>
    have hnone : (r.next wordPort a b.ramRequest).held = none :=
      Ram.next_held_of_not_valid (by simp [Bypass.ramRequest, hs])
    simp only [Phase, Bypass.next, hs]
    exact hnone

/-- Every cycle is faithful. -/
theorem faithful (hp : Phase b r q) : bypassed.Faithful wordPort b r q a := by
  cases hs : b.state with
  | idle =>
    simp only [Phase, hs] at hp
    refine .quiet (by simp [bypassed, cpuReady, hs]) fun o ho => ?_
    rw [Ram.served_of_not_ready (Ram.ready_eq_false_of_none hp)] at ho
    cases ho
  | req =>
    simp only [Phase, hs] at hp
    obtain ⟨hl, hheld⟩ := hp
    by_cases hm : q.mask = 0#4
    · refine .quiet (by simp [bypassed, cpuReady, hs, hl.isWrite, hm]) fun o ho => ?_
      rcases hheld with hn | hq
      · rw [Ram.served_of_not_ready (Ram.ready_eq_false_of_none hn)] at ho
        cases ho
      · simp only [Ram.served, hq] at ho
        split at ho
        · cases ho
          exact hm
        · cases ho
    · exact .pass hl.valid hheld (by simp [bypassed, cpuReady, hs, hl.isWrite, hm])
        fun h0 => absurd h0 hm
  | rsp =>
    simp only [Phase, hs] at hp
    obtain ⟨hl, hm, hnone, hrd⟩ := hp
    exact .answer hl.valid hm (Ram.ready_eq_false_of_none hnone) hrd

theorem state_next_of_idle {x : Word} {t : Bool} (h : b.state = .idle) (hv : q.valid = true) :
    (b.next q t x).state = .req := by
  simp [next, h, hv]

theorem state_next_of_req {x : Word} (h : b.state = .req) : (b.next q false x).state = .req := by
  simp [next, h]

theorem state_next_of_read {x : Word} (h : b.state = .req) (hw : b.isWrite = false) :
    (b.next q true x).state = .rsp := by
  simp [next, h, hw]

theorem cpuReady_of_rsp {t : Bool} (h : b.state = .rsp) : b.cpuReady t = true := by
  simp [cpuReady, h]

section

variable {r : CacheRam} {q : ℕ → CacheReq} {a : ℕ → Answer Word}

/-- The phase in every cycle of a run. -/
theorem phase (hq : bypassed.Held wordPort (reset, r) q a) (hr : r.held = none) (n : ℕ) :
    Phase (bypassed.trace wordPort (reset, r) q a n).1
      (bypassed.trace wordPort (reset, r) q a n).2 (q n) :=
  FrontEnd.trace_invariant (F := bypassed) (P := Phase) hq (fun _ => hr)
    (fun _ _ _ _ _ hp hq' => hp.step hq') n

/-- Every request is answered. -/
theorem answers (hq : bypassed.Held wordPort (reset, r) q a)
    (hfair : ∀ n, ∃ m, n ≤ m ∧ (a m).ready = true) {n : ℕ} (hv : (q n).valid = true) :
    bypassed.Answers wordPort (reset, r) q a n := by
  have hreq : ∀ n, (q n).valid = true →
      Bypass.state (bypassed.trace wordPort (reset, r) q a n).1 = .req →
      bypassed.Answers wordPort (reset, r) q a n := by
    intro n hv hs
    obtain ⟨m, hm, hqm, hW, hr⟩ := FrontEnd.exists_ready
      (W := fun t : Bypass => t.state = .req) hq hfair
      (fun t o h => by simp [bypassed, cpuReady, h])
      (fun t o h => by simp [bypassed, ramRequest, h])
      (fun t o x h => state_next_of_req h) hv hs
    apply FrontEnd.answers_of_later hm hqm
    cases hready : bypassed.readyAt wordPort (reset, r) q a m with
    | true => exact FrontEnd.answers_of_ready hready
    | false =>
      -- A read is answered in the next cycle.
      refine FrontEnd.answers_of_succ hq (by rw [hqm]; exact hv) hready fun _ => ?_
      change cpuReady _ _ = false at hready
      simp only [cpuReady, hW, hr, Bool.true_and] at hready
      refine FrontEnd.answers_of_ready (cpuReady_of_rsp ?_)
      rw [FrontEnd.trace_succ, FrontEnd.step, hr]
      exact state_next_of_read hW hready
  cases hs : Bypass.state (bypassed.trace wordPort (reset, r) q a n).1 with
  | idle =>
    refine FrontEnd.answers_of_succ hq hv ?_ fun hv' => ?_
    · change cpuReady _ _ = false
      simp [cpuReady, hs]
    · exact hreq (n + 1) hv' (state_next_of_idle hs hv)
  | req => exact hreq n hv hs
  | rsp => exact FrontEnd.answers_of_ready (cpuReady_of_rsp hs)

end

end Bypass

/-! ## The two paths agree -/

/-- The valid lines of the four ways in cycle `n` of a run. -/
def linesAt (p : Config) (s : Dcache p × CacheRam) (q : ℕ → CacheReq) (a : ℕ → Answer Word)
    (n : ℕ) : CacheLines.Lines (Fin 4) (BitVec p.idxBits) (BitVec p.tagBits) Word :=
  CacheSram.lines (Dcache.cacheD ((cached p).trace wordPort s q a n).1)

/-- The cached path is transparent, and no two ways of a set hold the same tag. -/
theorem cached_transparent {p : Config} {d : Dcache p} {r : CacheRam} {q : ℕ → CacheReq}
    {a : ℕ → Answer Word} (hd : d.IsReset) (hr : r.held = none)
    (hq : (cached p).Held wordPort (d, r) q a) :
    (cached p).Transparent wordPort (d, r) q a ∧
      ∀ n k t i j v w,
        linesAt p (d, r) q a n i k = some (t, v) → linesAt p (d, r) q a n j k = some (t, w) →
        i = j := by
  have hs : d.state = .idle := by
    obtain ⟨d₀, q₀, b, x, flush, rfl⟩ := hd
    rfl
  have hinv := Dcache.coherent_phase hq (hd.coherent r) hs hr
  constructor
  · exact FrontEnd.transparent_of_faithful (fun n => Dcache.faithful (hinv n).1 (hinv n).2)
      fun hfair n hv => Dcache.answers hq hfair hv
  · intro n k t i j v w hi hj
    obtain ⟨b, rfl, rfl, -⟩ := (hinv n).1.agrees _ _ _ _ hi
    exact (hinv n).1.unique b i j ⟨v, hi⟩ ⟨w, hj⟩

/-- The bypassed path is transparent. -/
theorem bypassed_transparent {r : CacheRam} {q : ℕ → CacheReq} {a : ℕ → Answer Word}
    (hr : r.held = none) (hq : bypassed.Held wordPort (Bypass.reset, r) q a) :
    bypassed.Transparent wordPort (Bypass.reset, r) q a :=
  FrontEnd.transparent_of_faithful (fun n => Bypass.faithful (Bypass.phase hq hr n))
    fun hfair _ hv => Bypass.answers hq hfair hv

/-- **Cached and bypassed path agree.**  For every number of sets, index hash and allocation
of full-word store misses, every sequence of requests held until they are answered and every
latency of the RAM: both paths behave as a flat memory, which is that of their RAM; after the
same requests they have returned the same values and their RAMs have the same contents; and
in every cycle no two ways of a set hold the same tag. -/
theorem cached_eq_bypassed {p : Config} {d : Dcache p} {r r' : CacheRam} {q q' : ℕ → CacheReq}
    {a a' : ℕ → Answer Word} (hd : d.IsReset) (hr : r.held = none) (hr' : r'.held = none)
    (hc : r.content = r'.content) (hq : (cached p).Held wordPort (d, r) q a)
    (hq' : bypassed.Held wordPort (Bypass.reset, r') q' a') :
    (cached p).Transparent wordPort (d, r) q a ∧
      bypassed.Transparent wordPort (Bypass.reset, r') q' a' ∧
      (∀ n n', (cached p).answered wordPort (d, r) q a n =
          bypassed.answered wordPort (Bypass.reset, r') q' a' n' →
        (cached p).returned wordPort (d, r) q a n =
            bypassed.returned wordPort (Bypass.reset, r') q' a' n' ∧
          ((cached p).trace wordPort (d, r) q a n).2.content =
            (bypassed.trace wordPort (Bypass.reset, r') q' a' n').2.content) ∧
      ∀ n k t i j v w,
        linesAt p (d, r) q a n i k = some (t, v) → linesAt p (d, r) q a n j k = some (t, w) →
        i = j := by
  obtain ⟨hF, hunique⟩ := cached_transparent hd hr hq
  have hG := bypassed_transparent hr' hq'
  exact ⟨hF, hG, fun _ _ h => hF.agree hG hc h, hunique⟩

/-- Two sets, the strong hash, and the same half-word store over and over. -/
theorem cached_eq_bypassed_half_word :
    let p : Config := ⟨1, true, 2, 0, 1, true⟩
    let d : Dcache p := Dcache.next
      ⟨.idle, ⟨fun _ _ => true, fun _ => 0, fun _ => ⟨fun _ => (0, 0), (0, 0)⟩⟩, 0, false, 0, 0,
        false, false, false, false, false, 0⟩ ⟨false, 0, 0, 0⟩ false 0 false false
    let r : CacheRam := ⟨fun _ => 0, none, 0⟩
    let q : ℕ → CacheReq := fun _ => ⟨true, 0x80000010#32, 0x3#4, 0xbeef#32⟩
    let a : ℕ → Answer Word := fun _ => ⟨true, 0⟩
    (cached p).Transparent wordPort (d, r) q a ∧
      bypassed.Transparent wordPort (Bypass.reset, r) q a := by
  intro p d r q a
  have hd : d.IsReset := ⟨_, _, _, _, _, rfl⟩
  have hq : (cached p).Held wordPort (d, r) q a := fun _ _ _ => rfl
  have hq' : bypassed.Held wordPort (Bypass.reset, r) q a := fun _ _ _ => rfl
  have h := cached_eq_bypassed hd rfl rfl rfl hq hq'
  exact ⟨h.1, h.2.1⟩

end V2

end KianRiscV
