/-
# Programs run as the specification says

From the first `FETCH` on, in machine mode over a fair memory, the processor with its memory
management unit goes through exactly the states of the RV32IMA machine: when the state machine comes
back to `FETCH` for the `n`-th time, registers, `PC`, memory and reservation are those after `n`
steps of the specification.

`Ready` is the invariant between two instructions.  For each group of instructions a lemma takes it
from one `FETCH` to the next; the run follows by induction on the number of instructions.
-/
import KianRiscV.MachineMode

namespace KianRiscV

open Rv32im

/-! ## Words of the memory -/

theorem physical_mod_four (a : Word) : (physical a).toNat % 4 = a.toNat % 4 := by
  rw [physical, BitVec.toNat_setWidth]
  have := a.isLt
  omega

theorem mod_four_iff (a : Word) : a.toNat % 4 = 0 ↔ a.extractLsb' 0 2 = 0#2 := by
  rw [← BitVec.toNat_inj, BitVec.extractLsb'_toNat, Nat.shiftRight_zero]
  rfl

/-- An aligned word of the bytes is a word of the memory. -/
theorem wordAt_bytesOf (content : BitVec 32 → Word) {a : Word} (h : a.toNat % 4 = 0) :
    wordAt (bytesOf content) a = content (wordAddr (physical a)) := by
  have h4 := (physical_mod_four a).trans h
  have hbyte : ∀ k, k < 4 → bytesOf content (physical a + BitVec.ofNat 34 k)
      = (content (wordAddr (physical a))).extractLsb' (8 * k) 8 := by
    intro k hk
    rw [bytesOf_add content (by omega), h4, Nat.zero_add]
  simp only [wordAt, loadBytes, Width.value]
  rw [hbyte 0 (by decide), hbyte 1 (by decide), hbyte 2 (by decide), hbyte 3 (by decide)]
  exact append_bytes _

/-- Replacing a word of the memory is a store to the bytes. -/
theorem bytesOf_replace (content : BitVec 32 → Word) {a : BitVec 34} (h : a.toNat % 4 = 0)
    (v : Word) : bytesOf (fun b => if b = wordAddr a then v else content b)
      = storeBytes .word (bytesOf content) a v := by
  have hal : a.toNat % Width.word.bytes = 0 := h
  have hlow : (0#2).toNat = a.toNat % 4 := by
    rw [h]
    rfl
  rw [← bytesOf_served content hal hlow v]
  congr 1
  funext b
  split
  · simp [storeOpOf, storeWmask, storeAlignment, mergeBytes_full]
  · rfl

namespace System

variable {iw dw : ℕ} {p : Params} {s t : System iw dw} {i : SystemIn} {inp : ℕ → SystemIn}
  {w : Word} {m m' : Machine} {k n : ℕ}

/-! ## Between instructions -/

/-- The next instruction can begin. -/
structure Ready (s : System iw dw) : Prop extends Steady s where
  begins : s.Begins
  settled : s.cpu.core.Settled

/-- The system is in the state of the machine; the processor keeps of a reservation only that there
is one. -/
structure Represents (m : Machine) (s : System iw dw) : Prop where
  arch : s.cpu.core.arch = m.arch
  bytes : bytesOf s.mem.content = m.bytes
  reserved : s.cpu.core.amoReservedStateLoad = m.reservation.isSome

theorem Ready.waiting (h : s.Ready) : s.Waiting := by
  refine ⟨h.toSteady, ?_, ?_, h.begins.fetchAligned⟩
  · rw [h.begins.state]
    rfl
  · unfold Core.memValid
    rw [h.begins.state]
    rfl

theorem Steady.ready (h : t.Steady) (hst : t.cpu.core.state = .fetch) (hset : t.cpu.core.Settled)
    (hal : t.cpu.core.pc.extractLsb' 0 2 = 0#2) : t.Ready :=
  ⟨h, ⟨hst, h.inStep, hset.exceptionSelect, hal⟩, hset⟩

/-- In states that leave the control and status registers alone and present aligned fetches only,
the system stays steady. -/
theorem steady_run (h : (Sync.run (System.next p) s inp k).Steady)
    (hq : ∀ j, k ≤ j → j < n →
      Core.touchesCsr (Sync.run (System.next p) s inp j).cpu.core.state = false ∧
        (Sync.run (System.next p) s inp j).FetchAligned) :
    ∀ j, k ≤ j → j ≤ n → (Sync.run (System.next p) s inp j).Steady := by
  intro j hkj
  induction j, hkj using Nat.le_induction with
  | base => exact fun _ => h
  | succ j hkj ih =>
    intro hj
    obtain ⟨hc, hal⟩ := hq j hkj (by omega)
    exact (ih (by omega)).next hc hal

theorem fetchAligned_of_not_isInstr (h : isInstruction t.cpu.core.state = false) :
    t.FetchAligned := fun _ hi => absurd (h.symm.trans hi) (by decide)

/-- A state that presents the next fetch presents it from `PC`. -/
theorem fetchAligned_of_pc (h : t.cpu.core.pc.extractLsb' 0 2 = 0#2)
    (hp : presentsFetch t.cpu.core.state = true ∨ t.cpu.core.state = .fetch) : t.FetchAligned := by
  intro _ _
  rw [(Core.memAddr_of_presentsFetch hp).1]
  exact h

/-- The word at `PC`. -/
def fetchWord (s : System iw dw) : Word := s.mem.content (wordAddr (physical s.cpu.core.pc))

/-- The instruction that begins in `s` is fetched in cycle `k`. -/
structure FetchedAt (p : Params) (s : System iw dw) (inp : ℕ → SystemIn) (k : ℕ) : Prop where
  fetches : Fetches p s inp s.fetchWord k
  steady : ∀ j, j ≤ k + 1 → (Sync.run (System.next p) s inp j).Steady

/-- The fetch comes to an end. -/
theorem Ready.fetchedAt (hfair : Fair inp) (h : s.Ready) : ∃ k, FetchedAt p s inp k := by
  obtain ⟨k, hw, ha⟩ := Waiting.exists_answer (p := p) (s := s) (k := 0) hfair h.waiting
  have hwait := hw.waiting k hw.le le_rfl
  have hnext : (Sync.run (System.next p) s inp (k + 1)).Steady :=
    hwait.toSteady.next (Core.touchesCsr_of_memValid hwait.valid) hwait.aligned
  have henv : Fetches p s inp ((Sync.run (System.next p) s inp k).coreIn (inp k)).memRdata k :=
    ⟨fun j hj => ha.wait j (Nat.zero_le j) hj, ha.ready, rfl, ha.noAccessFault, hnext.pending _⟩
  have hk := henv.fetching h.begins h.settled k le_rfl
  -- the answer is the word at the physical address of `PC`
  obtain ⟨hdata, hout, -, -⟩ := hk.begins.inStep.readAnswer ha.ready ha.noAccessFault
  rw [hwait.outcome, Option.some.injEq, Outcome.physical.injEq,
    (Core.memAddr_of_presentsFetch (.inr hk.begins.state)).1] at hout
  have hpc : (Sync.run (System.next p) s inp k).cpu.core.pc = s.cpu.core.pc :=
    congrArg Arch.pc hk.arch
  rw [hk.content, ← hout, hpc] at hdata
  rw [hdata] at henv
  refine ⟨k, henv, fun j hj => ?_⟩
  rcases Nat.lt_or_eq_of_le hj with hlt | rfl
  · exact (hw.waiting j (Nat.zero_le j) (by omega)).toSteady
  · exact hnext

/-- The instruction that begins in `s` and is fetched in cycle `k` leads to the state `m'` when the
state machine comes back to `FETCH` in cycle `n`. -/
structure Leads (p : Params) (s : System iw dw) (inp : ℕ → SystemIn) (k n : ℕ) (m' : Machine) :
    Prop where
  lands : NextFetch (fun j => (Sync.run (System.next p) s inp j).cpu.core) k n
  ready : (Sync.run (System.next p) s inp n).Ready
  represents : Represents m' (Sync.run (System.next p) s inp n)

theorem FetchedAt.states (hk : FetchedAt p s inp k) (h : s.Ready) {j : ℕ} (hj : j ≤ k) :
    (Sync.run (System.next p) s inp j).cpu.core.state = .fetch :=
  (hk.fetches.fetching h.begins h.settled j hj).begins.state

/-- The machine's word and the memory's. -/
theorem Represents.word (hm : Represents m s) (hal : s.cpu.core.pc.extractLsb' 0 2 = 0#2) :
    wordAt m.bytes m.arch.pc = s.fetchWord := by
  have hpc : s.cpu.core.pc = m.arch.pc := congrArg Arch.pc hm.arch
  rw [← hm.bytes, ← hpc]
  exact wordAt_bytesOf _ ((mod_four_iff _).2 hal)

/-- The states that touch neither the memory, the reservation nor the control and status
registers. -/
structure RegistersOnly (st : FsmState) : Prop where
  csr : Core.touchesCsr st = false
  reservation : Core.reserves st = false
  memory : Core.storesData st = false
  ne_fetch : st ≠ .fetch

/-- An instruction that goes through such states leads to a state with new registers and `PC`. -/
theorem leads_of_registersOnly {x : Arch} (h : s.Ready) (hm : Represents m s)
    (hk : FetchedAt p s inp k) (hkn : k < n)
    (hq : ∀ j, k < j → j < n →
      RegistersOnly (Sync.run (System.next p) s inp j).cpu.core.state ∧
        (Sync.run (System.next p) s inp j).FetchAligned)
    (hst : (Sync.run (System.next p) s inp n).cpu.core.state = .fetch)
    (harch : (Sync.run (System.next p) s inp n).cpu.core.arch = x)
    (hset : (Sync.run (System.next p) s inp n).cpu.core.Settled)
    (hal : x.pc.extractLsb' 0 2 = 0#2) : Leads p s inp k n { m with arch := x } := by
  obtain ⟨-, hu⟩ := hk.fetches.decode h.begins h.settled
  have hsteady := steady_run (n := n) (hk.steady (k + 1) le_rfl)
    fun j hkj hj => ⟨(hq j hkj hj).1.csr, (hq j hkj hj).2⟩
  have hmem : ∀ j, k + 1 ≤ j → j ≤ n →
      (Sync.run (System.next p) s inp j).mem.content = s.mem.content := by
    intro j hkj
    induction j, hkj using Nat.le_induction with
    | base => exact fun _ => hu.content
    | succ j hkj ih =>
      intro hj
      exact (content_next_of_read (hsteady j hkj (by omega)).inStep.phase
        (Core.memWstrb_eq_zero (hq j hkj (by omega)).1.memory)).trans (ih (by omega))
  have hres : s.cpu.core.Untouched (Sync.run (System.next p) s inp n).cpu.core := by
    refine untouched_run fun j hj => ?_
    rcases Nat.lt_or_ge k j with hkj | hjk
    · exact ⟨(hq j hkj hj).1.csr, (hq j hkj hj).1.reservation⟩
    · rw [hk.states h hjk]
      exact ⟨rfl, rfl⟩
  refine ⟨⟨hkn, fun j hkj hj => (hq j hkj hj).1.ne_fetch, hst⟩,
    (hsteady n hkn le_rfl).ready hst hset ?_, harch, ?_, ?_⟩
  · exact (congrArg (BitVec.extractLsb' 0 2) (congrArg Arch.pc harch)).trans hal
  · rw [hmem n hkn le_rfl]
    exact hm.bytes
  · rw [hres.reservation]
    exact hm.reserved

/-! ## Integer instructions -/

/-- The states of an integer instruction after its fetch. -/
def integerPath (st : FsmState) : Bool := Core.executesInteger st || st == .aluWb || st == .mulWb

theorem integerPath_quiet {st : FsmState} (h : integerPath st = true) :
    RegistersOnly st ∧ waitsForBus st = false ∧ Core.movesPc st = false ∧
      (isInstruction st = true → presentsFetch st = true) := by
  cases st <;>
    first
    | exact absurd h (by decide)
    | exact ⟨⟨rfl, rfl, rfl, by decide⟩, rfl, rfl, by decide⟩

theorem opOf_of_decode {instr : Instr} (h : decode w = some instr) :
    opOf w = 0b0110011#7 ∨ opOf w = 0b0010011#7 ∨ opOf w = 0b0110111#7 ∨ opOf w = 0b0010111#7 := by
  unfold decode at h
  split_ifs at h with h1 h2 h3 h4
  · exact .inl h1
  · exact .inr (.inl h2)
  · exact .inr (.inr (.inl h3))
  · exact .inr (.inr (.inr h4))

theorem integerPath_next {st : FsmState} {j : FsmIn} {instr : Instr} (h : integerPath st = true)
    (hdec : decode j.instr = some instr) (hirq : j.irq.pending = false) :
    stateNxt st j = .fetch ∨ integerPath (stateNxt st j) = true := by
  cases st <;> first | exact absurd h (by decide) | exact .inl rfl | exact .inr rfl | skip
  · right
    rcases opOf_of_decode hdec with hop | hop | hop | hop <;>
      simp only [stateNxt, decodeNxt, hirq, isLoad, isStore, isRtype, isItype, isJal, isJalr,
        isBranch, isLui, isAuipc, hop]
    · cases j.instr.getLsbD 25 <;> rfl
    · rfl
    · rfl
    · rfl
  · right
    cases hr : j.mulExtReady <;> simp [stateNxt, hr, integerPath, Core.executesInteger]

/-- What the core sees, with the stalls left out. -/
def calmed (p : Params) (t : System iw dw) (inp : ℕ → SystemIn) (j : ℕ) : CoreIn :=
  { (Sync.run (System.next p) t inp j).coreIn (inp j) with stall := false }

/-- On the path of an integer instruction the core is not stalled. -/
theorem integer_follows (h : t.InStep)
    (hq : ∀ j, j < n →
      integerPath (coreRun p t.cpu.core (calmed p t inp) j).state = true ∧
        (coreRun p t.cpu.core (calmed p t inp) j).pc.extractLsb' 0 2 = 0#2) :
    ∀ j, j ≤ n → (Sync.run (System.next p) t inp j).cpu.core
        = coreRun p t.cpu.core (calmed p t inp) j ∧
      (Sync.run (System.next p) t inp j).InStep ∧
      (j < n → (Sync.run (System.next p) t inp j).FetchAligned) := by
  have haligned : ∀ j, j < n → (Sync.run (System.next p) t inp j).cpu.core
      = coreRun p t.cpu.core (calmed p t inp) j →
        (Sync.run (System.next p) t inp j).FetchAligned := by
    intro j hj hcore
    obtain ⟨hpath, hpc⟩ := hq j hj
    rw [← hcore] at hpath hpc
    obtain ⟨-, -, -, hp⟩ := integerPath_quiet hpath
    intro hv hi
    exact fetchAligned_of_pc hpc (.inl (hp hi)) hv hi
  intro j
  induction j with
  | zero => exact fun _ => ⟨rfl, h, fun hj => haligned 0 hj rfl⟩
  | succ j ih =>
    intro hj
    obtain ⟨hcore, hin, hal⟩ := ih (by omega)
    obtain ⟨hpath, -⟩ := hq j (by omega)
    rw [← hcore] at hpath
    obtain ⟨-, hb, -, -⟩ := integerPath_quiet hpath
    have hstall := (coreIn_of_idle (i := inp j) (hin.idle hb)).1
    have hcalm : calmed p t inp j = (Sync.run (System.next p) t inp j).coreIn (inp j) := by
      rw [calmed, ← hstall]
    have hcore' : (Sync.run (System.next p) t inp (j + 1)).cpu.core
        = coreRun p t.cpu.core (calmed p t inp) (j + 1) := by
      rw [coreRun_succ, ← hcore, hcalm]
      rfl
    exact ⟨hcore', hin.next (hal (by omega)), fun hlt => haligned (j + 1) hlt hcore'⟩

/-- The core stays on the path until it is back in `FETCH`, with `PC` at the next instruction. -/
theorem integer_path {c : Core} {inp : ℕ → CoreIn} {x : Arch} {instr : Instr}
    (hd : c.state = .decode) (hfl : c.InFlight w x) (hdec : decode w = some instr)
    (hmode : c.csr.MachineOnly) (hcalm : ∀ j, (inp j).stall = false)
    (hno : ∀ j, j < n → (coreRun p c inp j).state ≠ .fetch) :
    ∀ j, j < n → integerPath (coreRun p c inp j).state = true ∧
      (coreRun p c inp j).pc = x.pc + 4#32 ∧ (coreRun p c inp j).instr = w ∧
      (coreRun p c inp j).csr.MachineOnly := by
  intro j
  induction j with
  | zero =>
    intro _
    refine ⟨?_, congrArg Arch.pc hfl.arch, hfl.instr, hmode⟩
    show integerPath c.state = true
    rw [hd]
    rfl
  | succ j ih =>
    intro hj
    obtain ⟨hpath, hpc, hinstr, hm⟩ := ih (by omega)
    obtain ⟨⟨hc, -, -, hf⟩, -, hmv, -⟩ := integerPath_quiet hpath
    rw [coreRun_succ]
    have hnext := Core.next_state p (coreRun p c inp j) (hcalm j)
    refine ⟨?_, ?_, (Core.next_instr hf).1.trans hinstr, hm.of_countsOn
      (CsrUnit.linesOnly_of_quiet (Core.csrIn_quiet hc (inp j)) p.systemClk).rest⟩
    · have hfetch := hno (j + 1) hj
      rw [coreRun_succ, hnext] at hfetch
      rw [hnext]
      exact (integerPath_next hpath (by rw [← hinstr] at hdec; exact hdec)
        (hm.pending _ _ _ _)).resolve_left hfetch
    · rw [Core.next_pc (Core.pcWrite_of_not_movesPc hmv)]
      exact hpc

/-- An integer instruction. -/
theorem integer_leads {instr : Instr} (h : s.Ready) (hm : Represents m s)
    (hk : FetchedAt p s inp k)
    (hdec : decode s.fetchWord = some instr) :
    ∃ n, Leads p s inp k n { m with arch := Rv32im.step instr m.arch } := by
  obtain ⟨hd, hu⟩ := hk.fetches.decode h.begins h.settled
  have hsteady := hk.steady (k + 1) le_rfl
  have hcalm : ∀ j, (calmed p (Sync.run (System.next p) s inp (k + 1)) (fun j => inp (k + 1 + j))
    j).stall = false := fun _ => rfl
  obtain ⟨n, hbefore, hn, harch, hset⟩ := completes_decode (p := p) hd hu.flight hu.settled
    (fun j _ => hcalm j) (hsteady.pending _) hdec
  have hpath := integer_path hd hu.flight hdec hsteady.mode hcalm
    fun j hj => (hbefore j hj).1
  have hal : (s.cpu.core.pc + 4#32).extractLsb' 0 2 = 0#2 := aligned_add_four h.begins.aligned
  have hfollow := integer_follows hu.inStep fun j hj =>
    ⟨(hpath j hj).1, (congrArg (BitVec.extractLsb' 0 2) (hpath j hj).2.1).trans hal⟩
  have hrun : ∀ j, Sync.run (System.next p) s inp (k + 1 + j)
      = Sync.run (System.next p) (Sync.run (System.next p) s inp (k + 1)) (fun j => inp (k + 1 + j)) j :=
    fun j => Sync.run_add (System.next p) s inp (k + 1) j
  obtain ⟨hcore, -, -⟩ := hfollow n le_rfl
  rw [← hrun] at hcore
  rw [← hcore] at hn harch hset
  refine ⟨k + 1 + n, leads_of_registersOnly h hm hk (by omega) (fun j hkj hj => ?_) hn
    (harch.trans (by rw [hm.arch])) hset ?_⟩
  · obtain ⟨l, rfl⟩ := Nat.exists_eq_add_of_le (show k + 1 ≤ j by omega)
    obtain ⟨hc, -, hfa⟩ := hfollow l (by omega)
    rw [hrun, hc]
    exact ⟨(integerPath_quiet (hpath l (by omega)).1).1, hfa (by omega)⟩
  · rw [← hm.arch]
    exact hal

/-! ## Control transfers and fences -/

theorem InStep.noStall (h : t.InStep) (hb : waitsForBus t.cpu.core.state = false) :
    (t.coreIn i).stall = false := (coreIn_of_idle (h.idle hb)).1

/-- What `DECODE` leaves behind. -/
structure Decoded (w : Word) (s t : System iw dw) : Prop where
  flight : t.cpu.core.InFlight w s.cpu.core.arch
  a1 : t.cpu.core.a1 = s.cpu.core.arch.x (rs1Of w)
  a2 : t.cpu.core.a2 = s.cpu.core.arch.x (rs2Of w)
  aluOut : t.cpu.core.aluOut = s.cpu.core.pc + immExtOf w
  settled : t.cpu.core.Settled
  steady : t.Steady

/-- `DECODE` goes where the word says, since no interrupt takes its place. -/
theorem FetchedAt.decoded (hk : FetchedAt p s inp k) (h : s.Ready) :
    (Sync.run (System.next p) s inp (k + 1)).cpu.core.state = .decode ∧
      (∃ j : FsmIn, j.instr = s.fetchWord ∧
        j.irq.pending = false ∧
        (Sync.run (System.next p) s inp (k + 2)).cpu.core.state = decodeNxt j) ∧
      Decoded s.fetchWord s
        (Sync.run (System.next p) s inp (k + 2)) := by
  obtain ⟨hd, hu⟩ := hk.fetches.decode h.begins h.settled
  have hsteady := hk.steady (k + 1) le_rfl
  obtain ⟨hst, hfl, ha1, ha2, hsum, hset⟩ := decode_edge (p := p) hd hu.flight hu.settled
    (hu.inStep.noStall (i := inp (k + 1)) (by rw [hd]; rfl))
  exact ⟨hd, ⟨_, hu.flight.instr, hsteady.pending _, hst⟩, hfl, ha1, ha2, hsum, hset,
    hsteady.next (by rw [hd]; rfl) (fetchAligned_of_not_isInstr (by rw [hd]; rfl))⟩

theorem registersOnly_decode : RegistersOnly .decode := ⟨rfl, rfl, rfl, by decide⟩

/-- A fence. -/
theorem fence_leads (h : s.Ready) (hm : Represents m s) (hk : FetchedAt p s inp k)
    (hdec : decodeFence s.fetchWord = some .fence) :
    ∃ n, Leads p s inp k n { m with arch := ⟨m.arch.x, m.arch.pc + 4#32⟩ } := by
  obtain ⟨hd, ⟨j, hj, hirq, hst⟩, hdecd⟩ := hk.decoded h
  have hop : opOf s.fetchWord = 0b0001111#7 ∧
      (funct3Of s.fetchWord = 0b000#3 ∨
        funct3Of s.fetchWord = 0b001#3) := by
    unfold decodeFence at hdec
    split_ifs at hdec with hop
    exact hop
  rw [← hj] at hop
  have hfetch : decodeNxt j = .fetch := by
    rcases hop with ⟨hop, h3 | h3⟩ <;>
      simp [decodeNxt, hirq, isLoad, isStore, isRtype, isItype, isJal, isJalr, isBranch, isLui,
        isAuipc, isCsr, isAmo, isSfenceVma, isFence, isFenceI, hop, h3]
  refine ⟨k + 2, leads_of_registersOnly h hm hk (by omega) (fun l hkl hl => ?_)
    (hst.trans hfetch) ?_ hdecd.settled ?_⟩
  · obtain rfl : l = k + 1 := by omega
    rw [hd]
    exact ⟨registersOnly_decode, fetchAligned_of_not_isInstr (by rw [hd]; rfl)⟩
  · rw [hdecd.flight.arch, hm.arch]
  · rw [← hm.arch]
    exact aligned_add_four h.begins.aligned

/-- The jump writes `PC` and, back in `FETCH`, its link register. -/
theorem jump_leads {t : Transfer} {j : ℕ} {a : Word} (h : s.Ready) (hm : Represents m s)
    (hk : FetchedAt p s inp k) (hkj : k < j)
    (hq : ∀ l, k < l → l < j →
      RegistersOnly (Sync.run (System.next p) s inp l).cpu.core.state ∧
        (Sync.run (System.next p) s inp l).FetchAligned)
    (hst : (Sync.run (System.next p) s inp j).cpu.core.state = .jal)
    (hfl : (Sync.run (System.next p) s inp j).cpu.core.InFlight
      s.fetchWord s.cpu.core.arch)
    (hsum : (Sync.run (System.next p) s inp j).cpu.core.aluOut = a)
    (hset : (Sync.run (System.next p) s inp j).cpu.core.Settled)
    (hsteady : (Sync.run (System.next p) s inp j).Steady)
    (ht : t.step m.arch = ⟨fun r => if r = rdOf s.fetchWord ∧
      r ≠ 0#5 then m.arch.pc + 4#32 else m.arch.x r, a⟩)
    (hal : a.extractLsb' 0 2 = 0#2) :
    ∃ n, Leads p s inp k n { m with arch := t.step m.arch } := by
  obtain ⟨hst1, hinstr, harch1, hlink, hset1⟩ := jal_edge (p := p) hst hfl hset
    (hsteady.inStep.noStall (i := inp j) (by rw [hst]; rfl))
  have hsteady1 : (Sync.run (System.next p) s inp (j + 1)).Steady :=
    hsteady.next (by rw [hst]; rfl) (fetchAligned_of_not_isInstr (by rw [hst]; rfl))
  rw [← next_core, ← Sync.run_succ (System.next p)] at hst1 hinstr harch1 hlink hset1
  obtain ⟨hst2, harch2, hset2⟩ := link_edge (p := p) hst1 hinstr hset1
    (hsteady1.inStep.noStall (i := inp (j + 1)) (by rw [hst1]; rfl))
  rw [← next_core, ← Sync.run_succ (System.next p)] at hst2 harch2 hset2
  rw [harch1, hlink, hsum] at harch2
  refine ⟨j + 2, leads_of_registersOnly h hm hk (by omega) (fun l hkl hl => ?_) hst2 ?_ hset2 ?_⟩
  · obtain hlt | rfl | rfl : l < j ∨ l = j ∨ l = j + 1 := by omega
    · exact hq l hkl hlt
    · rw [hst]
      exact ⟨⟨rfl, rfl, rfl, by decide⟩, fetchAligned_of_not_isInstr (by rw [hst]; rfl)⟩
    · rw [hst1]
      refine ⟨⟨rfl, rfl, rfl, by decide⟩, fetchAligned_of_pc ?_ (.inl (by rw [hst1]; rfl))⟩
      rw [show (Sync.run (System.next p) s inp (j + 1)).cpu.core.pc = a from
        (congrArg Arch.pc harch1).trans hsum]
      exact hal
  · rw [harch2, ht, ← hm.arch]
  · rw [ht]
    exact hal

/-- A control transfer to an aligned target, other than an odd jump. -/
theorem transfer_leads {t : Transfer} (h : s.Ready) (hm : Represents m s)
    (hk : FetchedAt p s inp k)
    (hdec : decodeTransfer s.fetchWord = some t)
    (hal : (t.target m.arch).toNat % 4 = 0) (hodd : ¬ OddJump t m.arch) :
    ∃ n, Leads p s inp k n { m with arch := t.step m.arch } := by
  have hsum : sumOf t m.arch = t.target m.arch := by
    rcases sumOf_cases t m.arch with ⟨-, hs⟩ | ⟨-, hno, -⟩ | ⟨ho, -⟩
    · exact hs
    · exact absurd hal hno
    · exact absurd ho hodd
  have hpc := h.begins.aligned
  rw [mod_four_iff, ← hsum] at hal
  obtain ⟨hd, ⟨j, hj, hirq, hst⟩, hdecd⟩ := hk.decoded h
  have hdecode : ∀ l, k < l → l < k + 2 →
      RegistersOnly (Sync.run (System.next p) s inp l).cpu.core.state ∧
        (Sync.run (System.next p) s inp l).FetchAligned := by
    intro l hkl hl
    obtain rfl : l = k + 1 := by omega
    rw [hd]
    exact ⟨registersOnly_decode, fetchAligned_of_not_isInstr (by rw [hd]; rfl)⟩
  have hnoStall := hdecd.steady.inStep.noStall (i := inp (k + 2))
  rcases decodeTransfer_cases hdec with ⟨hop, rfl⟩ | ⟨hop, rfl⟩ | ⟨hop, f, hf, rfl⟩
  · rw [← hj] at hop
    have hjal : decodeNxt j = .jal := by
      simp [decodeNxt, hirq, isLoad, isStore, isRtype, isItype, isJal, hop]
    refine jump_leads h hm hk (by omega) hdecode (hst.trans hjal) hdecd.flight hdecd.aluOut
      hdecd.settled hdecd.steady ?_ ?_
    · rw [← hm.arch]
      simp only [Transfer.step, Transfer.link, Option.some.injEq, eq_comm (a := rdOf _)]
      rfl
    · rw [← hm.arch] at hal
      exact hal
  · rw [← hj] at hop
    have hjalr : decodeNxt j = .jalr := by
      simp [decodeNxt, hirq, isLoad, isStore, isRtype, isItype, isJal, isJalr, hop]
    rw [hjalr] at hst
    obtain ⟨hst1, hfl1, hsum1, hset1⟩ := jalr_edge (p := p) hst hdecd.flight hdecd.a1 hdecd.settled
      (hnoStall (by rw [hst]; rfl))
    have hsteady1 : (Sync.run (System.next p) s inp (k + 3)).Steady :=
      hdecd.steady.next (by rw [hst]; rfl) (fetchAligned_of_not_isInstr (by rw [hst]; rfl))
    refine jump_leads h hm hk (j := k + 3) (by omega) (fun l hkl hl => ?_) hst1 hfl1 hsum1 hset1
      hsteady1 ?_ ?_
    · rcases Nat.lt_or_ge l (k + 2) with hlt | hge
      · exact hdecode l hkl hlt
      · obtain rfl : l = k + 2 := by omega
        rw [hst]
        exact ⟨⟨rfl, rfl, rfl, by decide⟩, fetchAligned_of_not_isInstr (by rw [hst]; rfl)⟩
    · rw [← hm.arch] at hsum ⊢
      simp only [Transfer.step, Transfer.link, Option.some.injEq, eq_comm (a := rdOf _)]
      exact congrArg _ hsum.symm
    · rw [← hm.arch] at hal
      exact hal
  · rw [← hj] at hop
    have hbranch : decodeNxt j = .branch := by
      simp [decodeNxt, hirq, isLoad, isStore, isRtype, isItype, isJal, isJalr, isBranch, hop]
    rw [hbranch] at hst
    obtain ⟨hst1, harch1, hset1⟩ := branch_edge (p := p) hst hdecd.flight hdecd.a1 hdecd.a2
      hdecd.settled hf (hnoStall (by rw [hst]; rfl))
    rw [hdecd.aluOut] at harch1
    refine ⟨k + 3, leads_of_registersOnly h hm hk (by omega) (fun l hkl hl => ?_) hst1 ?_ hset1 ?_⟩
    · rcases Nat.lt_or_ge l (k + 2) with hlt | hge
      · exact hdecode l hkl hlt
      · obtain rfl : l = k + 2 := by omega
        have hp : presentsFetch (Sync.run (System.next p) s inp (k + 2)).cpu.core.state = true := by
          rw [hst]
          rfl
        refine ⟨by rw [hst]; exact ⟨rfl, rfl, rfl, by decide⟩, fetchAligned_of_pc ?_ (.inl hp)⟩
        exact (congrArg (BitVec.extractLsb' 0 2) (congrArg Arch.pc hdecd.flight.arch)).trans
          (aligned_add_four hpc)
    · rw [show (Sync.run (System.next p) s inp (k + 3)).cpu.core.arch = _ from harch1, ← hm.arch]
      simp [Transfer.step, Transfer.link, Transfer.target]
      rfl
    · rw [← hsum] at *
      exact hal

/-! ## Loads and stores -/

/-- The cycle keeps the system steady. -/
structure Passes (t : System iw dw) : Prop where
  csr : Core.touchesCsr t.cpu.core.state = false
  aligned : t.FetchAligned

/-- It leaves the reservation alone as well. -/
structure Quiet (t : System iw dw) : Prop extends Passes t where
  reservation : Core.reserves t.cpu.core.state = false

theorem FetchedAt.steady_of_passes (hk : FetchedAt p s inp k)
    (hq : ∀ j, k < j → j < n → (Sync.run (System.next p) s inp j).Passes) :
    ∀ j, k < j → j ≤ n → (Sync.run (System.next p) s inp j).Steady :=
  steady_run (hk.steady (k + 1) le_rfl) fun j hkj hj => ⟨(hq j hkj hj).csr, (hq j hkj hj).aligned⟩

/-- The reservation after quiet cycles. -/
theorem FetchedAt.untouched (hk : FetchedAt p s inp k) (h : s.Ready)
    (hq : ∀ j, k < j → j < n → (Sync.run (System.next p) s inp j).Quiet) :
    s.cpu.core.Untouched (Sync.run (System.next p) s inp n).cpu.core := by
  refine untouched_run fun j hj => ?_
  rcases Nat.lt_or_ge k j with hkj | hjk
  · exact ⟨(hq j hkj hj).csr, (hq j hkj hj).reservation⟩
  · rw [hk.states h hjk]
    exact ⟨rfl, rfl⟩

theorem quiet_of_beforeWriteBack (h : beforeWriteBack t.cpu.core.state = true) : t.Quiet := by
  obtain ⟨-, -, -, -, hc, hins⟩ := carriesOn_quiet (carriesOn_of_beforeWriteBack h)
  refine ⟨⟨hc, fetchAligned_of_not_isInstr hins⟩, ?_⟩
  cases hst : t.cpu.core.state <;> rw [hst] at h <;> first | rfl | exact absurd h (by decide)

/-- The cycles of a load or store whose access is answered. -/
theorem FetchedAt.accessed {i : MemInstr} (hk : FetchedAt p s inp k) (h : s.Ready)
    (hdec : decodeMem s.fetchWord = some i)
    (hal : unaligned s.fetchWord
      (addressOf s.fetchWord s) = false) {m : ℕ}
    (hans : AnsweredIn p s inp (k + 3) m) :
    ∃ n, NextFetch (fun j => (Sync.run (System.next p) s inp j).cpu.core) k n ∧
      ∀ j, k < j → j < n → (Sync.run (System.next p) s inp j).Quiet := by
  have hw := isLoad_or_isStore hdec
  obtain ⟨-, -, hacc⟩ := hk.fetches.accessing h.begins h.settled hw
  have hbetween := hk.fetches.between h.begins h.settled hw hal hans.wait
  have hm := hacc.run hal hans.wait m hans.le le_rfl
  have hle := hans.le
  have hne : ∀ j, k < j → j ≤ m → (Sync.run (System.next p) s inp j).cpu.core.state ≠ .fetch :=
    fun j hkj hj => (beforeWriteBack_states (hbetween j hkj hj)).2.1
  cases hl : isLoad s.fetchWord with
  | true =>
    obtain ⟨hwb, hu, -⟩ := hm.load_next (p := p) hl hans.ready hans.noAccessFault
    rw [← Sync.run_succ (System.next p)] at hwb hu
    obtain ⟨hb, -⟩ := hu.writeBack_next (p := p) (i := inp (m + 1)) hwb h.begins.aligned
    refine ⟨m + 2, ⟨by omega, fun j hkj hj => ?_, hb.state⟩, fun j hkj hj => ?_⟩
    · obtain hjm | rfl : j ≤ m ∨ j = m + 1 := by omega
      · exact hne j hkj hjm
      · rw [hwb]
        decide
    · obtain hjm | rfl : j ≤ m ∨ j = m + 1 := by omega
      · exact quiet_of_beforeWriteBack (hbetween j hkj hjm)
      -- the write-back presents the next fetch
      · refine ⟨⟨by rw [hwb]; rfl, fetchAligned_of_pc ?_ (.inl (by rw [hwb]; rfl))⟩,
          by rw [hwb]; rfl⟩
        exact (congrArg (BitVec.extractLsb' 0 2) (congrArg Arch.pc hu.flight.arch)).trans
          (aligned_add_four h.begins.aligned)
  | false =>
    obtain ⟨hb, -⟩ := hm.store_next (p := p) hl hans.ready hans.noAccessFault h.begins.aligned
    exact ⟨m + 1, ⟨by omega, fun j hkj hj => hne j hkj (by omega), hb.state⟩,
      fun j hkj hj => quiet_of_beforeWriteBack (hbetween j hkj (by omega))⟩

/-- A load or store at an address that its width divides. -/
theorem mem_leads {i : MemInstr} (hfair : Fair inp) (h : s.Ready) (hm : Represents m s)
    (hk : FetchedAt p s inp k)
    (hdec : decodeMem s.fetchWord = some i)
    (hal : (i.address m.arch).toNat % i.width.bytes = 0) :
    ∃ n, Leads p s inp k n
      { m with
        arch := (i.step (physical (i.address m.arch)) m.arch m.bytes).1
        bytes := (i.step (physical (i.address m.arch)) m.arch m.bytes).2 } := by
  rw [← hm.arch] at hal
  have hw := isLoad_or_isStore hdec
  have hver : unaligned s.fetchWord
      (addressOf s.fetchWord s) = false := by
    by_contra hno
    refine ((unaligned_iff hdec _).1 (Bool.eq_true_of_not_eq_false hno)).2 ?_
    rw [← address_eq hdec]
    exact hal
  obtain ⟨hst1, -⟩ := hk.fetches.decode h.begins h.settled
  obtain ⟨hst2, -, hacc⟩ := hk.fetches.accessing h.begins h.settled hw
  have hsteady : (Sync.run (System.next p) s inp (k + 3)).Steady := by
    refine hk.steady_of_passes (n := k + 3) (fun j hkj hj => ?_) (k + 3) (by omega) le_rfl
    apply (quiet_of_beforeWriteBack ?_).toPasses
    obtain rfl | rfl : j = k + 1 ∨ j = k + 2 := by omega
    · rw [hst1]
      rfl
    · rw [hst2]
      rfl
  have hwaits : waitsForBus (accessState s.fetchWord) = true ∧
      isInstruction (accessState s.fetchWord) = false := by
    unfold accessState
    split <;> exact ⟨rfl, rfl⟩
  rw [← hacc.state] at hwaits
  -- the access is answered, and the step is taken
  obtain ⟨a, -, hans⟩ := Waiting.exists_answer hfair ⟨hsteady, hwaits.1, by rw [hacc.memValid, hver]; rfl,
    fetchAligned_of_not_isInstr hwaits.2⟩
  have henv : Serves p s inp s.fetchWord k :=
    ⟨hk.fetches, fun _ => ⟨a, hans.le, hans.wait, hans.ready, hans.noAccessFault⟩⟩
  obtain ⟨n, pa, hnext, ⟨j, hkj, hjn, haddr, -, hout⟩, hstep, hb, hset, -⟩ :=
    henv.performs h.begins h.settled hdec hal
  obtain ⟨n', hnext', hq⟩ := hk.accessed h hdec hver hans
  obtain rfl := hnext.unique hnext'
  have hsteady' := hk.steady_of_passes fun j hkj hj => (hq j hkj hj).toPasses
  have hpa : pa = physical (i.address s.cpu.core.arch) := by
    rw [(hsteady' j hkj hjn.le).outcome, Option.some.injEq, Outcome.physical.injEq] at hout
    rw [← hout]
    exact congrArg physical haddr
  rw [Sync.run_zero, hpa, hm.arch, hm.bytes] at hstep
  refine ⟨n, hnext, ⟨hsteady' n hnext.1 le_rfl, hb, hset⟩, congrArg Prod.fst hstep,
    congrArg Prod.snd hstep, ?_⟩
  rw [(hk.untouched h hq).reservation]
  exact hm.reserved

end System

end KianRiscV
