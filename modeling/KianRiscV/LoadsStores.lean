/-
# Loads and stores

`LB` to `SW` from one `FETCH` to the next, with the memory management unit and the memory behind
the core.  `MEM_ADDR` adds the immediate, `MEM_READ` and `MEM_WRITE` wait for the answer to the
translated address, and `MEM_WB` writes the aligned data.  The load unit shifts by the address bits
of the cycle before, the store unit by those of the cycle in which the request is latched.

`load_decoder` checks the alignment of `LH` and `LW` and not that of `LHU`, which therefore reads a
halfword of its word at an odd address.
-/
import KianRiscV.ByteLanes
import KianRiscV.ControlTransfers
import KianRiscV.TrapReports

namespace KianRiscV

open Rv32im

/-! ## The decoders -/

section Decode

variable {w : Word} {i : MemInstr}

/-- The immediate and the state that `MEM_ADDR` goes to. -/
theorem decodeMem_cases (h : decodeMem w = some i) :
    (isLoad w = true ∧ ∃ width signed, loadWidth (funct3Of w) = some (width, signed) ∧
        i = .load width signed (rdOf w) (rs1Of w) (immExtOf w)) ∨
      (isLoad w = false ∧ isStore w = true ∧ ∃ width, storeWidth (funct3Of w) = some width ∧
        i = .store width (rs1Of w) (rs2Of w) (immExtOf w)) := by
  unfold decodeMem at h
  split_ifs at h with hl hs
  · refine .inl ⟨by simp [isLoad, hl], ?_⟩
    rw [Option.map_eq_some_iff] at h
    obtain ⟨⟨width, signed⟩, hw, rfl⟩ := h
    refine ⟨width, signed, hw, ?_⟩
    simp [immExtOf, immSrcOf, isRtype, isItype, isJalr, isLoad, hl, extend]
  · refine .inr ⟨by simp [isLoad, hs], by simp [isStore, hs], ?_⟩
    rw [Option.map_eq_some_iff] at h
    obtain ⟨width, hw, rfl⟩ := h
    refine ⟨width, hw, ?_⟩
    simp [immExtOf, immSrcOf, isRtype, isItype, isJalr, isLoad, isCsr, isStore, hs, extend]

/-- `load_decoder`: the operation, and the alignment check but for `LHU`. -/
theorem loadDecoder_eq {width : Width} {signed : Bool} (hl : isLoad w = true)
    (hw : loadWidth (funct3Of w) = some (width, signed)) (low : BitVec 2) :
    loadDecoder w = loadOpOf width signed ∧
      (isLoadUnaligned w low = true ↔
        ¬ (width = .half ∧ signed = false) ∧ low.toNat % width.bytes ≠ 0) := by
  have hamo : amoDataLoad w = false := by
    have hop : opOf w = 0b0000011#7 := by simpa [isLoad] using hl
    simp [amoDataLoad, isAmo, hop]
  unfold loadDecoder isLoadUnaligned
  rw [hamo]
  revert hw
  generalize funct3Of w = f
  cases width <;> cases signed <;> revert f low <;> decide

/-- `store_decoder`: the operation and the alignment check. -/
theorem storeDecoder_eq {width : Width} (hs : isStore w = true)
    (hw : storeWidth (funct3Of w) = some width) (low : BitVec 2) :
    storeDecoder w = storeOpOf width ∧
      (isStoreUnaligned w low = true ↔ low.toNat % width.bytes ≠ 0) := by
  have hamo : amoOperationStore w = false := by
    have hop : opOf w = 0b0100011#7 := by simpa [isStore] using hs
    simp [amoOperationStore, isAmo, hop]
  unfold storeDecoder isStoreUnaligned
  rw [hamo]
  revert hw
  generalize funct3Of w = f
  cases width <;> revert f low <;> decide

/-- The alignment verdict of `load_decoder` or `store_decoder`. -/
def unaligned (w a : Word) : Bool :=
  if isLoad w then isLoadUnaligned w (a.extractLsb' 0 2) else isStoreUnaligned w (a.extractLsb' 0 2)

/-- The load of an unsigned halfword. -/
def isLhu : MemInstr → Bool
  | .load .half false .. => true
  | _ => false

theorem width_of_isLhu (h : isLhu i = true) : i.width = .half := by
  cases i with
  | load width signed rd rs1 imm =>
    cases width <;> cases signed <;> first | rfl | exact absurd h Bool.false_ne_true
  | store => exact absurd h Bool.false_ne_true

/-- The verdict is that of the width, but for `LHU`. -/
theorem unaligned_iff (h : decodeMem w = some i) (a : Word) :
    unaligned w a = true ↔ isLhu i = false ∧ a.toNat % i.width.bytes ≠ 0 := by
  have hlow : ∀ width : Width, (a.extractLsb' 0 2).toNat % width.bytes = a.toNat % width.bytes := by
    intro width
    rw [BitVec.extractLsb'_toNat, Nat.shiftRight_zero]
    cases width <;> simp only [Width.bytes] <;> omega
  unfold unaligned
  rcases decodeMem_cases h with ⟨hl, width, signed, hw, rfl⟩ | ⟨hl, hs, width, hw, rfl⟩
  · rw [hl, if_pos rfl, (loadDecoder_eq hl hw _).2, hlow]
    cases width <;> cases signed <;> simp [isLhu, MemInstr.width]
  · rw [hl, if_neg Bool.false_ne_true, (storeDecoder_eq hs hw _).2, hlow]
    simp [isLhu, MemInstr.width]

end Decode

/-! ## The offset in a page -/

/-- A translation keeps the place in the word. -/
theorem CpuReq.outcome_low {iw dw : ℕ} {r : CpuReq} {tw : TableWalk iw dw} {rd : BitVec 32 → Word}
    {pa : BitVec 34} (h : r.outcome tw rd = some (.physical pa)) :
    pa.toNat % 4 = r.addr.toNat % 4 := by
  have hphys : ∀ pte : Word, (physicalOf pte r.addr).toNat % 4 = r.addr.toNat % 4 := by
    intro pte
    have hlow : (physicalOf pte r.addr).extractLsb' 0 2 = r.addr.extractLsb' 0 2 := by
      apply BitVec.eq_of_getLsbD_eq
      intro j hj
      obtain rfl | rfl : j = 0 ∨ j = 1 := by omega
      all_goals simp [physicalOf]
    have hnat := congrArg BitVec.toNat hlow
    simpa [BitVec.extractLsb'_toNat] using hnat
  unfold outcome outcomeOf at h
  split at h
  · simp only [Option.some.injEq, Outcome.physical.injEq] at h
    rw [← h, BitVec.toNat_setWidth]
    have := r.addr.isLt
    omega
  · rw [Option.map_eq_some_iff] at h
    obtain ⟨pte, -, hc⟩ := h
    unfold check at hc
    split at hc
    · exact absurd hc (by simp)
    · simp only [Outcome.physical.injEq] at hc
      rw [← hc]
      exact hphys _

namespace System

variable {iw dw : ℕ} {p : Params} {s t : System iw dw} {i : SystemIn} {w : Word}

/-! ## An instruction on its way -/

/-- The instruction word is on its way, with the registers and the memory as given. -/
structure InHand (w : Word) (content : BitVec 32 → Word) (x : Arch) (t : System iw dw) : Prop where
  inStep : t.InStep
  content : t.mem.content = content
  flight : t.cpu.core.InFlight w x
  settled : t.cpu.core.Settled

/-- The states of memory accesses that leave registers and `PC` alone. -/
def carriesOn : FsmState → Bool
  | .decode | .memAddr | .memRead | .memWrite | .amoAddr | .amoOpRead | .amoOpExec | .amoOpAddr
  | .amoOpWrite => true
  | _ => false

theorem carriesOn_quiet {st : FsmState} (h : carriesOn st = true) :
    st ≠ .fetch ∧ st ≠ .execMul ∧ Core.writesBack st = false ∧ Core.movesPc st = false ∧
      Core.touchesCsr st = false ∧ isInstruction st = false := by
  cases st <;> first | exact absurd h (by decide) | exact ⟨by decide, by decide, rfl, rfl, rfl, rfl⟩

theorem InHand.next {content : BitVec 32 → Word} {x : Arch} (h : InHand w content x t)
    (ha : carriesOn t.cpu.core.state = true) (hmem : (t.next p i).mem.content = t.mem.content) :
    InHand w content x (t.next p i) ∧ (t.next p i).cpu.core.a1 = x.x (rs1Of w) ∧
      (t.next p i).cpu.core.a2 = x.x (rs2Of w) := by
  obtain ⟨hf, hm, hwb, hpc, hc, hins⟩ := carriesOn_quiet ha
  obtain ⟨hfl, ha1, ha2⟩ := h.flight.carry (p := p) (i := t.coreIn i) hf hwb
    (Core.pcWrite_of_not_movesPc hpc)
  exact ⟨⟨next_inStep_of_not_isInstr h.inStep hins, hmem.trans h.content, hfl,
    h.settled.next hc hm⟩, ha1, ha2⟩

/-- The instruction that began in `s` is on its way and has written nothing. -/
structure Underway (w : Word) (s t : System iw dw) : Prop where
  inStep : t.InStep
  content : t.mem.content = s.mem.content
  flight : t.cpu.core.InFlight w s.cpu.core.arch
  settled : t.cpu.core.Settled

theorem Underway.inHand (h : Underway w s t) : InHand w s.mem.content s.cpu.core.arch t :=
  ⟨h.inStep, h.content, h.flight, h.settled⟩

/-- The states of a load or store before its write-back. -/
def beforeWriteBack : FsmState → Bool
  | .decode | .memAddr | .memRead | .memWrite => true
  | _ => false

theorem carriesOn_of_beforeWriteBack {st : FsmState} (h : beforeWriteBack st = true) :
    carriesOn st = true := by
  cases st <;> first | rfl | exact absurd h (by decide)

theorem Underway.next (h : Underway w s t) (ha : beforeWriteBack t.cpu.core.state = true)
    (hmem : (t.next p i).mem.content = t.mem.content) :
    Underway w s (t.next p i) ∧ (t.next p i).cpu.core.a1 = s.cpu.core.arch.x (rs1Of w) ∧
      (t.next p i).cpu.core.a2 = s.cpu.core.arch.x (rs2Of w) := by
  obtain ⟨hn, ha1, ha2⟩ := h.inHand.next (carriesOn_of_beforeWriteBack ha) hmem
  exact ⟨⟨hn.inStep, hn.content, hn.flight, hn.settled⟩, ha1, ha2⟩

/-- Without strobes only reads are on the bus. -/
theorem InStep.readsOnly (h : t.InStep) (hw : t.cpu.core.memWstrb = 0#4) : t.ReadsOnly := by
  by_cases hidle : t.cpu.mmu.state = .idle
  · exact .inl hidle
  · exact .inr ((h.phase.latched_of_busy hidle).1.wstrb.trans hw)

section Fetch

variable {inp : ℕ → SystemIn} {k : ℕ}

/-- The fetch is answered with the word `w` in cycle `k`, without a fault, and `DECODE` finds no
interrupt pending. -/
structure Fetches (p : Params) (s : System iw dw) (inp : ℕ → SystemIn) (w : Word) (k : ℕ) :
    Prop where
  wait : ∀ j, j < k →
    ((Sync.run (System.next p) s inp j).coreIn (inp j)).memReady = false ∧
      ((Sync.run (System.next p) s inp j).coreIn (inp j)).pageFault = false
  ready : ((Sync.run (System.next p) s inp k).coreIn (inp k)).memReady = true
  word : ((Sync.run (System.next p) s inp k).coreIn (inp k)).memRdata = w
  noAccessFault : ((Sync.run (System.next p) s inp k).coreIn (inp k)).accessFault = false
  noInterrupt : ((Sync.run (System.next p) s inp (k + 1)).cpu.core.fsmIn
    ((Sync.run (System.next p) s inp (k + 1)).coreIn (inp (k + 1)))).irq.pending = false

/-- The fetch is presented, and nothing has changed. -/
structure Fetching (s t : System iw dw) : Prop where
  begins : t.Begins
  content : t.mem.content = s.mem.content
  arch : t.cpu.core.arch = s.cpu.core.arch
  settled : t.cpu.core.Settled

theorem Begins.readsOnly (h : t.Begins) : t.ReadsOnly :=
  h.inStep.readsOnly (Core.memAddr_of_presentsFetch (.inr h.state)).2.1

theorem Begins.fetchAligned (h : t.Begins) : t.FetchAligned := by
  intro _ _
  rw [(Core.memAddr_of_presentsFetch (c := t.cpu.core) (.inr h.state)).1]
  exact h.aligned

theorem Fetching.next (h : Fetching s t) (hr : (t.coreIn i).memReady = false)
    (hf : (t.coreIn i).pageFault = false) : Fetching s (t.next p i) := by
  obtain ⟨hst, harch, hset⟩ :=
    Core.fetch_wait (p := p) h.begins.state h.settled h.begins.aligned hr hf
  have hpc : (t.next p i).cpu.core.pc = t.cpu.core.pc := congrArg Arch.pc harch
  refine ⟨⟨hst, h.begins.inStep.next h.begins.fetchAligned, hset.exceptionSelect, ?_⟩,
    (content_next hr).trans h.content, harch.trans h.arch, hset⟩
  rw [hpc]
  exact h.begins.aligned

theorem Fetches.fetching (henv : Fetches p s inp w k) (hs : s.Begins) (hset : s.cpu.core.Settled) :
    ∀ j, j ≤ k → Fetching s (Sync.run (System.next p) s inp j) := by
  intro j
  induction j with
  | zero => exact fun _ => ⟨hs, rfl, rfl, hset⟩
  | succ j ih =>
    intro hj
    obtain ⟨hr, hf⟩ := henv.wait j (by omega)
    exact (ih (by omega)).next hr hf

/-- An answer comes without stall and page fault. -/
theorem InStep.answered (h : t.InStep) (hr : (t.coreIn i).memReady = true) :
    (t.coreIn i).stall = false ∧ (t.coreIn i).pageFault = false ∧ t.cpu.core.memValid = true ∧
      t.cpu.mmu.state ≠ .idle := by
  have hacc := accessPhase_of_ready h.phase hr
  refine ⟨?_, hacc.pageFault, hacc.reqValid, by rw [hacc.state]; decide⟩
  show t.cpu.mmu.stall = false
  simp [Sv32.stall, hacc.state]

/-- The word goes to `DECODE`. -/
theorem Fetches.decode (henv : Fetches p s inp w k) (hs : s.Begins) (hset : s.cpu.core.Settled) :
    (Sync.run (System.next p) s inp (k + 1)).cpu.core.state = .decode ∧
      Underway w s (Sync.run (System.next p) s inp (k + 1)) := by
  have hk := henv.fetching hs hset k le_rfl
  have hr := henv.ready
  obtain ⟨hstall, hpf, -, -⟩ := hk.begins.inStep.answered hr
  obtain ⟨hst, hfl, hset'⟩ := Core.fetch_answer (p := p) hk.begins.state hk.settled
    hk.begins.aligned hr hpf henv.noAccessFault hstall
  rw [henv.word, hk.arch] at hfl
  exact ⟨hst, hk.begins.inStep.next hk.begins.fetchAligned,
    hk.begins.readsOnly.content.trans hk.content, hfl, hset'⟩

end Fetch

/-! ## The access -/

/-- The state in which the access waits. -/
def accessState (w : Word) : FsmState := if isLoad w then .memRead else .memWrite

/-- The load or store has its address `a` and its data. -/
structure Presents (w : Word) (s : System iw dw) (a : Word) (t : System iw dw) : Prop
    extends Underway w s t where
  state : t.cpu.core.state = accessState w
  address : t.cpu.core.aluOut = a
  data : t.cpu.core.a2 = s.cpu.core.arch.x (rs2Of w)

/-- It waits for the access; while the memory management unit is busy it holds the aligned data, and
the load unit the place in the word. -/
structure Accessing (w : Word) (s : System iw dw) (a : Word) (t : System iw dw) : Prop
    extends Presents w s a t where
  wdata : t.cpu.mmu.state ≠ .idle → t.cpu.mmu.cpuWdataQ = t.cpu.core.memWdata
  low : t.cpu.mmu.state ≠ .idle → t.cpu.core.memAddrAlignLatch = a.extractLsb' 0 2

/-- `DECODE` goes to `MEM_ADDR`. -/
theorem Underway.decode_next (h : Underway w s t) (hst : t.cpu.core.state = .decode)
    (hm : isLoad w = true ∨ isStore w = true)
    (hirq : (t.cpu.core.fsmIn (t.coreIn i)).irq.pending = false) :
    (t.next p i).cpu.core.state = .memAddr ∧ Underway w s (t.next p i) ∧
      (t.next p i).cpu.core.a1 = s.cpu.core.arch.x (rs1Of w) := by
  obtain ⟨hnext, hmem, -⟩ := next_of_idle (p := p) (i := i) h.inStep (by rw [hst]; rfl)
  obtain ⟨hu, ha1, -⟩ := h.next (by rw [hst]; rfl) hmem
  refine ⟨?_, hu, ha1⟩
  have hinstr : (t.cpu.core.fsmIn (t.coreIn i)).instr = w := h.flight.instr
  rw [hnext, hst]
  simp [stateNxt, decodeNxt, hirq, hinstr, hm]

/-- `MEM_ADDR` computes the address. -/
theorem Underway.address_next (h : Underway w s t) (hst : t.cpu.core.state = .memAddr)
    (ha1 : t.cpu.core.a1 = s.cpu.core.arch.x (rs1Of w)) :
    Accessing w s (s.cpu.core.arch.x (rs1Of w) + immExtOf w) (t.next p i) := by
  have hv : t.cpu.core.memValid = false := by
    unfold Core.memValid
    rw [hst]
    rfl
  obtain ⟨hnext, hmem, hidle⟩ := next_of_idle (p := p) (i := i) h.inStep (by rw [hst]; rfl)
  obtain ⟨hu, -, ha2⟩ := h.next (by rw [hst]; rfl) hmem
  refine ⟨⟨hu, ?_, ?_, ha2⟩, fun hb => absurd (hidle hv) hb, fun hb => absurd (hidle hv) hb⟩
  · have hinstr : (t.cpu.core.fsmIn (t.coreIn i)).instr = w := h.flight.instr
    rw [hnext, hst]
    simp only [stateNxt, hinstr]
    rfl
  · have hres : t.cpu.core.aluResult = t.cpu.core.a1 + immExtOf t.cpu.core.instr := by
      simp only [Core.aluResult, Core.srcA, Core.srcB, Core.ctl, Core.immExt, hst, moore,
        aluDecoder, alu]
    rw [← ha1, ← h.flight.instr, ← hres, next_core]
    simp [Core.next, hv]

section Wires

variable {a : Word}

theorem accessState_cases (w : Word) :
    (isLoad w = true ∧ accessState w = .memRead) ∨ (isLoad w = false ∧ accessState w = .memWrite) := by
  unfold accessState
  cases isLoad w <;> simp

theorem Presents.memAddr (h : Presents w s a t) : t.cpu.core.memAddr = a := by
  rw [← h.address]
  unfold Core.memAddr Core.result Core.ctl
  rw [h.state]
  rcases accessState_cases w with ⟨-, hs⟩ | ⟨-, hs⟩ <;> rw [hs] <;> rfl

/-- The strobes and the data. -/
theorem Presents.memWstrb (h : Presents w s a t) : t.cpu.core.memWstrb =
    if isLoad w then 0#4 else storeWmask (a.extractLsb' 0 2) (storeDecoder w) := by
  unfold Core.memWstrb Core.ctl
  rw [h.memAddr, h.flight.instr, h.state]
  rcases accessState_cases w with ⟨hl, hs⟩ | ⟨hl, hs⟩ <;> rw [hs, hl] <;> rfl

theorem Presents.memWdata (h : Presents w s a t) : t.cpu.core.memWdata =
    storeAlignment (a.extractLsb' 0 2) (storeDecoder w) (s.cpu.core.arch.x (rs2Of w)) := by
  unfold Core.memWdata Core.ctl
  rw [h.memAddr, h.flight.instr, h.state, h.data]
  rcases accessState_cases w with ⟨-, hs⟩ | ⟨-, hs⟩ <;> rw [hs] <;> rfl

/-- The request is presented unless the address is found misaligned. -/
theorem Presents.memValid (h : Presents w s a t) : t.cpu.core.memValid = !unaligned w a := by
  unfold Core.memValid Core.loadUnaligned Core.storeUnaligned unaligned
  rw [h.memAddr, h.flight.instr, h.state]
  rcases accessState_cases w with ⟨hl, hs⟩ | ⟨hl, hs⟩ <;> rw [hs, hl] <;> rfl

/-- A cycle without stall. -/
theorem Presents.next_state (h : Presents w s a t) (hstall : (t.coreIn i).stall = false) :
    (t.next p i).cpu.core.state =
      if isLoad w then accessNxt (unaligned w a) .loadMisalign0 .loadFault0 .lpageFault0 .memWb
        .memRead (t.cpu.core.fsmIn (t.coreIn i))
      else accessNxt (unaligned w a) .storeMisalign0 .storeFault0 .spageFault0 .fetch .memWrite
        (t.cpu.core.fsmIn (t.coreIn i)) := by
  rw [next_core, Core.next_state _ _ hstall, h.state]
  unfold unaligned
  rcases accessState_cases w with ⟨hl, hs⟩ | ⟨hl, hs⟩
  · have hu : (t.cpu.core.fsmIn (t.coreIn i)).isLoadUnaligned
        = isLoadUnaligned w (a.extractLsb' 0 2) := by
      rw [← h.memAddr, ← h.flight.instr]
      rfl
    simp only [hs, stateNxt, hu, hl, if_true]
  · have hu : (t.cpu.core.fsmIn (t.coreIn i)).isStoreUnaligned
        = isStoreUnaligned w (a.extractLsb' 0 2) := by
      rw [← h.memAddr, ← h.flight.instr]
      rfl
    simp only [hs, stateNxt, hu, hl, Bool.false_eq_true, if_false]

theorem beforeWriteBack_accessState (w : Word) : beforeWriteBack (accessState w) = true := by
  rcases accessState_cases w with ⟨-, hs⟩ | ⟨-, hs⟩ <;> rw [hs] <;> rfl

end Wires

/-! ## Waiting and the answer -/

section Answer

variable {a : Word}

/-- Data that stay on the wires are those that the memory management unit latches. -/
theorem wdata_next (h : t.cpu.mmu.state ≠ .idle → t.cpu.mmu.cpuWdataQ = t.cpu.core.memWdata)
    (hsame : (t.next p i).cpu.core.memWdata = t.cpu.core.memWdata)
    (hb : (t.next p i).cpu.mmu.state ≠ .idle) :
    (t.next p i).cpu.mmu.cpuWdataQ = (t.next p i).cpu.core.memWdata := by
  have hq : (t.next p i).cpu.mmu.cpuWdataQ =
      if t.cpu.mmu.translationStart t.cpu.req (t.memReady i) then t.cpu.core.memWdata
      else t.cpu.mmu.cpuWdataQ := rfl
  rw [hsame, hq]
  split
  · rfl
  · rename_i hstart
    refine h fun hidle => hb ?_
    show t.cpu.mmu.stateNxt (t.cpu.mmu.translationStart t.cpu.req (t.memReady i))
      (t.memReady i) = .idle
    simp [Sv32.stateNxt, hidle, Bool.eq_false_of_not_eq_true hstart]

/-- The answer to a data access belongs to the translated address. -/
theorem InStep.readAnswer (h : t.InStep) (hr : (t.coreIn i).memReady = true)
    (haf : (t.coreIn i).accessFault = false) :
    (t.coreIn i).memRdata = t.mem.content (wordAddr t.busReq.addr) ∧
      t.cpu.req.outcome t.cpu.mmu.ptw t.mem.content = some (.physical t.busReq.addr) ∧
      t.memReady i = true ∧ i.mem.accessFault = false := by
  have hacc := accessPhase_of_ready h.phase hr
  have hans : t.cpu.mmu.answers = true := by simp [Sv32.answers, hacc.state]
  have hmr : t.memReady i = true := by
    have hc : (t.cpu.mmu.answers && t.memReady i) = true := hr
    exact (Bool.and_eq_true_iff.1 hc).2
  have hnf : i.mem.accessFault = false := by
    have hc : (i.mem.accessFault && t.memReady i) = false := haf
    simpa [hmr] using hc
  refine ⟨?_, ?_, hmr, hnf⟩
  · show (if t.cpu.mmu.answers then t.mem.rdata t.busReq i.mem else 0#32) = _
    rw [hans, if_pos rfl, Memory.rdata, hnf, if_neg Bool.false_ne_true]
  · rw [hacc.result, busReq, hacc.busReq]
    rfl

/-- It serves the access. -/
theorem InStep.dataAnswer (h : t.InStep) (hr : (t.coreIn i).memReady = true)
    (haf : (t.coreIn i).accessFault = false)
    (hwdata : t.cpu.mmu.cpuWdataQ = t.cpu.core.memWdata) :
    (t.coreIn i).memRdata = t.mem.content (wordAddr t.busReq.addr) ∧
      t.cpu.req.outcome t.cpu.mmu.ptw t.mem.content = some (.physical t.busReq.addr) ∧
      t.busReq.addr.toNat % 4 = t.cpu.core.memAddr.toNat % 4 ∧
      (t.next p i).mem.content = fun b => if b = wordAddr t.busReq.addr then
        mergeBytes t.cpu.core.memWstrb (t.mem.content b) t.cpu.core.memWdata
        else t.mem.content b := by
  have hbus : t.busReq = t.cpu.mmu.accessReq t.cpu.req := (accessPhase_of_ready h.phase hr).busReq
  obtain ⟨hrd, hres, hmr, hnf⟩ := h.readAnswer hr haf
  refine ⟨hrd, hres, CpuReq.outcome_low hres, ?_⟩
  have hmr' : t.mem.ready t.busReq i.mem = true := hmr
  show (if t.mem.ready t.busReq i.mem && !i.mem.accessFault then t.mem.served t.busReq
    else t.mem.content) = _
  rw [hmr', hnf, if_pos (show (true && !false) = true from rfl), ← hwdata]
  unfold Memory.served
  rw [hbus]
  rfl

/-- A cycle without answer. -/
theorem Accessing.wait (h : Accessing w s a t) (hal : unaligned w a = false)
    (hr : (t.coreIn i).memReady = false) (hpf : (t.coreIn i).pageFault = false) :
    Accessing w s a (t.next p i) := by
  have hv : t.cpu.core.memValid = true := by rw [h.memValid, hal]; rfl
  obtain ⟨hu, -, ha2⟩ := h.toUnderway.next (p := p) (i := i)
    (by rw [h.state]; exact beforeWriteBack_accessState w) (content_next hr)
  have hst : (t.next p i).cpu.core.state = accessState w := by
    cases hstall : (t.coreIn i).stall with
    | true => rw [next_core, Core.next_state_of_stall _ _ hstall, h.state]
    | false =>
      have hnext := h.next_state (p := p) (i := i) hstall
      simp only [accessNxt, hal, Core.fsmIn, hr, hpf, Bool.false_eq_true, if_false] at hnext
      exact hnext
  have hout : (t.next p i).cpu.core.aluOut = a := by
    rw [← h.address, next_core]
    simp [Core.next, hv]
  have hlow : (t.next p i).cpu.core.memAddrAlignLatch = a.extractLsb' 0 2 := by
    rw [← h.memAddr]
    rfl
  have hpres : Presents w s a (t.next p i) := ⟨hu, hst, hout, ha2⟩
  refine ⟨hpres, fun hb => ?_, fun _ => hlow⟩
  exact wdata_next h.wdata (by rw [hpres.memWdata, h.memWdata]) hb

/-- The answer belongs to the translated address. -/
theorem Accessing.answer (h : Accessing w s a t) (hr : (t.coreIn i).memReady = true)
    (haf : (t.coreIn i).accessFault = false) :
    (t.coreIn i).memRdata = s.mem.content (wordAddr t.busReq.addr) ∧
      t.cpu.req.outcome t.cpu.mmu.ptw t.mem.content = some (.physical t.busReq.addr) ∧
      t.busReq.addr.toNat % 4 = a.toNat % 4 ∧
      (t.next p i).mem.content = fun b => if b = wordAddr t.busReq.addr then
        mergeBytes t.cpu.core.memWstrb (s.mem.content b) t.cpu.core.memWdata
        else s.mem.content b := by
  have hans := h.inStep.dataAnswer (p := p) hr haf (h.wdata (h.inStep.answered hr).2.2.2)
  rw [h.content, h.memAddr] at hans
  rw [h.content]
  exact hans

/-- The answer to a load goes to `MEM_WB`. -/
theorem Accessing.load_next (h : Accessing w s a t) (hl : isLoad w = true)
    (hr : (t.coreIn i).memReady = true) (haf : (t.coreIn i).accessFault = false) :
    (t.next p i).cpu.core.state = .memWb ∧ Underway w s (t.next p i) ∧
      (t.next p i).cpu.core.dataLatched =
        loadAlignment (a.extractLsb' 0 2) (loadDecoder w)
          (s.mem.content (wordAddr t.busReq.addr)) := by
  obtain ⟨hstall, hpf, hv, hbusy⟩ := h.inStep.answered hr
  have hal : unaligned w a = false := by simpa [h.memValid] using hv
  have hw : t.cpu.core.memWstrb = 0#4 := by rw [h.memWstrb, hl, if_pos rfl]
  refine ⟨?_, (h.toUnderway.next (by rw [h.state]; exact beforeWriteBack_accessState w)
    (content_next_of_read h.inStep.phase hw)).1, ?_⟩
  · rw [h.next_state hstall, hl, if_pos rfl]
    simp [accessNxt, hal, Core.fsmIn, hpf, hr, haf]
  · rw [← (h.answer (p := p) hr haf).1, ← h.low hbusy, ← h.flight.instr]
    rfl

/-- `MEM_WB` writes the data. -/
theorem Underway.writeBack_next (h : Underway w s t) (hst : t.cpu.core.state = .memWb)
    (hal : s.cpu.core.pc.extractLsb' 0 2 = 0#2) :
    (t.next p i).Begins ∧ (t.next p i).cpu.core.Settled ∧
      (t.next p i).mem.content = s.mem.content ∧
      (t.next p i).cpu.core.arch = ⟨fun r => if r = rdOf w ∧ r ≠ 0#5 then t.cpu.core.dataLatched
        else s.cpu.core.arch.x r, s.cpu.core.pc + 4#32⟩ := by
  obtain ⟨hnext, hmem, -⟩ := next_of_idle (p := p) (i := i) h.inStep (by rw [hst]; rfl)
  have hset : (t.next p i).cpu.core.Settled :=
    h.settled.next (by rw [hst]; rfl) (by rw [hst]; decide)
  have hres : t.cpu.core.result = t.cpu.core.dataLatched := by
    simp [Core.result, Core.ctl, hst, moore]
  have harch := h.flight.writeBack (p := p) (i := t.coreIn i) (by rw [hst]; rfl)
  rw [hres, ← next_core] at harch
  have hpc : (t.next p i).cpu.core.pc = s.cpu.core.pc + 4#32 := congrArg Arch.pc harch
  -- the next fetch is presented already
  have hfetch : t.FetchAligned := by
    intro _ _
    rw [(Core.memAddr_of_presentsFetch (c := t.cpu.core) (.inl (by rw [hst]; rfl))).1]
    exact (congrArg (BitVec.extractLsb' 0 2) (congrArg Arch.pc h.flight.arch)).trans
      (aligned_add_four hal)
  refine ⟨⟨?_, h.inStep.next hfetch, hset.exceptionSelect, ?_⟩, hset, hmem.trans h.content, harch⟩
  · rw [hnext, hst]
    rfl
  · rw [hpc]
    exact aligned_add_four hal

/-- The answer to a store ends it. -/
theorem Accessing.store_next (h : Accessing w s a t) (hl : isLoad w = false)
    (hr : (t.coreIn i).memReady = true) (haf : (t.coreIn i).accessFault = false)
    (hpcal : s.cpu.core.pc.extractLsb' 0 2 = 0#2) :
    (t.next p i).Begins ∧ (t.next p i).cpu.core.Settled ∧
      (t.next p i).cpu.core.arch = ⟨s.cpu.core.arch.x, s.cpu.core.pc + 4#32⟩ := by
  obtain ⟨hstall, hpf, hv, -⟩ := h.inStep.answered hr
  have hal : unaligned w a = false := by simpa [h.memValid] using hv
  have hst : t.cpu.core.state = .memWrite := by
    rw [h.state, accessState, hl]
    rfl
  have hset : (t.next p i).cpu.core.Settled :=
    h.settled.next (by rw [hst]; rfl) (by rw [hst]; decide)
  obtain ⟨hfl, -, -⟩ := h.flight.carry (p := p) (i := t.coreIn i) (by rw [hst]; decide)
    (by rw [hst]; rfl) (Core.pcWrite_of_not_movesPc (by rw [hst]; rfl))
  have hpc : (t.next p i).cpu.core.pc = s.cpu.core.pc + 4#32 := congrArg Arch.pc hfl.arch
  refine ⟨⟨?_, next_inStep_of_not_isInstr h.inStep (by unfold Core.isInstr; rw [hst]; rfl),
    hset.exceptionSelect, ?_⟩, hset, hfl.arch⟩
  · rw [h.next_state hstall, hl, if_neg Bool.false_ne_true]
    simp [accessNxt, hal, Core.fsmIn, hpf, hr, haf]
  · rw [hpc]
    exact aligned_add_four hpcal

end Answer

/-! ## From `FETCH` to `FETCH` -/

section Run

variable {inp : ℕ → SystemIn} {k m : ℕ}

/-- Besides the fetch, the data access is answered without a fault, if it is presented. -/
structure Serves (p : Params) (s : System iw dw) (inp : ℕ → SystemIn) (w : Word) (k : ℕ) : Prop
    extends Fetches p s inp w k where
  access : (Sync.run (System.next p) s inp (k + 3)).cpu.core.memValid = true → ∃ m, k + 3 ≤ m ∧
    (∀ j, k + 3 ≤ j → j < m →
      ((Sync.run (System.next p) s inp j).coreIn (inp j)).memReady = false ∧
        ((Sync.run (System.next p) s inp j).coreIn (inp j)).pageFault = false) ∧
    ((Sync.run (System.next p) s inp m).coreIn (inp m)).memReady = true ∧
    ((Sync.run (System.next p) s inp m).coreIn (inp m)).accessFault = false

/-- The effective address of the word. -/
def addressOf (w : Word) (s : System iw dw) : Word := s.cpu.core.arch.x (rs1Of w) + immExtOf w

/-- Three cycles after the fetch the access is presented. -/
theorem Fetches.accessing (henv : Fetches p s inp w k) (hs : s.Begins) (hset : s.cpu.core.Settled)
    (hm : isLoad w = true ∨ isStore w = true) :
    (Sync.run (System.next p) s inp (k + 2)).cpu.core.state = .memAddr ∧
      Underway w s (Sync.run (System.next p) s inp (k + 2)) ∧
      Accessing w s (addressOf w s) (Sync.run (System.next p) s inp (k + 3)) := by
  obtain ⟨hst, hu⟩ := henv.decode hs hset
  obtain ⟨hst', hu', ha1⟩ := hu.decode_next (p := p) (i := inp (k + 1)) hst hm henv.noInterrupt
  exact ⟨hst', hu', hu'.address_next hst' ha1⟩

/-- It waits until it is answered. -/
theorem Accessing.run {a : Word}
    (h : Accessing w s a (Sync.run (System.next p) s inp k)) (hal : unaligned w a = false)
    (hwait : ∀ j, k ≤ j → j < m →
      ((Sync.run (System.next p) s inp j).coreIn (inp j)).memReady = false ∧
        ((Sync.run (System.next p) s inp j).coreIn (inp j)).pageFault = false) :
    ∀ j, k ≤ j → j ≤ m → Accessing w s a (Sync.run (System.next p) s inp j) := by
  intro j hkj
  induction j, hkj using Nat.le_induction with
  | base => exact fun _ => h
  | succ j hkj ih =>
    intro hj
    obtain ⟨hr, hpf⟩ := hwait j hkj (by omega)
    exact (ih (by omega)).wait hal hr hpf

/-- The states between the fetch and the answer. -/
theorem Fetches.between (henv : Fetches p s inp w k) (hs : s.Begins) (hset : s.cpu.core.Settled)
    (hm : isLoad w = true ∨ isStore w = true) (hal : unaligned w (addressOf w s) = false)
    (hwait : ∀ j, k + 3 ≤ j → j < m →
      ((Sync.run (System.next p) s inp j).coreIn (inp j)).memReady = false ∧
        ((Sync.run (System.next p) s inp j).coreIn (inp j)).pageFault = false) :
    ∀ j, k < j → j ≤ m →
      beforeWriteBack (Sync.run (System.next p) s inp j).cpu.core.state = true := by
  intro j hkj hj
  obtain ⟨hst1, -⟩ := henv.decode hs hset
  obtain ⟨hst2, -, hacc⟩ := henv.accessing hs hset hm
  obtain rfl | rfl | hj3 : j = k + 1 ∨ j = k + 2 ∨ k + 3 ≤ j := by omega
  · rw [hst1]
    rfl
  · rw [hst2]
    rfl
  · rw [(hacc.run hal hwait j hj3 hj).state]
    exact beforeWriteBack_accessState w

/-! ## Byte-exactness -/

/-- The data access to `a` that is made between the cycles `k` and `n` goes to the physical address
`pa`. -/
def TranslatesTo (c : ℕ → System iw dw) (k n : ℕ) (a : Word) (pa : BitVec 34) : Prop :=
  ∃ m, k < m ∧ m < n ∧ (c m).cpu.req.addr = a ∧ (c m).cpu.req.isInstruction = false ∧
    (c m).cpu.req.outcome (c m).cpu.mmu.ptw (c m).mem.content = some (.physical pa)

/-- The load or store takes its step on the bytes of the memory, and every load from the memory it
leaves returns the stored bytes where it overlaps the store. -/
def Performs (i : MemInstr) (c : ℕ → System iw dw) (k : ℕ) : Prop :=
  ∃ n pa, NextFetch (fun j => (c j).cpu.core) k n ∧
    TranslatesTo c k n (i.address (c 0).cpu.core.arch) pa ∧
    ((c n).cpu.core.arch, bytesOf (c n).mem.content)
      = i.step pa (c 0).cpu.core.arch (bytesOf (c 0).mem.content) ∧
    (c n).Begins ∧ (c n).cpu.core.Settled ∧
    ∀ width rs1 rs2 imm, i = .store width rs1 rs2 imm →
      ∀ (width' : Width) (signed : Bool) (b : BitVec 34) (j : ℕ), j < width'.bytes →
        (loadBytes width' signed (bytesOf (c n).mem.content) b).extractLsb' (8 * j) 8 =
          if (b + BitVec.ofNat 34 j - pa).toNat < width.bytes then
            ((c 0).cpu.core.arch.x rs2).extractLsb' (8 * (b + BitVec.ofNat 34 j - pa).toNat) 8
          else bytesOf (c 0).mem.content (b + BitVec.ofNat 34 j)

/-- Loads and stores have their own exceptions. -/
def kindOf : MemInstr → AccessKind
  | .load .. => .load
  | .store .. => .store

/-- The load or store takes the misaligned exception: it is reported with the address, registers and
memory are as before, and there is no write on the bus. -/
def TrapsMisaligned (i : MemInstr) (c : ℕ → System iw dw) (k : ℕ) : Prop :=
  ∃ m n, NextFetch (fun j => (c j).cpu.core) k n ∧ k < m ∧ m < n ∧
    (c m).cpu.core.state = (faultStates (kindOf i)).1 ∧
    (c n).report = (exceptionCode (kindOf i) .misaligned, i.address (c 0).cpu.core.arch) ∧
    Precise (c 0) (c n) ∧ ∀ j, j ≤ n → (c j).busReq.wstrb = 0#4

/-- The load or store is byte-exact at an address that its width divides, and takes the misaligned
exception at any other. -/
def ByteExact (i : MemInstr) (c : ℕ → System iw dw) (k : ℕ) : Prop :=
  ((i.address (c 0).cpu.core.arch).toNat % i.width.bytes = 0 → Performs i c k) ∧
    ((i.address (c 0).cpu.core.arch).toNat % i.width.bytes ≠ 0 → TrapsMisaligned i c k)

variable {i : MemInstr}

theorem address_eq (hdec : decodeMem w = some i) (s : System iw dw) :
    i.address s.cpu.core.arch = addressOf w s := by
  rcases decodeMem_cases hdec with ⟨-, width, signed, -, rfl⟩ | ⟨-, -, width, -, rfl⟩ <;> rfl

theorem isLoad_or_isStore (hdec : decodeMem w = some i) : isLoad w = true ∨ isStore w = true := by
  rcases decodeMem_cases hdec with ⟨hl, -⟩ | ⟨-, hs, -⟩
  · exact .inl hl
  · exact .inr hs

/-- An access that is not found misaligned comes back to `FETCH` without an exception. -/
theorem Serves.lands (henv : Serves p s inp w k) (hs : s.Begins) (hset : s.cpu.core.Settled)
    (hdec : decodeMem w = some i) (hal : unaligned w (addressOf w s) = false) :
    ∃ m n, k < m ∧ m < n ∧ NextFetch (fun j => (Sync.run (System.next p) s inp j).cpu.core) k n ∧
      Accessing w s (addressOf w s) (Sync.run (System.next p) s inp m) ∧
      ((Sync.run (System.next p) s inp m).coreIn (inp m)).memReady = true ∧
      ((Sync.run (System.next p) s inp m).coreIn (inp m)).accessFault = false ∧
      (∀ j, k < j → j < n →
        raisesException (Sync.run (System.next p) s inp j).cpu.core.state = false) ∧
      n = if isLoad w then m + 2 else m + 1 := by
  have hm := isLoad_or_isStore hdec
  obtain ⟨-, -, hacc⟩ := henv.accessing hs hset hm
  obtain ⟨m, hkm, hwait, hr, haf⟩ := henv.access (by rw [hacc.memValid, hal]; rfl)
  have haccm := hacc.run hal hwait m hkm le_rfl
  have hbefore : ∀ j, k < j → j ≤ m →
      (Sync.run (System.next p) s inp j).cpu.core.state ≠ .fetch ∧
        raisesException (Sync.run (System.next p) s inp j).cpu.core.state = false := by
    intro j hkj hj
    have hst := henv.between hs hset hm hal hwait j hkj hj
    cases hc : (Sync.run (System.next p) s inp j).cpu.core.state <;> rw [hc] at hst <;>
      first | exact absurd hst (by decide) | exact ⟨by decide, rfl⟩
  -- a load has a write-back behind its access, a store returns to `FETCH` with the answer
  cases hl : isLoad w with
  | true =>
    obtain ⟨hwb, hu, -⟩ := haccm.load_next (p := p) hl hr haf
    rw [← Sync.run_succ (System.next p)] at hwb hu
    obtain ⟨hb, -, -, -⟩ := hu.writeBack_next (p := p) (i := inp (m + 1)) hwb hs.aligned
    refine ⟨m, m + 2, by omega, by omega, ⟨by omega, fun j hkj hj => ?_, hb.state⟩, haccm, hr, haf,
      fun j hkj hj => ?_, rfl⟩
    · obtain hjm | rfl : j ≤ m ∨ j = m + 1 := by omega
      · exact (hbefore j hkj hjm).1
      · rw [hwb]
        decide
    · obtain hjm | rfl : j ≤ m ∨ j = m + 1 := by omega
      · exact (hbefore j hkj hjm).2
      · rw [hwb]
        rfl
  | false =>
    obtain ⟨hb, -, -⟩ := haccm.store_next (p := p) hl hr haf hs.aligned
    refine ⟨m, m + 1, by omega, by omega, ⟨by omega, fun j hkj hj => ?_, hb.state⟩, haccm, hr, haf,
      fun j hkj hj => ?_, rfl⟩
    · exact (hbefore j hkj (by omega)).1
    · exact (hbefore j hkj (by omega)).2

/-- At an address that the width divides, the step is taken on the bytes. -/
theorem Serves.performs (henv : Serves p s inp w k) (hs : s.Begins) (hset : s.cpu.core.Settled)
    (hdec : decodeMem w = some i)
    (hal : (i.address s.cpu.core.arch).toNat % i.width.bytes = 0) :
    Performs i (Sync.run (System.next p) s inp) k := by
  rw [address_eq hdec] at hal
  have hver : unaligned w (addressOf w s) = false := by
    by_contra hno
    exact ((unaligned_iff hdec _).1 (Bool.eq_true_of_not_eq_false hno)).2 hal
  obtain ⟨m, n, hkm, hmn, hnext, hacc, hr, haf, -, hn⟩ := henv.lands hs hset hdec hver
  obtain ⟨hrd, hout, hlow, hmem⟩ := hacc.answer (p := p) hr haf
  have htr : TranslatesTo (Sync.run (System.next p) s inp) k n (i.address s.cpu.core.arch)
      (Sync.run (System.next p) s inp m).busReq.addr := by
    refine ⟨m, hkm, hmn, ?_, ?_, hout⟩
    · rw [address_eq hdec, ← hacc.memAddr]
      rfl
    · show isInstruction (Sync.run (System.next p) s inp m).cpu.core.state = false
      rw [hacc.state]
      rcases accessState_cases w with ⟨-, hst⟩ | ⟨-, hst⟩ <;> rw [hst] <;> rfl
  -- the physical address has the alignment of the effective one
  have hpal : (Sync.run (System.next p) s inp m).busReq.addr.toNat % i.width.bytes = 0 := by
    cases hwidth : i.width <;> rw [hwidth] at hal <;> simp only [Width.bytes] at hal ⊢ <;> omega
  have hlow' : ((addressOf w s).extractLsb' 0 2).toNat
      = (Sync.run (System.next p) s inp m).busReq.addr.toNat % 4 := by
    rw [hlow, BitVec.extractLsb'_toNat, Nat.shiftRight_zero]
  refine ⟨n, _, hnext, htr, ?_⟩
  rw [Sync.run_zero]
  rcases decodeMem_cases hdec with ⟨hl, width, signed, hw, rfl⟩ | ⟨hl, hst, width, hw, rfl⟩
  · rw [hl, if_pos rfl] at hn
    subst hn
    obtain ⟨hwb, hu, hdata⟩ := hacc.load_next (p := p) hl hr haf
    rw [← Sync.run_succ (System.next p)] at hwb hu hdata
    obtain ⟨hb, hset', hcont, harch⟩ := hu.writeBack_next (p := p) (i := inp (m + 1)) hwb hs.aligned
    rw [← Sync.run_succ (System.next p)] at hb hset' hcont harch
    refine ⟨?_, hb, hset', fun _ _ _ _ heq => MemInstr.noConfusion heq⟩
    have hval : loadAlignment ((addressOf w s).extractLsb' 0 2) (loadOpOf width signed)
        (s.mem.content (wordAddr (Sync.run (System.next p) s inp m).busReq.addr))
        = loadBytes width signed (bytesOf s.mem.content) _ :=
      loadAlignment_eq s.mem.content signed hpal hlow'
    rw [harch, hcont, hdata, (loadDecoder_eq hl hw 0#2).1, hval]
    rfl
  · rw [hl, if_neg Bool.false_ne_true] at hn
    subst hn
    obtain ⟨hb, hset', harch⟩ := hacc.store_next (p := p) hl hr haf hs.aligned
    have hbytes : bytesOf (Sync.run (System.next p) s inp (m + 1)).mem.content
        = storeBytes width (bytesOf s.mem.content) (Sync.run (System.next p) s inp m).busReq.addr
          (s.cpu.core.arch.x (rs2Of w)) := by
      rw [Sync.run_succ, hmem, hacc.memWstrb, hacc.memWdata, hl, if_neg Bool.false_ne_true,
        (storeDecoder_eq hst hw 0#2).1]
      exact bytesOf_served _ hpal hlow' _
    refine ⟨?_, hb, hset', ?_⟩
    · rw [hbytes, Sync.run_succ, harch]
      rfl
    · rintro width' rs1 rs2 imm heq width'' signed b j hj
      obtain ⟨rfl, -, rfl, -⟩ := MemInstr.store.inj heq
      rw [hbytes]
      exact load_after_store _ _ _ _ _ _ _ hj

/-- A misaligned access presents nothing and raises its exception. -/
theorem Accessing.trap_next {a : Word} {j : SystemIn} (h : Accessing w s a t)
    (hu : unaligned w a = true) :
    (t.next p j).cpu.core.state =
        (faultStates (if isLoad w then .load else .store)).1 ∧
      (t.next p j).InStep ∧ (t.next p j).cpu.core.trapAddr = a ∧ t.cpu.mmu.state = .idle := by
  have hv : t.cpu.core.memValid = false := by rw [h.memValid, hu]; rfl
  have hidle : t.cpu.mmu.state = .idle := by
    by_contra hne
    exact absurd ((h.inStep.phase.latched_of_busy hne).1.reqValid.symm.trans hv) (by decide)
  have hins : t.cpu.core.isInstr = false := by
    unfold Core.isInstr
    rw [h.state]
    rcases accessState_cases w with ⟨-, hst⟩ | ⟨-, hst⟩ <;> rw [hst] <;> rfl
  have hlatch : latchesTrapAddr t.cpu.core.state = true := by
    rw [h.state]
    rcases accessState_cases w with ⟨-, hst⟩ | ⟨-, hst⟩ <;> rw [hst] <;> rfl
  refine ⟨?_, next_inStep_of_not_isInstr h.inStep hins, ?_, hidle⟩
  · rw [h.next_state (coreIn_of_idle hidle).1, hu]
    cases isLoad w <;> rfl
  · rw [← h.memAddr, next_core]
    simp [Core.next, hlatch]

/-- From the exception the run goes to the handler in two cycles. -/
theorem misaligned_run (a : AccessKind)
    (hst : (Sync.run (System.next p) s inp k).cpu.core.state = (faultStates a).1)
    (hin : (Sync.run (System.next p) s inp k).InStep) :
    entersHandler (Sync.run (System.next p) s inp (k + 1)).cpu.core.state = true ∧
      (Sync.run (System.next p) s inp (k + 2)).cpu.core.state = .fetch := by
  have hraise : raisesException (faultStates a).1 = true ∧ waitsForBus (faultStates a).1 = false ∧
      isInstruction (faultStates a).1 = false := by
    cases a <;> exact ⟨rfl, rfl, rfl⟩
  obtain ⟨hr, hb, hi⟩ := hraise
  rw [← hst] at hr hb hi
  have h1 : entersHandler (Sync.run (System.next p) s inp (k + 1)).cpu.core.state = true := by
    rw [Sync.run_succ, (next_of_idle hin hb).1]
    exact stateNxt_of_raises hr _
  have hb1 : waitsForBus (Sync.run (System.next p) s inp (k + 1)).cpu.core.state = false := by
    cases hc : (Sync.run (System.next p) s inp (k + 1)).cpu.core.state <;> rw [hc] at h1 <;>
      first | rfl | exact absurd h1 (by decide)
  have hin1 : (Sync.run (System.next p) s inp (k + 1)).InStep :=
    next_inStep_of_not_isInstr hin hi
  refine ⟨h1, ?_⟩
  rw [Sync.run_succ, (next_of_idle hin1 hb1).1]
  exact stateNxt_of_entersHandler h1 _

theorem kindOf_eq (hdec : decodeMem w = some i) :
    kindOf i = if isLoad w then .load else .store := by
  rcases decodeMem_cases hdec with ⟨hl, width, signed, -, rfl⟩ | ⟨hl, -, width, -, rfl⟩ <;>
    rw [hl] <;> rfl

theorem beforeWriteBack_states {st : FsmState} (h : beforeWriteBack st = true) :
    raisesException st = false ∧ st ≠ .fetch ∧ st ≠ .amoOpRead := by
  cases st <;> first | exact absurd h (by decide) | exact ⟨rfl, by decide, by decide⟩

theorem faultStates_kindOf (i : MemInstr) :
    raisesException (faultStates (kindOf i)).1 = true ∧ (faultStates (kindOf i)).1 ≠ .irq0 ∧
      (faultStates (kindOf i)).1 ≠ .fetch := by
  cases i <;> exact ⟨rfl, FsmState.noConfusion, FsmState.noConfusion⟩

/-- A load or store is neither an atomic nor a jump. -/
theorem not_isRmw_isJump (h : isLoad w = true ∨ isStore w = true) :
    isRmw w = false ∧ isJump w = false := by
  simp only [isLoad, isStore, beq_iff_eq] at h
  rcases h with hop | hop <;> simp [isRmw, isAmo, isJump, isJal, isJalr, hop]

/-- The states up to the access. -/
theorem Fetches.states (henv : Fetches p s inp w k) (hs : s.Begins) (hset : s.cpu.core.Settled)
    (hm : isLoad w = true ∨ isStore w = true) {j : ℕ} (hj : j < k + 4) :
    (j ≤ k ∧ (Sync.run (System.next p) s inp j).cpu.core.state = .fetch) ∨
      (k < j ∧ beforeWriteBack (Sync.run (System.next p) s inp j).cpu.core.state = true ∧
        (Sync.run (System.next p) s inp j).cpu.core.instr = w) := by
  obtain ⟨hst1, hu1⟩ := henv.decode hs hset
  obtain ⟨hst2, hu2, hacc⟩ := henv.accessing hs hset hm
  obtain hjk | rfl | rfl | rfl : j ≤ k ∨ j = k + 1 ∨ j = k + 2 ∨ j = k + 3 := by omega
  · exact .inl ⟨hjk, (henv.fetching hs hset j hjk).begins.state⟩
  · exact .inr ⟨by omega, by rw [hst1]; rfl, hu1.flight.instr⟩
  · exact .inr ⟨by omega, by rw [hst2]; rfl, hu2.flight.instr⟩
  · exact .inr ⟨by omega, by rw [hacc.state]; exact beforeWriteBack_accessState w,
      hacc.flight.instr⟩

/-- An address that is found misaligned raises the exception in the cycle after the access, and the
handler is fetched two cycles later. -/
theorem Fetches.excepts (henv : Fetches p s inp w k) (hs : s.Begins) (hset : s.cpu.core.Settled)
    (hdec : decodeMem w = some i)
    (hst4 : (Sync.run (System.next p) s inp (k + 4)).cpu.core.state = (faultStates (kindOf i)).1)
    (hin4 : (Sync.run (System.next p) s inp (k + 4)).InStep) :
    Excepts p s inp w 0#32 (k + 3 + 1) (k + 6) := by
  have hm := isLoad_or_isStore hdec
  obtain ⟨hst5, hst6⟩ := misaligned_run (kindOf i) hst4 hin4
  obtain ⟨hraise, hirq, hne⟩ := faultStates_kindOf i
  refine ⟨?_, ?_, fun j hj => ?_, fun j hj hf => ?_, fun j hj hd => ?_, fun j hj hd => ?_, by omega,
    hst6, fun j hj hj' => ?_⟩
  · rw [hst4]
    exact hraise
  · rw [hst4]
    exact hirq
  · rcases henv.states hs hset hm hj with ⟨-, hf⟩ | ⟨-, hb, -⟩
    · rw [hf]
      rfl
    · exact (beforeWriteBack_states hb).1
  · left
    rcases henv.states hs hset hm hj with ⟨hjk, -⟩ | ⟨-, hb, -⟩
    · exact fun l hl => (henv.fetching hs hset l (by omega)).begins.state
    · exact absurd hf (beforeWriteBack_states hb).2.1
  · rcases henv.states hs hset hm hj with ⟨-, hf⟩ | ⟨-, -, hw⟩
    · exact absurd (hf.symm.trans hd) (by decide)
    · exact hw
  · rcases henv.states hs hset hm hj with ⟨-, hf⟩ | ⟨-, hb, -⟩
    · exact absurd (hf.symm.trans hd) (by decide)
    · exact absurd hd (beforeWriteBack_states hb).2.2
  · obtain rfl | rfl : j = k + 4 ∨ j = k + 5 := by omega
    · rw [hst4]
      exact hne
    · intro hf
      rw [hf] at hst5
      exact absurd hst5 (by decide)

/-- At an address that is found misaligned, the exception is taken. -/
theorem Fetches.traps (henv : Fetches p s inp w k) (hs : s.Begins) (hset : s.cpu.core.Settled)
    (hdec : decodeMem w = some i) (hu : unaligned w (addressOf w s) = true) :
    TrapsMisaligned i (Sync.run (System.next p) s inp) k := by
  have hm := isLoad_or_isStore hdec
  obtain ⟨hst1, hu1⟩ := henv.decode hs hset
  obtain ⟨hst2, hu2, hacc⟩ := henv.accessing hs hset hm
  obtain ⟨hst4, hin4, htrap, hidle⟩ := hacc.trap_next (p := p) (j := inp (k + 3)) hu
  rw [← kindOf_eq hdec] at hst4
  rw [← Sync.run_succ (System.next p)] at hst4 hin4 htrap
  have hex := henv.excepts hs hset hdec hst4 hin4
  have hr := hex.raisedAt hs
  have hent := hex.enters hr.reads
  refine ⟨k + 4, k + 6, ⟨by omega, fun j hkj hj => ?_, hex.handler⟩, by omega, by omega, hst4, ?_, ?_,
    fun j hj => ReadsOnly.busReq_wstrb ?_⟩
  · rcases Nat.lt_or_ge j (k + 4) with hj4 | hj4
    · rcases henv.states hs hset hm hj4 with ⟨hjk, -⟩ | ⟨-, hb, -⟩
      · omega
      · exact (beforeWriteBack_states hb).2.1
    · exact hex.entering j hj4 hj
  · rw [hex.report_eq, reporting_misaligned _ hst4, htrap, Sync.run_zero, address_eq hdec]
  · have hend := hent (k + 6) (by omega) le_rfl
    obtain ⟨hrmw, hjump⟩ := not_isRmw_isJump hm
    refine (hr.how.precise_iff_torn hend.regs (hend.content.trans hr.content)
      (hex.epc_eq hr.reads)).2 ⟨fun h => ?_, fun h => ?_⟩
    · exact absurd (hrmw.symm.trans h.1) (by decide)
    · exact absurd (hjump.symm.trans h.1) (by decide)
  -- no cycle up to the handler has a write on the bus
  · obtain hjk | rfl | rfl | rfl | hj4 :
      j ≤ k ∨ j = k + 1 ∨ j = k + 2 ∨ j = k + 3 ∨ k + 4 ≤ j := by omega
    · exact (henv.fetching hs hset j hjk).begins.readsOnly
    · exact .inl (hu1.inStep.idle (by rw [hst1]; rfl))
    · exact .inl (hu2.inStep.idle (by rw [hst2]; rfl))
    · exact .inl hidle
    · exact (hent j hj4 hj).reads

/-- **Loads and stores are byte-exact or trap** if and only if they are not an unsigned halfword
load from an odd address: every width, address, register value and memory, with any latency of
the memory. -/
theorem loads_stores_exact_iff (hs : s.Begins) (hset : s.cpu.core.Settled)
    (hdec : decodeMem w = some i) (henv : Serves p s inp w k) :
    ByteExact i (Sync.run (System.next p) s inp) k ↔
      ¬ (isLhu i = true ∧ (i.address s.cpu.core.arch).toNat % 2 ≠ 0) := by
  have hverdict := unaligned_iff hdec (addressOf w s)
  rw [← address_eq hdec] at hverdict
  constructor
  · rintro ⟨-, htrap⟩ ⟨hlhu, hodd⟩
    have hal : unaligned w (addressOf w s) = false := by
      by_contra hno
      rw [← address_eq hdec, Bool.not_eq_false] at hno
      exact absurd (hlhu.symm.trans (hverdict.1 hno).1) (by decide)
    -- the load comes back to `FETCH` without an exception
    obtain ⟨-, n, -, -, hnext, -, -, -, hno, -⟩ := henv.lands hs hset hdec hal
    obtain ⟨m, n', hnext', hkm, hmn, hst, -⟩ := htrap (by rw [width_of_isLhu hlhu]; exact hodd)
    obtain rfl := hnext.unique hnext'
    have hr := hno m hkm hmn
    rw [hst] at hr
    exact absurd (hr.symm.trans (faultStates_kindOf i).1) (by decide)
  · intro hcond
    refine ⟨fun hal => henv.performs hs hset hdec hal, fun hmis => ?_⟩
    apply henv.toFetches.traps hs hset hdec
    rw [← address_eq hdec, hverdict]
    refine ⟨?_, hmis⟩
    by_contra hlhu
    rw [Bool.not_eq_false] at hlhu
    rw [width_of_isLhu hlhu] at hmis
    exact hcond ⟨hlhu, hmis⟩

end Run

/-! ## Concrete runs -/

/-- A memory full of one word. -/
def fullOf (w : Word) : BitVec 32 → Word := fun _ => w

theorem settled_reset (content : BitVec 32 → Word) :
    (System.reset iw dw p content).cpu.core.Settled :=
  ⟨rfl, rfl, rfl, rfl, rfl⟩

/-- `lh x1, 2(x0)` is byte-exact. -/
theorem loads_stores_exact_iff_lh :
    (System.reset 4 3 sampleParams (fullOf 0x00201083#32)).Begins ∧
      Serves sampleParams (System.reset 4 3 sampleParams (fullOf 0x00201083#32)) promptInput
        0x00201083#32 3 ∧
      ByteExact (.load .half true 1#5 0#5 2#32) (Sync.run (System.next sampleParams)
        (System.reset 4 3 sampleParams (fullOf 0x00201083#32)) promptInput) 3 := by
  have hb : (System.reset 4 3 sampleParams (fullOf 0x00201083#32)).Begins := begins_reset _ _ rfl
  have henv : Serves sampleParams (System.reset 4 3 sampleParams (fullOf 0x00201083#32)) promptInput
      0x00201083#32 3 := by
    refine ⟨by constructor <;> decide +kernel, fun _ => ⟨9, by decide, fun j hj hj' => ?_,
      by decide +kernel, by decide +kernel⟩⟩
    obtain rfl | rfl | rfl : j = 6 ∨ j = 7 ∨ j = 8 := by omega
    all_goals decide +kernel
  exact ⟨hb, henv, (loads_stores_exact_iff hb (settled_reset _) (by decide) henv).2 (by decide)⟩

/-- `lhu x1, 1(x0)` does not trap and loads the bytes 0 and 1 of its word. -/
theorem lhu_at_odd_address_loads :
    decodeMem 0x00105083#32 = some (.load .half false 1#5 0#5 1#32) ∧
      (System.reset 4 3 sampleParams (fullOf 0x00105083#32)).Begins ∧
      Serves sampleParams (System.reset 4 3 sampleParams (fullOf 0x00105083#32)) promptInput
        0x00105083#32 3 ∧
      (Sync.run (System.next sampleParams) (System.reset 4 3 sampleParams (fullOf 0x00105083#32))
        promptInput 11).cpu.core.arch.x 1#5 = 0x5083#32 ∧
      ¬ ByteExact (.load .half false 1#5 0#5 1#32) (Sync.run (System.next sampleParams)
        (System.reset 4 3 sampleParams (fullOf 0x00105083#32)) promptInput) 3 := by
  refine ⟨by decide, begins_reset _ _ rfl, ⟨by constructor <;> decide +kernel, fun _ => ⟨9, by decide,
    fun j hj hj' => ?_, by decide +kernel, by decide +kernel⟩⟩, by decide +kernel, ?_⟩
  · obtain rfl | rfl | rfl : j = 6 ∨ j = 7 ∨ j = 8 := by omega
    all_goals decide +kernel
  · rintro ⟨-, htrap⟩
    have hfetch : NextFetch (fun j => (Sync.run (System.next sampleParams)
        (System.reset 4 3 sampleParams (fullOf 0x00105083#32)) promptInput j).cpu.core) 3 11 := by
      refine ⟨by decide, fun j hj hj' => ?_, by decide +kernel⟩
      obtain rfl | rfl | rfl | rfl | rfl | rfl | rfl :
        j = 4 ∨ j = 5 ∨ j = 6 ∨ j = 7 ∨ j = 8 ∨ j = 9 ∨ j = 10 := by omega
      all_goals decide +kernel
    obtain ⟨m, n, hnext, hm, hmn, hst, -⟩ := htrap (by decide)
    obtain rfl := hnext.unique hfetch
    have hno : ∀ m, m < 11 → (Sync.run (System.next sampleParams)
        (System.reset 4 3 sampleParams (fullOf 0x00105083#32)) promptInput m).cpu.core.state
          ≠ .loadMisalign0 := by decide +kernel
    exact hno m hmn hst

end System

end KianRiscV
