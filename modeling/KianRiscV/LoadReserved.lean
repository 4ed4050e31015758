/-
# Load-reserved and store-conditional

The reservation of `main_fsm.v` and `datapath_unit.v` is one bit: every cycle of `AMO_LR_READ`
with an aligned address sets it, every cycle of `AMO_SC_WRITE` clears it, and `SC.W` asks for
nothing else.  It is not tied to an address, and traps do not touch it.

`sc_needs_lr` is about whole histories: an `SC.W` writes and returns zero only if the `LR.W` or
`SC.W` executed before it was an `LR.W`.
-/
import KianRiscV.Privilege

namespace KianRiscV

/-! ## The words behind the states -/

/-- The path of an instruction other than the atomic ones. -/
def plainPath : FsmState → Bool
  | .memAddr | .memRead | .memWb | .memWrite | .execRtype | .aluWb | .execItype | .jal | .jalr
  | .lui | .auipc | .execMul | .mulWb | .execSystem | .systemWb => true
  | _ => false

/-- The path of `LR.W` past `AMO_ADDR`. -/
def lrPath (st : FsmState) : Bool := st == .amoLrRead || st == .amoLrWb

/-- The path of the read-modify-write instructions past `AMO_ADDR`. -/
def rmwPath : FsmState → Bool
  | .amoOpRead | .amoOpWb | .amoOpExec | .amoOpAddr | .amoOpWrite => true
  | _ => false

/-- The word is one that takes this path. -/
structure AmoFact (st : FsmState) (w : Word) : Prop where
  plain : plainPath st = true → isAmo w = false
  lr : lrPath st = true → isAmoLrW w = true
  rmw : rmwPath st = true → isAmoRmw w = true

theorem amoFact_of_none {st : FsmState} (w : Word)
    (h : plainPath st = false ∧ lrPath st = false ∧ rmwPath st = false) : AmoFact st w := by
  obtain ⟨hp, hl, hr⟩ := h
  constructor <;> simp [*]

theorem amoFact_of_plain {st : FsmState} {w : Word} (hw : isAmo w = false)
    (h : lrPath st = false ∧ rmwPath st = false) : AmoFact st w := by
  obtain ⟨hl, hr⟩ := h
  constructor <;> simp [*]

theorem amoFact_decode (i : FsmIn) : AmoFact (decodeNxt i) i.instr := by
  cases hamo : isAmo i.instr with
  | true =>
    have hop : opOf i.instr = 0x2F#7 := by
      simp only [isAmo, Bool.and_eq_true, beq_iff_eq] at hamo
      exact hamo.1
    have hnxt : decodeNxt i = if i.irq.pending then .irq0 else .amoAddr := by
      simp [decodeNxt, hamo, isLoad, isStore, isRtype, isItype, isJal, isJalr, isBranch, isLui,
        isAuipc, isCsr, hop]
    rw [hnxt]
    split <;> exact amoFact_of_none _ (by decide)
  | false =>
    apply amoFact_of_plain hamo
    let P : FsmState → Prop := fun st => lrPath st = false ∧ rmwPath st = false
    show P (decodeNxt i)
    unfold decodeNxt
    repeat' refine iteInduction (motive := P) (fun _ => ?_) (fun _ => ?_)
    all_goals exact ⟨rfl, rfl⟩

/-- The edges inside the paths, and from `AMO_ADDR` into them. -/
theorem amoFact_stateNxt {st : FsmState} {i : FsmIn} (hst : st ≠ .fetch)
    (h : AmoFact st i.instr) : AmoFact (stateNxt st i) i.instr := by
  cases st
  case fetch => exact absurd rfl hst
  case decode => exact amoFact_decode i
  case amoAddr =>
    simp only [stateNxt]
    split
    · exact ⟨by simp [plainPath], fun _ => ‹_›, by simp [rmwPath]⟩
    · split
      · split <;> exact amoFact_of_none _ (by decide)
      · split
        · exact ⟨by simp [plainPath], by simp [lrPath], fun _ => ‹_›⟩
        · exact h
  all_goals
    simp only [stateNxt, accessNxt]
    repeat' refine iteInduction (motive := fun st => AmoFact st i.instr) (fun _ => ?_) (fun _ => ?_)
    all_goals
      first
      | exact h
      | exact amoFact_of_none _ (by decide)
      | exact amoFact_of_plain (h.plain rfl) (by decide)
      | exact ⟨by simp [plainPath], fun _ => h.lr rfl, by simp [rmwPath]⟩
      | exact ⟨by simp [plainPath], by simp [lrPath], fun _ => h.rmw rfl⟩

/-- After `FETCH` comes `FETCH`, `DECODE` or an exception. -/
theorem amoFact_fetched (i : FsmIn) (w : Word) : AmoFact (stateNxt .fetch i) w := by
  simp only [stateNxt, accessNxt]
  repeat' refine iteInduction (motive := fun st => AmoFact st w) (fun _ => ?_) (fun _ => ?_)
  all_goals exact amoFact_of_none _ (by decide)

theorem Core.amoFact_next {p : Params} {c : Core} {i : CoreIn} (h : AmoFact c.state c.instr) :
    AmoFact (c.next p i).state (c.next p i).instr := by
  by_cases hf : c.state = .fetch
  · cases hst : i.stall with
    | true =>
      rw [Core.next_state_of_stall _ _ hst, hf]
      exact amoFact_of_none _ (by decide)
    | false =>
      rw [Core.next_state _ _ hst, hf]
      exact amoFact_fetched _ _
  · rw [(Core.next_instr hf).1]
    cases hst : i.stall with
    | true =>
      rw [Core.next_state_of_stall _ _ hst]
      exact h
    | false =>
      rw [Core.next_state _ _ hst]
      exact amoFact_stateNxt hf h

/-! ## The way into the states of the reservation -/

section Into

variable {st : FsmState} {i : FsmIn}

theorem decodeNxt_ne_reservation :
    decodeNxt i ≠ .amoLrRead ∧ decodeNxt i ≠ .amoScWrite ∧ decodeNxt i ≠ .amoScSuccess := by
  let P : FsmState → Prop := fun st => st ≠ .amoLrRead ∧ st ≠ .amoScWrite ∧ st ≠ .amoScSuccess
  show P (decodeNxt i)
  unfold decodeNxt
  repeat' refine iteInduction (motive := P) (fun _ => ?_) (fun _ => ?_)
  all_goals exact ⟨by decide, by decide, by decide⟩

/-- What leads into the states of `LR.W` and of an `SC.W` that writes. -/
structure Enters (st nxt : FsmState) (i : FsmIn) : Prop where
  lrRead : nxt = .amoLrRead → st = .amoLrRead ∨ st = .amoAddr ∧ isAmoLrW i.instr = true
  scWrite : nxt = .amoScWrite → st = .amoScWrite ∨
    st = .amoAddr ∧ isAmoScW i.instr = true ∧ i.amoReservedStateLoad = true
  scSuccess : nxt = .amoScSuccess → st = .amoScWrite

theorem enters_stateNxt : Enters st (stateNxt st i) i := by
  cases st
  case decode =>
    obtain ⟨h1, h2, h3⟩ := decodeNxt_ne_reservation (i := i)
    exact ⟨fun h => absurd h h1, fun h => absurd h h2, fun h => absurd h h3⟩
  case amoAddr =>
    simp only [stateNxt]
    split_ifs <;> constructor <;> simp [*]
  all_goals
    simp only [stateNxt, accessNxt]
    repeat' refine iteInduction (motive := fun nxt => Enters _ nxt i) (fun _ => ?_) (fun _ => ?_)
    all_goals constructor <;> simp

end Into

/-! ## Histories -/

section Run

variable {iw dw : ℕ}

section

variable (p : Params) (s : Cpu iw dw) (inp : ℕ → CpuIn) (n : ℕ)

/-- An `LR.W` is executed in cycle `n`: it is in `AMO_ADDR`, where its address is formed. -/
def LrAt : Prop :=
  (coreAt p s inp n).state = .amoAddr ∧ isAmoLrW (coreAt p s inp n).instr = true

/-- An `SC.W` is executed in cycle `n`. -/
def ScAt : Prop :=
  (coreAt p s inp n).state = .amoAddr ∧ isAmoScW (coreAt p s inp n).instr = true

/-- One of them is executed in cycle `n`. -/
def LrScAt : Prop := LrAt p s inp n ∨ ScAt p s inp n

/-- Before cycle `n`, an `LR.W` was executed last. -/
def LrBefore : Prop := ∃ j, Sync.IsLast (LrScAt p s inp) n j ∧ LrAt p s inp j

/-- Before cycle `n`, an `SC.W` was executed last, and an `LR.W` before it. -/
def LrScBefore : Prop :=
  ∃ k, Sync.IsLast (LrScAt p s inp) n k ∧ ScAt p s inp k ∧ LrBefore p s inp k

/-- In cycle `n` an `SC.W` presents a write or returns zero. -/
def ScActsAt : Prop :=
  isAmo (coreAt p s inp n).instr = true ∧ isAmoScW (coreAt p s inp n).instr = true ∧
    ((coreAt p s inp n).memValid = true ∧ (coreAt p s inp n).memWstrb ≠ 0#4 ∨
      (coreAt p s inp n).ctl.regWrite = true ∧ (coreAt p s inp n).result = 0#32)

/-- The `SC.W` executed in cycle `n` returns one, and no write is presented before the next
`FETCH`. -/
structure ScFails : Prop where
  returns : (coreAt p s inp (n + 2)).regs =
    Core.writeReg (coreAt p s inp n).regs true (rdOf (coreAt p s inp n).instr) 1#32
  silent : ∀ m, n ≤ m → (∀ j, n < j → j ≤ m → (coreAt p s inp j).state ≠ .fetch) →
    (coreAt p s inp m).memWstrb = 0#4

/-- What the state and the reservation say about the history. -/
structure Tied : Prop where
  word : AmoFact (coreAt p s inp n).state (coreAt p s inp n).instr
  bit : (coreAt p s inp n).amoReservedStateLoad = true →
    (coreAt p s inp n).state ≠ .amoScWrite → LrBefore p s inp n
  lrRead : (coreAt p s inp n).state = .amoLrRead → LrBefore p s inp n
  scWrite : (coreAt p s inp n).state = .amoScWrite → LrScBefore p s inp n
  scSuccess : (coreAt p s inp n).state = .amoScSuccess → LrScBefore p s inp n

end

variable {p : Params} {s : Cpu iw dw} {inp : ℕ → CpuIn} {n : ℕ}

theorem not_lrScAt (h : (coreAt p s inp n).state ≠ .amoAddr) : ¬ LrScAt p s inp n := by
  rintro (⟨ha, -⟩ | ⟨ha, -⟩) <;> exact h ha

theorem LrBefore.succ (h : LrBefore p s inp n) (hn : ¬ LrScAt p s inp n) :
    LrBefore p s inp (n + 1) := by
  obtain ⟨j, hj, hl⟩ := h
  exact ⟨j, hj.succ hn, hl⟩

theorem LrScBefore.succ (h : LrScBefore p s inp n) (hn : ¬ LrScAt p s inp n) :
    LrScBefore p s inp (n + 1) := by
  obtain ⟨k, hk, hs, hl⟩ := h
  exact ⟨k, hk.succ hn, hs, hl⟩

theorem LrAt.before (h : LrAt p s inp n) : LrBefore p s inp (n + 1) :=
  ⟨n, Sync.isLast_self (.inl h), h⟩

theorem ScAt.before (h : ScAt p s inp n) (hl : LrBefore p s inp n) : LrScBefore p s inp (n + 1) :=
  ⟨n, Sync.isLast_self (.inr h), h, hl⟩

/-- `AMO_ADDR` is not stalled. -/
theorem state_succ_amoAddr (hs : s.IsReset p) (h : (coreAt p s inp n).state = .amoAddr) :
    (coreAt p s inp (n + 1)).state =
      stateNxt .amoAddr ((coreAt p s inp n).fsmIn (coreInAt p s inp n)) := by
  rw [state_succ_afterDecode hs (by rw [h]; rfl), h]

/-- Every edge is a stall or one of the state machine. -/
theorem state_succ_cases (p : Params) (s : Cpu iw dw) (inp : ℕ → CpuIn) (n : ℕ) :
    (coreAt p s inp (n + 1)).state = (coreAt p s inp n).state ∨
      (coreAt p s inp (n + 1)).state = stateNxt (coreAt p s inp n).state
        ((coreAt p s inp n).fsmIn (coreInAt p s inp n)) := by
  rw [coreAt_succ]
  cases hst : (coreInAt p s inp n).stall with
  | true => exact .inl (Core.next_state_of_stall _ _ hst)
  | false => exact .inr (Core.next_state _ _ hst)

theorem enters_succ (p : Params) (s : Cpu iw dw) (inp : ℕ → CpuIn) (n : ℕ) :
    Enters (coreAt p s inp n).state (coreAt p s inp (n + 1)).state
        ((coreAt p s inp n).fsmIn (coreInAt p s inp n)) ∨
      (coreAt p s inp (n + 1)).state = (coreAt p s inp n).state := by
  rcases state_succ_cases p s inp n with h | h
  · exact .inr h
  · rw [h]
    exact .inl enters_stateNxt

/-! ### One step of the history -/

theorem Tied.lrRead_next (h : Tied p s inp n)
    (hst : (coreAt p s inp (n + 1)).state = .amoLrRead) : LrBefore p s inp (n + 1) := by
  have hstay : (coreAt p s inp n).state = .amoLrRead → LrBefore p s inp (n + 1) := fun hold =>
    (h.lrRead hold).succ (not_lrScAt (by simp [hold]))
  rcases enters_succ p s inp n with he | he
  · rcases he.lrRead hst with hold | ⟨ha, hl⟩
    · exact hstay hold
    · exact LrAt.before ⟨ha, hl⟩
  · exact hstay (he.symm.trans hst)

theorem Tied.scWrite_next (h : Tied p s inp n)
    (hst : (coreAt p s inp (n + 1)).state = .amoScWrite) : LrScBefore p s inp (n + 1) := by
  have hstay : (coreAt p s inp n).state = .amoScWrite → LrScBefore p s inp (n + 1) := fun hold =>
    (h.scWrite hold).succ (not_lrScAt (by simp [hold]))
  rcases enters_succ p s inp n with he | he
  · rcases he.scWrite hst with hold | ⟨ha, hsc, hbit⟩
    · exact hstay hold
    · exact ScAt.before ⟨ha, hsc⟩ (h.bit hbit (by simp [ha]))
  · exact hstay (he.symm.trans hst)

theorem Tied.scSuccess_next (h : Tied p s inp n)
    (hst : (coreAt p s inp (n + 1)).state = .amoScSuccess) : LrScBefore p s inp (n + 1) := by
  rcases enters_succ p s inp n with he | he
  · have hold := he.scSuccess hst
    exact (h.scWrite hold).succ (not_lrScAt (by simp [hold]))
  · have hold := he.symm.trans hst
    exact (h.scSuccess hold).succ (not_lrScAt (by simp [hold]))

/-- The bit is set by `AMO_LR_READ`, cleared by `AMO_SC_WRITE`, and otherwise kept. -/
theorem Tied.bit_next (hs : s.IsReset p) (h : Tied p s inp n)
    (hbit : (coreAt p s inp (n + 1)).amoReservedStateLoad = true)
    (hst : (coreAt p s inp (n + 1)).state ≠ .amoScWrite) : LrBefore p s inp (n + 1) := by
  rw [coreAt_succ] at hbit
  simp only [Core.next] at hbit
  by_cases hlr : (coreAt p s inp n).state = .amoLrRead
  · exact (h.lrRead hlr).succ (not_lrScAt (by simp [hlr]))
  · by_cases hsc : (coreAt p s inp n).state = .amoScWrite
    · simp [amoSetReservedStateLoad, hsc, Core.ctl, moore] at hbit
    · have hset : amoSetReservedStateLoad (coreAt p s inp n).state
          (coreAt p s inp n).loadUnaligned = false := by
        unfold amoSetReservedStateLoad
        split <;> simp_all
      have hkept : (coreAt p s inp n).amoReservedStateLoad = true := by simpa [hset] using hbit
      by_cases ha : (coreAt p s inp n).state = .amoAddr
      · by_cases hl : isAmoLrW (coreAt p s inp n).instr = true
        · exact LrAt.before ⟨ha, hl⟩
        · by_cases hw : isAmoScW (coreAt p s inp n).instr = true
          · -- the `SC.W` goes on to its write
            rw [state_succ_amoAddr hs ha] at hst
            exact absurd (by simp [stateNxt, Core.fsmIn, hl, hw, hkept]) hst
          · refine (h.bit hkept hsc).succ ?_
            rintro (⟨-, hl'⟩ | ⟨-, hw'⟩)
            · exact hl hl'
            · exact hw hw'
      · exact (h.bit hkept hsc).succ (not_lrScAt ha)

theorem tied_run (hs : s.IsReset p) (inp : ℕ → CpuIn) (n : ℕ) : Tied p s inp n := by
  induction n with
  | zero =>
    have h0 : (coreAt p s inp 0).state = .fetch := hs.1.1
    have hbit : (coreAt p s inp 0).amoReservedStateLoad = false := hs.1.2.2.2.2.2.2.2.2.1
    constructor
    · rw [h0]
      exact amoFact_of_none _ (by decide)
    all_goals simp [h0, hbit]
  | succ n ih =>
    exact ⟨Core.amoFact_next ih.word, ih.bit_next hs, ih.lrRead_next, ih.scWrite_next,
      ih.scSuccess_next⟩

/-! ### What an `SC.W` does -/

theorem isAmoScW_not_lr {w : Word} (h : isAmoScW w = true) : isAmoLrW w = false := by
  simp only [isAmoScW, beq_iff_eq] at h
  simp [isAmoLrW, h]

theorem isAmoScW_not_rmw {w : Word} (h : isAmoScW w = true) : isAmoRmw w = false := by
  simp only [isAmoScW, beq_iff_eq] at h
  simp [isAmoRmw, isAmoaddW, isAmoswapW, isAmoxorW, isAmoandW, isAmoorW, isAmominW, isAmomaxW,
    isAmominuW, isAmomaxuW, h]

/-- The states in which an `SC.W` acts. -/
theorem Tied.state_of_scActs (h : Tied p s inp n) (ha : ScActsAt p s inp n) :
    (coreAt p s inp n).state = .amoScWrite ∨ (coreAt p s inp n).state = .amoScSuccess := by
  obtain ⟨hamo, hsc, hacts⟩ := ha
  have hplain : plainPath (coreAt p s inp n).state = false := by
    by_contra hp
    exact absurd ((h.word.plain (by simpa using hp)).symm.trans hamo) (by decide)
  have hlr : lrPath (coreAt p s inp n).state = false := by
    by_contra hl
    exact absurd ((isAmoScW_not_lr hsc).symm.trans (h.word.lr (by simpa using hl))) (by decide)
  have hrmw : rmwPath (coreAt p s inp n).state = false := by
    by_contra hr
    exact absurd ((isAmoScW_not_rmw hsc).symm.trans (h.word.rmw (by simpa using hr))) (by decide)
  rcases hacts with ⟨-, hw⟩ | ⟨hw, hz⟩
  · have hstore : Core.storesData (coreAt p s inp n).state = true := by
      by_contra hno
      exact hw (Core.memWstrb_eq_zero (by simpa using hno))
    left
    revert hstore hplain hrmw
    cases (coreAt p s inp n).state <;> simp [Core.storesData, plainPath, rmwPath]
  · rw [Core.ctl, Core.moore_regWrite] at hw
    have hfail : (coreAt p s inp n).state ≠ .amoScFail := by
      intro hf
      simp [Core.result, Core.ctl, hf, moore, boolWord] at hz
    right
    revert hw hplain hlr hrmw hfail
    cases (coreAt p s inp n).state <;> simp [Core.writesBack, plainPath, lrPath, rmwPath]

/-- Without a reservation an `SC.W` fails. -/
theorem Tied.scFails (hs : s.IsReset p) (h : Tied p s inp n) (hsc : ScAt p s inp n)
    (hno : ¬ LrBefore p s inp n) : ScFails p s inp n := by
  obtain ⟨ha, hw⟩ := hsc
  have hbit : (coreAt p s inp n).amoReservedStateLoad = false := by
    by_contra hb
    exact hno (h.bit (by simpa using hb) (by simp [ha]))
  have h1 : (coreAt p s inp (n + 1)).state = .amoScFail := by
    rw [state_succ_amoAddr hs ha]
    simp [stateNxt, Core.fsmIn, isAmoScW_not_lr hw, hw, hbit]
  have h2 : (coreAt p s inp (n + 2)).state = .fetch := by
    rw [state_succ_afterDecode hs (by rw [h1]; rfl), h1]
    rfl
  constructor
  · have hregs : (coreAt p s inp (n + 1)).regs = (coreAt p s inp n).regs := by
      rw [coreAt_succ]
      exact Core.next_regs (by rw [ha]; rfl)
    have hinstr : (coreAt p s inp (n + 1)).instr = (coreAt p s inp n).instr := by
      rw [coreAt_succ]
      exact (Core.next_instr (by simp [ha])).1
    rw [coreAt_succ]
    simp only [Core.next, hregs, hinstr, Core.result, Core.ctl, h1, moore]
    rfl
  · intro m hnm hfetch
    have hm : m = n ∨ m = n + 1 := by
      by_contra hne
      exact hfetch (n + 2) (by omega) (by omega) h2
    rcases hm with rfl | rfl
    · exact Core.memWstrb_eq_zero (by rw [ha]; rfl)
    · exact Core.memWstrb_eq_zero (by rw [h1]; rfl)

end Run

/-- **Store-conditional needs a load-reserved.**  In every run from reset, an `SC.W` presents a
write or returns zero only if, of the `LR.W` and `SC.W` executed before it, the last was an
`LR.W`; otherwise it presents no write and returns one. -/
theorem sc_needs_lr {iw dw : ℕ} {p : Params} {s : Cpu iw dw} (hs : s.IsReset p)
    (inp : ℕ → CpuIn) (n : ℕ) :
    (ScActsAt p s inp n →
      ∃ k, Sync.IsLast (LrScAt p s inp) n k ∧ ScAt p s inp k ∧ LrBefore p s inp k) ∧
    (ScAt p s inp n → ¬ LrBefore p s inp n → ScFails p s inp n) := by
  have h := tied_run hs inp n
  refine ⟨fun ha => ?_, fun hsc hno => h.scFails hs hsc hno⟩
  rcases h.state_of_scActs ha with hst | hst
  · exact h.scWrite hst
  · exact h.scSuccess hst

/-- A program over a memory of sevens. -/
def overSevens (prog : List Word) : System 4 3 :=
  System.reset 4 3 sampleParams fun a => prog.getD a.toNat 7#32

/-- `lr.w x2, (x0); addi x1, x0, 64; sc.w x3, x0, (x1)`. -/
def lrScProgram : System 4 3 := overSevens [0x1000212F#32, 0x04000093#32, 0x1800A1AF#32]

/-- `sc.w x3, x0, (x1)` alone. -/
def scProgram : System 4 3 := overSevens [0x1800A1AF#32]

theorem lrScProgram_scActs :
    ScActsAt sampleParams lrScProgram.cpu (lrScProgram.busAt sampleParams promptInput) 26 := by
  unfold ScActsAt
  rw [coreAt_busAt]
  exact ⟨by decide +kernel, by decide +kernel, .inr ⟨by decide +kernel, by decide +kernel⟩⟩

theorem sc_needs_lr_programs :
    (∃ k, Sync.IsLast (LrScAt sampleParams lrScProgram.cpu
          (lrScProgram.busAt sampleParams promptInput)) 26 k ∧
        ScAt sampleParams lrScProgram.cpu (lrScProgram.busAt sampleParams promptInput) k ∧
        LrBefore sampleParams lrScProgram.cpu (lrScProgram.busAt sampleParams promptInput) k) ∧
      ScFails sampleParams scProgram.cpu (scProgram.busAt sampleParams promptInput) 5 := by
  have hreset : scProgram.cpu.IsReset sampleParams := (System.reset_isReset 4 3 sampleParams _).1
  constructor
  · exact (sc_needs_lr (System.reset_isReset 4 3 sampleParams _).1 _ 26).1 lrScProgram_scActs
  · refine (sc_needs_lr hreset _ 5).2 ?_ ?_
    · unfold ScAt
      rw [coreAt_busAt]
      exact ⟨by decide +kernel, by decide +kernel⟩
    · rintro ⟨j, hj, hl, -⟩
      have hno : ∀ j < 5, (Sync.run (System.next sampleParams) scProgram promptInput
          j).cpu.core.state ≠ .amoAddr := by decide +kernel
      rw [coreAt_busAt] at hl
      exact hno j hj.1 hl

/-- An `LR.W` at address 0 lets an `SC.W` at address 64 write there and return zero. -/
theorem sc_writes_elsewhere :
    (Sync.run (System.next sampleParams) lrScProgram promptInput 25).mem.content 16#32 = 7#32 ∧
      (Sync.run (System.next sampleParams) lrScProgram promptInput 26).mem.content 16#32 = 0#32 ∧
      ¬ (ScActsAt sampleParams lrScProgram.cpu (lrScProgram.busAt sampleParams promptInput) 26 →
        ∃ k j,
          Sync.IsLast (LrScAt sampleParams lrScProgram.cpu
            (lrScProgram.busAt sampleParams promptInput)) 26 k ∧
          Sync.IsLast (LrScAt sampleParams lrScProgram.cpu
            (lrScProgram.busAt sampleParams promptInput)) k j ∧
          LrAt sampleParams lrScProgram.cpu (lrScProgram.busAt sampleParams promptInput) j ∧
          (coreAt sampleParams lrScProgram.cpu (lrScProgram.busAt sampleParams promptInput)
              j).aluResult =
            (coreAt sampleParams lrScProgram.cpu (lrScProgram.busAt sampleParams promptInput)
              k).aluResult) := by
  refine ⟨by decide +kernel, by decide +kernel, fun h => ?_⟩
  obtain ⟨k, j, hk, hj, hl, heq⟩ := h lrScProgram_scActs
  have hat : ∀ i < 26, (Sync.run (System.next sampleParams) lrScProgram promptInput
      i).cpu.core.state = .amoAddr → i = 5 ∨ i = 21 := by decide +kernel
  have hatomic : ∀ i < 26, LrScAt sampleParams lrScProgram.cpu
      (lrScProgram.busAt sampleParams promptInput) i → i = 5 ∨ i = 21 := by
    rintro i hi (⟨ha, -⟩ | ⟨ha, -⟩) <;> rw [coreAt_busAt] at ha <;> exact hat i hi ha
  have hjk := hj.1
  have hk26 := hk.1
  have hj5 := hatomic j (by omega) hj.2.1
  have hk21 := hatomic k hk26 hk.2.1
  obtain ⟨rfl, rfl⟩ : j = 5 ∧ k = 21 := by omega
  rw [coreAt_busAt, coreAt_busAt] at heq
  exact absurd heq (by decide +kernel)

end KianRiscV
