/-
# What `instret` counts

`retire_pulse_int` is a disjunction over states, decided apart from the next state.  Between
the `FETCH` of an instruction and the next one it is raised once if the instruction completes
and not at all if it traps, with three exceptions: an instruction that would complete in
`DECODE` is counted even if an interrupt takes its place, `SFENCE.VMA` is not counted in Bare
mode, and a jump, branch or return whose target turns out misaligned has been counted before.
-/
import KianRiscV.PreciseTraps
import KianRiscV.TrapGating
import KianRiscV.Transactions

namespace KianRiscV

/-! ## Retirement and the next state -/

/-- The instructions that complete in `DECODE`. -/
def FsmIn.completes (i : FsmIn) : Bool :=
  (isSfenceVma i.instr && i.isSfenceVmaLegal) || isFence i.instr || isFenceI i.instr ||
    i.wfiAllowed

/-- A legal `SFENCE.VMA` in Bare mode. -/
def FsmIn.bareSfence (i : FsmIn) : Bool :=
  isSfenceVma i.instr && i.isSfenceVmaLegal && !i.satpMode

theorem decodeNxt_of_isFence {i : FsmIn} (hp : i.irq.pending = false)
    (h : isFence i.instr = true ∨ isFenceI i.instr = true) : decodeNxt i = .fetch := by
  have hop : opOf i.instr = 0b0001111#7 := by
    simp only [isFence, isFenceI, Bool.and_eq_true, beq_iff_eq] at h
    exact h.elim And.left And.left
  have hne : isSfenceVma i.instr = false := by simp [isSfenceVma, hop]
  rcases h with h | h <;>
    simp [decodeNxt, hp, h, hne, isLoad, isStore, isRtype, isItype, isJal, isJalr, isBranch, isLui,
      isAuipc, isCsr, isAmo, hop]

/-- With no interrupt pending, `DECODE` leads back to `FETCH` for these instructions. -/
theorem decodeNxt_eq_fetch_iff {i : FsmIn} (hp : i.irq.pending = false) :
    decodeNxt i = .fetch ↔ i.completes = true := by
  constructor
  · let P : FsmState → Prop := fun nxt => nxt = .fetch → i.completes = true
    have hP : P (decodeNxt i) := by
      unfold decodeNxt
      repeat' refine iteInduction (motive := P) (fun h => ?_) (fun _ => ?_)
      all_goals
        first
        | exact fun hno => absurd hno (by decide)
        | exact fun _ => by simp [FsmIn.completes, *]
    exact hP
  · intro h
    simp only [FsmIn.completes, Bool.or_eq_true, Bool.and_eq_true] at h
    rcases h with ((⟨hs, hl⟩ | hf) | hf) | hw
    · rw [decodeNxt_of_isSfenceVma hp hs, if_pos hl]
    · exact decodeNxt_of_isFence hp (.inl hf)
    · exact decodeNxt_of_isFence hp (.inr hf)
    · simp only [FsmIn.wfiAllowed, Bool.and_eq_true, Bool.not_eq_true'] at hw
      rw [decodeNxt_of_isWfi hp hw.1, hw.2]
      rfl

/-- `DECODE` counts them, `SFENCE.VMA` only with translation on. -/
theorem retirePulse_decode (i : FsmIn) :
    retirePulse .decode i = (i.completes && !i.bareSfence) := by
  cases hs : isSfenceVma i.instr with
  | false => simp [retirePulse, FsmIn.completes, FsmIn.bareSfence, FsmIn.sfenceVmaEffective, hs]
  | true =>
    have hop : opOf i.instr = 0b1110011#7 ∧ funct7Of i.instr = 0b0001001#7 := by
      simp only [isSfenceVma, Bool.and_eq_true, beq_iff_eq] at hs
      exact ⟨hs.1.1, hs.2⟩
    have hw : isWfi i.instr = false := by
      by_contra hw
      have hw' : i.instr = 0x10500073#32 := by simpa [isWfi] using hw
      rw [hw'] at hop
      exact absurd hop.2 (by decide)
    simp only [retirePulse, FsmIn.completes, FsmIn.bareSfence, FsmIn.sfenceVmaEffective,
      FsmIn.wfiAllowed, hs, hw, isFence, isFenceI, hop.1]
    cases i.isSfenceVmaLegal <;> cases i.satpMode <;> rfl

/-- Past `DECODE`, the edge that retires an instruction leads to `FETCH`. -/
theorem stateNxt_of_retirePulse {st : FsmState} {i : FsmIn} (h : retirePulse st i = true)
    (hd : st ≠ .decode) (hf : i.memReady = true → i.pageFault = false) :
    stateNxt st i = .fetch := by
  cases st
  case decode => exact absurd rfl hd
  case memWrite | amoOpWrite =>
    simp only [retirePulse, Bool.and_eq_true, Bool.not_eq_true'] at h
    simp [stateNxt, accessNxt, h.1.1, h.1.2, h.2, hf h.1.1]
  all_goals first | rfl | exact absurd h Bool.false_ne_true

/-- An edge to `FETCH` other than those of the handlers retires an instruction. -/
theorem retirePulse_of_stateNxt {st : FsmState} {i : FsmIn} (h : stateNxt st i = .fetch)
    (hst : st ≠ .fetch ∧ st ≠ .decode ∧ st ≠ .wfi ∧ st ≠ .amoComplete)
    (hh : System.entersHandler st = false) : retirePulse st i = true := by
  cases st
  case memWrite | amoOpWrite =>
    simp only [stateNxt, accessNxt] at h
    split_ifs at h with hu hf hr ha
    simp [retirePulse, hr, ha, hu]
  case decode => exact absurd rfl hst.2.1
  all_goals
    simp only [stateNxt, accessNxt] at h
    first
    | rfl
    | exact absurd h (by decide)
    | exact absurd hh (by decide)
    | exact absurd rfl hst.1
    | exact absurd rfl hst.2.2.1
    | exact absurd rfl hst.2.2.2
    | (split_ifs at h)

theorem not_retirePulse_of_entersHandler {st : FsmState} (h : System.entersHandler st = true)
    (i : FsmIn) : retirePulse st i = false := by
  cases st <;> first | rfl | exact absurd h (by decide)

/-- The second state of an exception follows its first. -/
theorem raises_of_entersHandler_stateNxt {st : FsmState} {i : FsmIn}
    (h : System.entersHandler (stateNxt st i) = true) : raisesException st = true := by
  let P : FsmState → Prop := fun nxt =>
    System.entersHandler nxt = true → raisesException st = true
  suffices hP : P (stateNxt st i) from hP h
  cases st
  case decode =>
    show P (decodeNxt i)
    unfold decodeNxt
    repeat' refine iteInduction (motive := P) (fun _ => ?_) (fun _ => ?_)
    all_goals exact fun hno => absurd hno (by decide)
  all_goals
    simp only [stateNxt, accessNxt]
    repeat' refine iteInduction (motive := P) (fun _ => ?_) (fun _ => ?_)
    all_goals
      first
      | exact fun _ => rfl
      | exact fun hno => absurd hno (by decide)

/-- `WFI` and `AMO_COMPLETE` are never entered. -/
theorem stateNxt_ne_unused (st : FsmState) (i : FsmIn) :
    stateNxt st i ≠ .wfi ∧ stateNxt st i ≠ .amoComplete := by
  let P : FsmState → Prop := fun nxt => nxt ≠ .wfi ∧ nxt ≠ .amoComplete
  show P (stateNxt st i)
  cases st
  case decode =>
    show P (decodeNxt i)
    unfold decodeNxt
    repeat' refine iteInduction (motive := P) (fun _ => ?_) (fun _ => ?_)
    all_goals exact ⟨by decide, by decide⟩
  all_goals
    simp only [stateNxt, accessNxt]
    repeat' refine iteInduction (motive := P) (fun _ => ?_) (fun _ => ?_)
    all_goals exact ⟨by decide, by decide⟩

/-- An answered fetch leads to `DECODE` or an exception. -/
theorem stateNxt_fetch (i : FsmIn) :
    stateNxt .fetch i = .fetch ∨ stateNxt .fetch i = .decode ∨
      raisesException (stateNxt .fetch i) = true := by
  simp only [stateNxt, accessNxt]
  split_ifs
  · exact .inr (.inr rfl)
  · exact .inr (.inr rfl)
  · exact .inr (.inr rfl)
  · exact .inr (.inl rfl)
  · exact .inl rfl

/-- A waiting state retires an instruction only with an answer. -/
theorem memReady_of_retirePulse {st : FsmState} {i : FsmIn} (h : retirePulse st i = true)
    (hw : waitsForBus st = true) : i.memReady = true := by
  cases st
  case memWrite | amoOpWrite =>
    simp only [retirePulse, Bool.and_eq_true] at h
    exact h.1.1
  all_goals first | exact absurd h Bool.false_ne_true | exact absurd hw (by decide)

/-! ## The counter -/

namespace CsrUnit

theorem eventNext_instrCounter (c : CsrUnit) (i : CsrIn) :
    (c.eventNext i).instrCounter = c.instrCounter := by
  have hwrite : ∀ (c : CsrUnit) (a : BitVec 12) (w : Word),
      (c.write a w).instrCounter = c.instrCounter := by
    intro c a w
    let P : CsrUnit → Prop := fun c' => c'.instrCounter = c.instrCounter
    show P (c.write a w)
    unfold write
    repeat' refine iteInduction (motive := P) (fun _ => ?_) (fun _ => ?_)
    all_goals exact rfl
  unfold eventNext
  dsimp only
  split_ifs
  · unfold takeException
    split <;> rfl
  · rfl
  · rfl
  · exact hwrite _ _ _
  · rfl

theorem next_instrCounter (clk : ℕ) (c : CsrUnit) (i : CsrIn) :
    (c.next clk i).instrCounter
      = if i.incrInstRetired then c.instrCounter + 1 else c.instrCounter := by
  have h := eventNext_instrCounter c i
  unfold next
  split <;> simp only [countersNext, h]

end CsrUnit

section Run

variable {iw dw : ℕ} {p : Params} {s : Cpu iw dw} {inp : ℕ → CpuIn}

/-- What `main_fsm` sees in cycle `n`. -/
def fsmInAt (p : Params) (s : Cpu iw dw) (inp : ℕ → CpuIn) (n : ℕ) : FsmIn :=
  (coreAt p s inp n).fsmIn (coreInAt p s inp n)

/-- `incr_inst_retired` in cycle `n`. -/
def retiresAt (p : Params) (s : Cpu iw dw) (inp : ℕ → CpuIn) (n : ℕ) : Bool :=
  retirePulse (coreAt p s inp n).state (fsmInAt p s inp n)

/-- `instr_counter` in cycle `n`. -/
def instretAt (p : Params) (s : Cpu iw dw) (inp : ℕ → CpuIn) (n : ℕ) : BitVec 64 :=
  (coreAt p s inp n).csr.instrCounter

theorem instretAt_succ (n : ℕ) :
    instretAt p s inp (n + 1)
      = if retiresAt p s inp n then instretAt p s inp n + 1 else instretAt p s inp n := by
  unfold instretAt
  rw [csr_succ]
  exact CsrUnit.next_instrCounter _ _ _

/-- Cycles that retire nothing leave the counter alone. -/
theorem instretAt_const {a b : ℕ} (hab : a ≤ b)
    (h : ∀ k, a ≤ k → k < b → retiresAt p s inp k = false) :
    instretAt p s inp b = instretAt p s inp a := by
  induction b, hab using Nat.le_induction with
  | base => rfl
  | succ b hab ih =>
    rw [instretAt_succ, h b hab (by omega), if_neg Bool.false_ne_true]
    exact ih fun k hk hkb => h k hk (by omega)

/-! ## One instruction -/

/-- The instruction whose `FETCH` begins in cycle `f`: the fetch ends before cycle `e`, and
the next one begins in cycle `g`. -/
structure Slot (p : Params) (s : Cpu iw dw) (inp : ℕ → CpuIn) (f e g : ℕ) : Prop where
  begins : ∀ b, f = b + 1 → (coreAt p s inp b).state ≠ .fetch
  fetches : ∀ k, f ≤ k → k < e → (coreAt p s inp k).state = .fetch
  executes : ∀ k, e ≤ k → k < g → (coreAt p s inp k).state ≠ .fetch
  ends : (coreAt p s inp g).state = .fetch
  fetch_lt : f < e
  exec_lt : e < g

/-- The instruction traps, is pre-empted by an interrupt, or goes to a misaligned target. -/
def Traps (p : Params) (s : Cpu iw dw) (inp : ℕ → CpuIn) (f g : ℕ) : Prop :=
  TakesTrap (coreAt p s inp) f g ∨ (coreAt p s inp g).pc.extractLsb' 0 2 ≠ 0#2

/-- `instret` counts the instruction if it does not trap, and only then. -/
def Counted (p : Params) (s : Cpu iw dw) (inp : ℕ → CpuIn) (f g : ℕ) : Prop :=
  (Traps p s inp f g → instretAt p s inp g = instretAt p s inp f) ∧
    (¬ Traps p s inp f g → instretAt p s inp g = instretAt p s inp f + 1)

/-- An interrupt takes the place of an instruction that would complete in `DECODE`. -/
def Preempted (p : Params) (s : Cpu iw dw) (inp : ℕ → CpuIn) (e : ℕ) : Prop :=
  (coreAt p s inp e).state = .decode ∧ (fsmInAt p s inp e).irq.pending = true ∧
    (fsmInAt p s inp e).completes = true ∧ (fsmInAt p s inp e).bareSfence = false

/-- `SFENCE.VMA` is executed in Bare mode. -/
def BareSfence (p : Params) (s : Cpu iw dw) (inp : ℕ → CpuIn) (e : ℕ) : Prop :=
  (coreAt p s inp e).state = .decode ∧ (fsmInAt p s inp e).irq.pending = false ∧
    (fsmInAt p s inp e).bareSfence = true

/-- The instruction takes no trap of its own but goes to a misaligned target. -/
def MisalignedTarget (p : Params) (s : Cpu iw dw) (inp : ℕ → CpuIn) (f g : ℕ) : Prop :=
  ¬ TakesTrap (coreAt p s inp) f g ∧ (coreAt p s inp g).pc.extractLsb' 0 2 ≠ 0#2

section Slot

variable {f e g : ℕ}

/-- What the cycles of an instruction do, on a bus without early answers. -/
structure Regular (p : Params) (s : Cpu iw dw) (inp : ℕ → CpuIn) (g : ℕ) : Prop where
  inTurn : ∀ k, k < g → (Sync.run (Cpu.next p) s inp k).InTurn
  late : ∀ k, k < g → ¬ EarlyAnswer p s inp k

theorem Regular.stall (h : Regular p s inp g) {k : ℕ} (hk : k < g)
    (hw : waitsForBus (coreAt p s inp k).state = false) : (coreInAt p s inp k).stall = false := by
  show (Sync.run (Cpu.next p) s inp k).mmu.stall = false
  have hidle : (Sync.run (Cpu.next p) s inp k).mmu.state = .idle := by
    by_contra hb
    exact absurd (((h.inTurn k hk).waits hb).symm.trans hw) (by decide)
  rw [Sv32.stall, hidle]
  rfl

theorem Regular.state_succ (h : Regular p s inp g) {k : ℕ} (hk : k < g)
    (hw : waitsForBus (coreAt p s inp k).state = false) :
    (coreAt p s inp (k + 1)).state = stateNxt (coreAt p s inp k).state (fsmInAt p s inp k) := by
  rw [coreAt_succ]
  exact Core.next_state _ _ (h.stall hk hw)

/-- Past `DECODE` an instruction retires with its last cycle. -/
theorem Regular.state_succ_of_retires (h : Regular p s inp g) {k : ℕ} (hk : k < g)
    (hd : (coreAt p s inp k).state ≠ .decode) (hr : retiresAt p s inp k = true) :
    (coreAt p s inp (k + 1)).state = .fetch := by
  -- an answer reaches the core in `STATE_ACCESS`, with no page fault standing
  have hacc : (coreInAt p s inp k).memReady = true →
      (coreInAt p s inp k).stall = false ∧ (coreInAt p s inp k).pageFault = false := by
    intro hm
    have hst := (Sv32.access_of_cpuReady (early_eq_false (h.late k hk)) hm).1
    refine ⟨?_, ((h.inTurn k hk).turn.latched (by rw [hst]; decide)).2⟩
    show (Sync.run (Cpu.next p) s inp k).mmu.stall = false
    rw [Sv32.stall, hst]
    rfl
  have hstall : (coreInAt p s inp k).stall = false := by
    cases hw : waitsForBus (coreAt p s inp k).state with
    | false => exact h.stall hk hw
    | true => exact (hacc (memReady_of_retirePulse hr hw)).1
  rw [coreAt_succ, Core.next_state _ _ hstall]
  exact stateNxt_of_retirePulse hr hd fun hm => (hacc hm).2

theorem exceptionEvent_iff (k : ℕ) :
    (coreAt p s inp k).ctl.exceptionEvent = true ↔
      raisesException (coreAt p s inp k).state = true := by
  rw [Core.ctl, moore_exceptionEvent]

/-- The exception raised in cycle `k` ends the instruction two cycles later. -/
theorem Slot.end_of_raises (hslot : Slot p s inp f e g) (h : Regular p s inp g) {k : ℕ}
    (hek : e ≤ k) (hkg : k < g) (hr : raisesException (coreAt p s inp k).state = true) :
    g = k + 2 ∧ System.entersHandler (coreAt p s inp (k + 1)).state = true := by
  have hw : waitsForBus (coreAt p s inp k).state = false := (raises_quiet hr).1
  have h1 : System.entersHandler (coreAt p s inp (k + 1)).state = true := by
    rw [h.state_succ hkg hw]
    exact System.stateNxt_of_raises hr _
  have hg1 : k + 1 < g := by
    by_contra hge
    obtain rfl : g = k + 1 := by omega
    rw [hslot.ends] at h1
    exact absurd h1 (by decide)
  have hw1 : waitsForBus (coreAt p s inp (k + 1)).state = false :=
    (System.entersHandler_quiet h1).1
  have h2 : (coreAt p s inp (k + 2)).state = .fetch := by
    rw [h.state_succ hg1 hw1]
    exact System.stateNxt_of_entersHandler h1 _
  refine ⟨?_, h1⟩
  by_contra hne
  exact hslot.executes (k + 2) (by omega) (by omega) h2

/-- The instruction traps exactly if its last cycle enters a handler. -/
theorem Slot.takesTrap_iff (hslot : Slot p s inp f e g) (h : Regular p s inp g) {l : ℕ}
    (hl : g = l + 1) :
    TakesTrap (coreAt p s inp) f g ↔ System.entersHandler (coreAt p s inp l).state = true := by
  have hlt := hslot.exec_lt
  have hlt' := hslot.fetch_lt
  constructor
  · rintro ⟨k, hfk, hkg, hx⟩
    rw [exceptionEvent_iff] at hx
    have hek : e ≤ k := by
      by_contra hke
      rw [hslot.fetches k hfk (by omega)] at hx
      exact absurd hx (by decide)
    obtain ⟨hg, hh⟩ := hslot.end_of_raises h hek hkg hx
    obtain rfl : l = k + 1 := by omega
    exact hh
  · intro hh
    obtain ⟨k, rfl⟩ : ∃ k, l = k + 1 := ⟨l - 1, by omega⟩
    refine ⟨k, by omega, by omega, (exceptionEvent_iff k).2 ?_⟩
    cases hst : (coreInAt p s inp k).stall with
    | true =>
      -- a stalled state waits on the bus, the state of a handler does not
      rw [coreAt_succ, Core.next_state_of_stall _ _ hst] at hh
      have hw : waitsForBus (coreAt p s inp k).state = false := (System.entersHandler_quiet hh).1
      exact absurd ((h.stall (by omega) hw).symm.trans hst) (by decide)
    | false =>
      rw [coreAt_succ, Core.next_state _ _ hst] at hh
      exact raises_of_entersHandler_stateNxt hh

/-- Within an instruction only its first cycle after the fetch can be a `DECODE`. -/
theorem Slot.ne_decode (hslot : Slot p s inp f e g) (h : Regular p s inp g) {k : ℕ}
    (hek : e < k) (hkg : k < g) : (coreAt p s inp k).state ≠ .decode := by
  obtain ⟨j, rfl⟩ : ∃ j, k = j + 1 := ⟨k - 1, by omega⟩
  intro hd
  have hne := hslot.executes j (by omega) (by omega)
  rw [coreAt_succ] at hd
  cases hst : (coreInAt p s inp j).stall with
  | true =>
    rw [Core.next_state_of_stall _ _ hst] at hd
    exact absurd ((h.stall (k := j) (by omega) (by rw [hd]; rfl)).symm.trans hst) (by decide)
  | false =>
    rw [Core.next_state _ _ hst] at hd
    exact hne (eq_fetch_of_stateNxt_eq_decode hd).1

/-- Only the `DECODE` and the last cycle of an instruction can retire it. -/
theorem Slot.not_retires (hslot : Slot p s inp f e g) (h : Regular p s inp g) {k : ℕ}
    (hfk : f ≤ k) (hkg : k + 1 < g) (hke : k ≠ e ∨ (coreAt p s inp e).state ≠ .decode) :
    retiresAt p s inp k = false := by
  by_cases hlt : k < e
  · unfold retiresAt
    rw [hslot.fetches k hfk hlt]
    rfl
  · by_contra hr
    rw [Bool.not_eq_false] at hr
    have hd : (coreAt p s inp k).state ≠ .decode := by
      by_cases hk : k = e
      · rw [hk]
        exact hke.resolve_left (fun hne => hne hk)
      · exact hslot.ne_decode h (by omega) (by omega)
    exact hslot.executes (k + 1) (by omega) hkg (h.state_succ_of_retires (by omega) hd hr)

theorem state_ne_unused (hs : s.IsReset p) (n : ℕ) :
    (coreAt p s inp n).state ≠ .wfi ∧ (coreAt p s inp n).state ≠ .amoComplete := by
  induction n with
  | zero =>
    have h0 : (coreAt p s inp 0).state = .fetch := hs.1.1
    rw [h0]
    decide
  | succ n ih =>
    rw [coreAt_succ]
    cases hst : (coreInAt p s inp n).stall with
    | true =>
      rw [Core.next_state_of_stall _ _ hst]
      exact ih
    | false =>
      rw [Core.next_state _ _ hst]
      exact stateNxt_ne_unused _ _

/-- The last cycle of an instruction retires it unless it enters a handler. -/
theorem Slot.retires_last (hs : s.IsReset p) (hslot : Slot p s inp f e g) {l : ℕ}
    (hl : g = l + 1) (hd : (coreAt p s inp l).state ≠ .decode) :
    retiresAt p s inp l = !System.entersHandler (coreAt p s inp l).state := by
  have hlt := hslot.exec_lt
  have hne := hslot.executes l (by omega) (by omega)
  have hf : stateNxt (coreAt p s inp l).state (fsmInAt p s inp l) = .fetch := by
    have hend := hslot.ends
    rw [hl, coreAt_succ] at hend
    cases hst : (coreInAt p s inp l).stall with
    | true =>
      rw [Core.next_state_of_stall _ _ hst] at hend
      exact absurd hend hne
    | false =>
      rw [Core.next_state _ _ hst] at hend
      exact hend
  cases hh : System.entersHandler (coreAt p s inp l).state with
  | true => exact not_retirePulse_of_entersHandler hh _
  | false => exact retirePulse_of_stateNxt hf ⟨hne, hd, state_ne_unused hs l⟩ hh

/-- The state after the fetch. -/
theorem Slot.state_exec (hslot : Slot p s inp f e g) :
    (coreAt p s inp e).state = .decode ∨ raisesException (coreAt p s inp e).state = true := by
  obtain ⟨k, rfl⟩ : ∃ k, e = k + 1 := ⟨e - 1, by have := hslot.fetch_lt; omega⟩
  have hlt := hslot.fetch_lt
  have hf := hslot.fetches k (by omega) (by omega)
  have hne := hslot.executes (k + 1) le_rfl hslot.exec_lt
  rw [coreAt_succ] at hne ⊢
  cases hst : (coreInAt p s inp k).stall with
  | true =>
    rw [Core.next_state_of_stall _ _ hst] at hne
    exact absurd hf hne
  | false =>
    rw [Core.next_state _ _ hst, hf] at hne ⊢
    rcases stateNxt_fetch ((coreAt p s inp k).fsmIn (coreInAt p s inp k)) with h1 | h1 | h1
    · exact absurd h1 hne
    · exact .inl h1
    · exact .inr h1

/-- The counter after the instruction, where `DECODE` is not its last cycle. -/
theorem Slot.instretAt_eq (hs : s.IsReset p) (hslot : Slot p s inp f e g)
    (h : Regular p s inp g) {l : ℕ} (hl : g = l + 1) (hel : e < l) :
    instretAt p s inp g = instretAt p s inp f
      + (if retiresAt p s inp e then 1 else 0)
      + (if System.entersHandler (coreAt p s inp l).state then 0 else 1) := by
  have hlt := hslot.fetch_lt
  have hfe : instretAt p s inp e = instretAt p s inp f :=
    instretAt_const hlt.le fun k hfk hke => hslot.not_retires h hfk (by omega) (.inl (by omega))
  have hel' : instretAt p s inp l = instretAt p s inp (e + 1) :=
    instretAt_const hel fun k hek hkl =>
      hslot.not_retires h (by omega) (by omega) (.inl (by omega))
  rw [hl, instretAt_succ, hslot.retires_last hs hl (hslot.ne_decode h hel (by omega)), hel',
    instretAt_succ, hfe]
  cases retiresAt p s inp e <;> cases System.entersHandler (coreAt p s inp l).state <;> simp

/-- A slot whose `DECODE` leads back to `FETCH`. -/
theorem Slot.of_completes (hslot : Slot p s inp f e g) (h : Regular p s inp g)
    (hd : (coreAt p s inp e).state = .decode)
    (hp : (fsmInAt p s inp e).irq.pending = false) :
    (fsmInAt p s inp e).completes = true ↔ g = e + 1 := by
  have hnext := h.state_succ hslot.exec_lt (by rw [hd]; rfl)
  rw [hd] at hnext
  rw [← decodeNxt_eq_fetch_iff hp]
  constructor
  · intro hf
    have hf' : (coreAt p s inp (e + 1)).state = .fetch := hnext.trans hf
    by_contra hne
    exact hslot.executes (e + 1) (by omega) (by have := hslot.exec_lt; omega) hf'
  · rintro rfl
    exact hnext.symm.trans hslot.ends

/-- Where the instruction traps, it must not have been counted. -/
theorem counted_of_takesTrap (ht : TakesTrap (coreAt p s inp) f g) :
    Counted p s inp f g ↔ instretAt p s inp g = instretAt p s inp f :=
  ⟨fun h => h.1 (.inl ht), fun h => ⟨fun _ => h, fun hno => absurd (.inl ht) hno⟩⟩

/-- Where it does not, it must have been counted unless its target is misaligned. -/
theorem counted_of_not_takesTrap (ht : ¬ TakesTrap (coreAt p s inp) f g) :
    Counted p s inp f g ↔ instretAt p s inp g = instretAt p s inp f
      + if (coreAt p s inp g).pc.extractLsb' 0 2 = 0#2 then 1 else 0 := by
  unfold Counted Traps
  by_cases hal : (coreAt p s inp g).pc.extractLsb' 0 2 = 0#2 <;> simp [ht, hal]

/-- An interrupt in `DECODE`. -/
theorem Slot.counted_of_pending (hs : s.IsReset p) (hslot : Slot p s inp f e g)
    (h : Regular p s inp g) (hd : (coreAt p s inp e).state = .decode)
    (hp : (fsmInAt p s inp e).irq.pending = true) :
    TakesTrap (coreAt p s inp) f g ∧
      (Counted p s inp f g ↔ retiresAt p s inp e = false) := by
  have hlt := hslot.exec_lt
  have h1 : (coreAt p s inp (e + 1)).state = .irq0 := by
    rw [h.state_succ hlt (by rw [hd]; rfl), hd]
    simp only [stateNxt, decodeNxt, hp, if_true]
  have hg1 : e + 1 < g := by
    by_contra hge
    obtain rfl : g = e + 1 := by omega
    exact absurd (h1.symm.trans hslot.ends) (by decide)
  obtain ⟨hg, hh⟩ := hslot.end_of_raises h (by omega) hg1 (by rw [h1]; rfl)
  have ht := (hslot.takesTrap_iff h hg).2 hh
  refine ⟨ht, ?_⟩
  rw [counted_of_takesTrap ht, hslot.instretAt_eq hs h hg (by omega), hh]
  cases retiresAt p s inp e with
  | true => simp
  | false => simp

/-- An instruction that completes in `DECODE`. -/
theorem Slot.counted_of_completes (hs : s.IsReset p) (hslot : Slot p s inp f e g)
    (h : Regular p s inp g) (hal : (Sync.run (Cpu.next p) s inp (e - 1)).FetchAligned)
    (hd : (coreAt p s inp e).state = .decode) (hg : g = e + 1) :
    ¬ TakesTrap (coreAt p s inp) f g ∧ (coreAt p s inp g).pc.extractLsb' 0 2 = 0#2 ∧
      (Counted p s inp f g ↔ retiresAt p s inp e = true) := by
  have hlt := hslot.fetch_lt
  have ht : ¬ TakesTrap (coreAt p s inp) f g := by
    rw [hslot.takesTrap_iff h hg, hd]
    decide
  -- `pc` is the address of the fetch and four, and `DECODE` leaves it alone
  have hpc : (coreAt p s inp g).pc.extractLsb' 0 2 = 0#2 := by
    obtain ⟨k, rfl⟩ : ∃ k, e = k + 1 := ⟨e - 1, by omega⟩
    obtain ⟨hf, hr, -, -⟩ := oldPc_of_decode hs hd
    have hpcd : (coreAt p s inp (k + 1)).pc = (coreAt p s inp k).pc + 4#32 :=
      (Core.next_fetched p hf hr (exceptionSelect_of_fetch hs hf)).1
    have hkeep : (coreAt p s inp (k + 1 + 1)).pc = (coreAt p s inp (k + 1)).pc := by
      rw [coreAt_succ (k + 1)]
      exact Core.next_pc (Core.pcWrite_of_not_movesPc (by rw [hd]; rfl))
    have haddr : (coreAt p s inp k).memAddr.extractLsb' 0 2 = 0#2 := by
      refine hal ?_ ?_
      · show (coreAt p s inp k).memValid = true
        simp [Core.memValid, hf, memValid]
      · exact (Core.memAddr_of_presentsFetch (.inr hf)).2.2
    rw [hg, hkeep, hpcd]
    rw [(Core.memAddr_of_presentsFetch (.inr hf)).1] at haddr
    exact System.aligned_add_four haddr
  refine ⟨ht, hpc, ?_⟩
  have hfe : instretAt p s inp e = instretAt p s inp f :=
    instretAt_const hlt.le fun k hfk hke => hslot.not_retires h hfk (by omega) (.inl (by omega))
  rw [counted_of_not_takesTrap ht, if_pos hpc, hg, instretAt_succ, hfe]
  cases retiresAt p s inp e with
  | true => simp
  | false => simp

/-- Any other instruction. -/
theorem Slot.counted_of_executes (hs : s.IsReset p) (hslot : Slot p s inp f e g)
    (h : Regular p s inp g) (hg : e + 1 < g) (hr : retiresAt p s inp e = false) :
    Counted p s inp f g ↔ ¬ MisalignedTarget p s inp f g := by
  obtain ⟨l, hl⟩ : ∃ l, g = l + 1 := ⟨g - 1, by omega⟩
  have hcount := hslot.instretAt_eq hs h hl (by omega)
  have htrap := hslot.takesTrap_iff h hl
  rw [hr] at hcount
  unfold MisalignedTarget
  cases hh : System.entersHandler (coreAt p s inp l).state with
  | true =>
    have ht := htrap.2 hh
    rw [counted_of_takesTrap ht, hcount, hh]
    simp [ht]
  | false =>
    have ht : ¬ TakesTrap (coreAt p s inp) f g := by
      rw [htrap, hh]
      decide
    rw [counted_of_not_takesTrap ht, hcount, hh]
    by_cases hal : (coreAt p s inp g).pc.extractLsb' 0 2 = 0#2
    · simp [hal]
    · simp [hal, ht]

/-- **Retired instructions.**  In a run from reset on a bus that answers only requests, with
no early answer and no misaligned fetch before, `instret` counts an instruction if it does not
trap and only then, exactly if it is neither pre-empted in `DECODE` where it would complete,
nor an `SFENCE.VMA` in Bare mode, nor goes to a misaligned target. -/
theorem instret_counts_iff (hs : s.IsReset p)
    (hbus : ∀ k, (inp k).memReady = true → (busReqAt p s inp k).valid = true)
    (hal : ∀ k, k + 1 < g → (Sync.run (Cpu.next p) s inp k).FetchAligned)
    (hlate : ∀ k, k < g → ¬ EarlyAnswer p s inp k) (hslot : Slot p s inp f e g) :
    Counted p s inp f g ↔
      ¬ Preempted p s inp e ∧ ¬ BareSfence p s inp e ∧ ¬ MisalignedTarget p s inp f g := by
  have h : Regular p s inp g := ⟨fun k hk => inTurn_run hs hbus k (fun j hj => hal j (by omega))
    fun j hj => hlate j (by omega), hlate⟩
  have hlt := hslot.exec_lt
  have hlt' := hslot.fetch_lt
  unfold Preempted BareSfence
  -- an instruction counts in `DECODE`, in a later state, or not at all after a refused fetch
  rcases hslot.state_exec with hd | hr
  · have hpulse : retiresAt p s inp e
        = ((fsmInAt p s inp e).completes && !(fsmInAt p s inp e).bareSfence) := by
      unfold retiresAt
      rw [hd]
      exact retirePulse_decode _
    -- pre-empted: the pulse comes although the slot ends in a trap
    cases hp : (fsmInAt p s inp e).irq.pending with
    | true =>
      obtain ⟨ht, hiff⟩ := hslot.counted_of_pending hs h hd hp
      rw [hiff, hpulse]
      unfold MisalignedTarget
      simp [hd, ht]
    | false =>
      have hcomp := hslot.of_completes h hd hp
      cases hc : (fsmInAt p s inp e).completes with
      | true =>
        obtain ⟨ht, hpc, hiff⟩ :=
          hslot.counted_of_completes hs h (hal _ (by omega)) hd (hcomp.1 hc)
        rw [hiff, hpulse, hc]
        unfold MisalignedTarget
        simp [hd, hpc]
      | false =>
        have hg : e + 1 < g := by
          by_contra hge
          exact absurd (hc.symm.trans (hcomp.2 (by omega))) (by decide)
        have hb : (fsmInAt p s inp e).bareSfence = false := by
          by_contra hb
          rw [Bool.not_eq_false, FsmIn.bareSfence, Bool.and_eq_true] at hb
          simp [FsmIn.completes, hb.1] at hc
        rw [hslot.counted_of_executes hs h hg (by rw [hpulse, hc]; rfl)]
        simp [hb]
  · -- the fetch itself raises an exception
    obtain ⟨hg, -⟩ := hslot.end_of_raises h le_rfl hlt hr
    have hne : (coreAt p s inp e).state ≠ .decode := by
      intro hd
      rw [hd] at hr
      exact absurd hr (by decide)
    have hq : retiresAt p s inp e = false :=
      hslot.not_retires h hlt'.le (by omega) (.inr hne)
    rw [hslot.counted_of_executes hs h (by omega) hq]
    simp [hne]

end Slot

end Run

/-- A memory of `nop`s. -/
def nops : BitVec 32 → Word := fun _ => 0x00000013#32

/-- A memory of `sfence.vma x0, x0`. -/
def sfences : BitVec 32 → Word := fun _ => 0x12000073#32

/-- The first instruction of `nops`. -/
theorem instret_counts_iff_nop :
    Slot sampleParams (System.reset 4 3 sampleParams nops).cpu
        ((System.reset 4 3 sampleParams nops).busAt sampleParams promptInput) 0 4 7 ∧
      Counted sampleParams (System.reset 4 3 sampleParams nops).cpu
        ((System.reset 4 3 sampleParams nops).busAt sampleParams promptInput) 0 7 := by
  have hslot : Slot sampleParams (System.reset 4 3 sampleParams nops).cpu
      ((System.reset 4 3 sampleParams nops).busAt sampleParams promptInput) 0 4 7 := by
    refine ⟨fun b hb => absurd hb (by omega), fun k _ hk => ?_, fun k hk hk' => ?_, ?_, by omega,
      by omega⟩
    · obtain rfl | rfl | rfl | rfl : k = 0 ∨ k = 1 ∨ k = 2 ∨ k = 3 := by omega
      all_goals rw [coreAt_busAt]; decide +kernel
    · obtain rfl | rfl | rfl : k = 4 ∨ k = 5 ∨ k = 6 := by omega
      all_goals rw [coreAt_busAt]; decide +kernel
    · rw [coreAt_busAt]
      decide +kernel
  refine ⟨hslot, (instret_counts_iff (System.reset_isReset 4 3 sampleParams nops).1
    (System.busAt_answers sampleParams _ promptInput) (fun k hk => ?_) (fun k hk => ?_) hslot).2
    ⟨?_, ?_, ?_⟩⟩
  · rw [System.run_cpu]
    obtain rfl | rfl | rfl | rfl | rfl | rfl :
      k = 0 ∨ k = 1 ∨ k = 2 ∨ k = 3 ∨ k = 4 ∨ k = 5 := by omega
    all_goals decide +kernel
  · unfold EarlyAnswer mmuAt
    rw [System.run_cpu]
    obtain rfl | rfl | rfl | rfl | rfl | rfl | rfl :
      k = 0 ∨ k = 1 ∨ k = 2 ∨ k = 3 ∨ k = 4 ∨ k = 5 ∨ k = 6 := by omega
    all_goals decide +kernel
  · unfold Preempted fsmInAt
    rw [coreAt_busAt, coreInAt_busAt]
    decide +kernel
  · unfold BareSfence fsmInAt
    rw [coreAt_busAt, coreInAt_busAt]
    decide +kernel
  · intro h
    have hal := h.2
    revert hal
    rw [coreAt_busAt]
    decide +kernel

/-- `SFENCE.VMA` in Bare mode completes and is not counted. -/
theorem bare_sfence_not_counted :
    ¬ ∀ (p : Params) (s : Cpu 4 3) (inp : ℕ → CpuIn), s.IsReset p →
      (∀ k, (inp k).memReady = true → (busReqAt p s inp k).valid = true) →
      ∀ f e g, Slot p s inp f e g → Counted p s inp f g := by
  intro h
  have hc := h sampleParams (System.reset 4 3 sampleParams sfences).cpu
    ((System.reset 4 3 sampleParams sfences).busAt sampleParams promptInput)
    (System.reset_isReset 4 3 sampleParams sfences).1
    (System.busAt_answers sampleParams _ promptInput) 0 4 5 (by
      refine ⟨fun b hb => absurd hb (by omega), fun k _ hk => ?_, fun k hk hk' => ?_, ?_, by omega,
        by omega⟩
      · obtain rfl | rfl | rfl | rfl : k = 0 ∨ k = 1 ∨ k = 2 ∨ k = 3 := by omega
        all_goals rw [coreAt_busAt]; decide +kernel
      · obtain rfl : k = 4 := by omega
        rw [coreAt_busAt]
        decide +kernel
      · rw [coreAt_busAt]
        decide +kernel)
  have hno : ¬ Traps sampleParams (System.reset 4 3 sampleParams sfences).cpu
      ((System.reset 4 3 sampleParams sfences).busAt sampleParams promptInput) 0 5 := by
    rintro (⟨k, -, hk, hx⟩ | hmis)
    · revert hx
      obtain rfl | rfl | rfl | rfl | rfl : k = 0 ∨ k = 1 ∨ k = 2 ∨ k = 3 ∨ k = 4 := by omega
      all_goals rw [coreAt_busAt]; decide +kernel
    · revert hmis
      rw [coreAt_busAt]
      decide +kernel
  have hcount := hc.2 hno
  unfold instretAt at hcount
  rw [coreAt_busAt, coreAt_busAt] at hcount
  revert hcount
  decide +kernel

end KianRiscV
