/-
# Every instruction finishes

From `DECODE` the state machine comes back to `FETCH` in an environment that answers
every memory request, multiplication and division.  `AMO_ADDR` waits for nothing and
has no way out for a `funct5` it does not know, so the words that decode as an
atomic with such a `funct5` are exactly those that hang, unless an interrupt is
taken in their place.
-/
import KianRiscV.CoreStep
import KianRiscV.Cpu
import Mathlib.Data.Nat.Find

namespace KianRiscV

/-! ## Waiting states and the rank of a state -/

/-- The states that wait for memory, the multiplier or the divider. -/
def waits (st : FsmState) : Bool := st == .fetch || waitsForMemory st || st == .execMul

/-- The longest way from a state back to `FETCH`. -/
def rank : FsmState → ℕ
  | .fetch => 0
  | .decode => 9
  | .amoAddr => 8
  | .amoOpRead => 7
  | .amoOpWb => 6
  | .amoOpExec => 5
  | .amoOpAddr | .memAddr => 4
  | .memRead | .memWrite | .amoLrRead | .amoScWrite | .amoOpWrite | .jalr | .execSystem => 3
  | .execRtype | .execItype | .jal | .lui | .auipc | .execMul | .mret0 | .csrFault0 | .ecall0
  | .irq0 | .ebreak0 | .illegal0 | .loadMisalign0 | .storeMisalign0 | .loadFault0
  | .storeFault0 | .sret0 | .ipageFault0 | .lpageFault0 | .spageFault0 | .instrMisalign0
  | .instrFault0 => 2
  | _ => 1

/-- A word that decodes as an atomic but is neither `LR.W`, `SC.W` nor one of the
nine read-modify-write operations. -/
def unknownAmo (instr : Word) : Bool :=
  isAmo instr && !isAmoLrW instr && !isAmoScW instr && !isAmoRmw instr

/-! ## One edge of the state machine -/

theorem rank_lt_decode {st : FsmState} (h : st ≠ .decode) : rank st < rank .decode := by
  cases st <;> first | (exact absurd rfl h) | decide

/-- Only atomics, with no interrupt pending, are sent to `AMO_ADDR`; their opcode is
that of no earlier branch of `DECODE`. -/
theorem decodeNxt_eq_amoAddr_iff (i : FsmIn) :
    decodeNxt i = .amoAddr ↔ i.irq.pending = false ∧ isAmo i.instr = true := by
  constructor
  · intro h
    simp only [decodeNxt, apply_ite (· = FsmState.amoAddr), reduceCtorEq, if_false_left,
      ite_self] at h
    grind
  · rintro ⟨hp, ha⟩
    have hop : opOf i.instr = 0x2F#7 := by
      simp only [isAmo, Bool.and_eq_true, beq_iff_eq] at ha
      exact ha.1
    simp [decodeNxt, hp, ha, isLoad, isStore, isRtype, isItype, isJal, isJalr, isBranch, isLui,
      isAuipc, isCsr, hop]

/-- `DECODE` follows `FETCH` only, and `AMO_ADDR` follows `DECODE` or itself. -/
theorem stateNxt_ne_decode {st : FsmState} {i : FsmIn} (hf : st ≠ .fetch) :
    stateNxt st i ≠ .decode := by
  cases st
  case fetch => exact absurd rfl hf
  case decode => exact decodeNxt_ne_decode i
  all_goals
    simp only [stateNxt, accessNxt]
    first | (split_ifs <;> simp) | simp

theorem stateNxt_ne_amoAddr {st : FsmState} {i : FsmIn} (hd : st ≠ .decode)
    (ha : st ≠ .amoAddr) : stateNxt st i ≠ .amoAddr := by
  cases st
  case decode => exact absurd rfl hd
  case amoAddr => exact absurd rfl ha
  all_goals
    simp only [stateNxt, accessNxt]
    first | (split_ifs <;> simp) | simp

/-- A branch of `accessNxt` stays only with an aligned and unanswered request. -/
theorem accessNxt_cases {unaligned : Bool} {misalign fault page done stay : FsmState} {i : FsmIn} :
    accessNxt unaligned misalign fault page done stay i ∈ [misalign, fault, page, done] ∨
      (accessNxt unaligned misalign fault page done stay i = stay ∧ unaligned = false ∧
        i.pageFault = false ∧ i.memReady = false) := by
  unfold accessNxt
  cases unaligned <;> cases hp : i.pageFault <;> cases hr : i.memReady <;>
    cases hf : i.accessFault <;> simp

/-- The edge out of a state that waits for memory: the rank drops, or the request
stands aligned and unanswered. -/
theorem rank_stateNxt_of_waitsForMemory {st : FsmState} {i : FsmIn}
    (hw : waitsForMemory st = true) :
    rank (stateNxt st i) < rank st ∨
      (stateNxt st i = st ∧ memValid st i.zero i.isLoadUnaligned i.isStoreUnaligned = true ∧
        i.pageFault = false ∧ i.memReady = false) := by
  cases st
  case memRead | memWrite | amoLrRead | amoScWrite | amoOpRead | amoOpWrite =>
    simp only [stateNxt]
    rcases accessNxt_cases with h | ⟨h, hu, hp, hr⟩
    · left
      simp only [List.mem_cons, List.not_mem_nil, or_false] at h
      rcases h with h | h | h | h <;> rw [h] <;> decide
    · right
      exact ⟨h, by simp [memValid, hu], hp, hr⟩
  all_goals exact absurd hw (by decide)

/-- The edge out of any other state but `FETCH`: the rank drops, or the state is the
multiplier's, unanswered, or `AMO_ADDR` with an unknown word. -/
theorem rank_stateNxt_of_not_waitsForMemory {st : FsmState} {i : FsmIn}
    (hf : st ≠ .fetch) (hw : waitsForMemory st = false) :
    rank (stateNxt st i) < rank st ∨
      (st = .execMul ∧ stateNxt st i = st ∧ i.mulExtReady = false) ∨
      (st = .amoAddr ∧ stateNxt st i = st ∧ isAmoLrW i.instr = false ∧
        isAmoScW i.instr = false ∧ isAmoRmw i.instr = false) := by
  cases st
  case fetch => exact absurd rfl hf
  case decode => exact .inl (rank_lt_decode (decodeNxt_ne_decode i))
  case execMul =>
    cases h : i.mulExtReady with
    | true => left; simp [stateNxt, h, rank]
    | false => right; left; simp [stateNxt, h]
  case amoAddr =>
    cases hl : isAmoLrW i.instr with
    | true => left; simp [stateNxt, hl, rank]
    | false =>
      cases hs : isAmoScW i.instr with
      | true => left; cases hr : i.amoReservedStateLoad <;> simp [stateNxt, hl, hs, hr, rank]
      | false =>
        cases hm : isAmoRmw i.instr with
        | true => left; simp [stateNxt, hl, hs, hm, rank]
        | false => right; right; simp [stateNxt, hl, hs, hm]
  case memAddr => left; cases h : isLoad i.instr <;> simp [stateNxt, h, rank]
  case execSystem => left; cases h : i.csrAccessFault <;> simp [stateNxt, h, rank]
  all_goals first | (exact absurd hw (by decide)) | exact .inl (by simp [stateNxt, rank])

/-! ## Runs of the core -/

/-- The environment answers, up to the next `FETCH`: again and again there is a cycle
without stall in which no memory request stands unanswered, and one in which no
multiplication or division does. -/
structure Answered (c : ℕ → Core) (inp : ℕ → CoreIn) : Prop where
  memory : ∀ n, (∀ m, m ≤ n → (c m).state ≠ .fetch) → ∃ m, n ≤ m ∧ (inp m).stall = false ∧
    ((c m).memValid = true → (inp m).memReady = true ∨ (inp m).pageFault = true)
  mulDiv : ∀ n, (∀ m, m ≤ n → (c m).state ≠ .fetch) → ∃ m, n ≤ m ∧ (inp m).stall = false ∧
    ((c m).ctl.mulExtValid = true → (c m).mul.ready = true ∨ (c m).div.ready = true)

/-- `FETCH` is reached, and until then every unstalled cycle leaves its state unless
that state waits for memory, the multiplier or the divider. -/
def Finishes (c : ℕ → Core) (inp : ℕ → CoreIn) : Prop :=
  ∃ n, (c n).state = .fetch ∧
    ∀ m, m < n → (inp m).stall = false → waits (c m).state = false →
      (c (m + 1)).state ≠ (c m).state

/-- An interrupt is pending in the first cycle without stall, in which `DECODE` is
left. -/
def InterruptAtDecode (c : ℕ → Core) (inp : ℕ → CoreIn) : Prop :=
  ∃ k, (∀ m, m < k → (inp m).stall = true) ∧ (inp k).stall = false ∧
    ((c k).fsmIn (inp k)).irq.pending = true

section Run

variable {p : Params} {c : Core} {inp : ℕ → CoreIn}

/-- The core after `n` edges. -/
def coreRun (p : Params) (c : Core) (inp : ℕ → CoreIn) : ℕ → Core := Sync.run (Core.next p) c inp

theorem coreRun_succ (n : ℕ) :
    coreRun p c inp (n + 1) = (coreRun p c inp n).next p (inp n) := rfl

theorem instr_succ {n : ℕ} (hf : (coreRun p c inp n).state ≠ .fetch) :
    (coreRun p c inp (n + 1)).instr = (coreRun p c inp n).instr := by
  have h : storeInstr (coreRun p c inp n).state (inp n).memReady = false := by
    simp [storeInstr, hf]
  simp [coreRun_succ, Core.next, h]

/-- Up to the next `FETCH` the word stays, and the core is either still stalled in
`DECODE` or past it; it is in `AMO_ADDR` only if the word is an atomic and no
interrupt was pending when `DECODE` was left. -/
theorem decode_path (hd : c.state = .decode) (n : ℕ)
    (hf : ∀ m, m < n → (coreRun p c inp m).state ≠ .fetch) :
    (coreRun p c inp n).instr = c.instr ∧
      (((coreRun p c inp n).state = .decode ∧ ∀ m, m < n → (inp m).stall = true) ∨
        ((coreRun p c inp n).state ≠ .decode ∧
          ((coreRun p c inp n).state = .amoAddr →
            isAmo c.instr = true ∧ ¬ InterruptAtDecode (coreRun p c inp) inp))) := by
  induction n with
  | zero => exact ⟨rfl, .inl ⟨hd, fun m hm => absurd hm (Nat.not_lt_zero m)⟩⟩
  | succ n ih =>
    obtain ⟨hi, hst⟩ := ih fun m hm => hf m (by omega)
    have hfn := hf n (Nat.lt_succ_self n)
    refine ⟨(instr_succ hfn).trans hi, ?_⟩
    cases hs : (inp n).stall with
    | true =>
      rw [coreRun_succ, Core.next_state_of_stall _ _ hs]
      rcases hst with ⟨hdn, hall⟩ | h
      · refine .inl ⟨hdn, fun m hm => ?_⟩
        rcases Nat.lt_succ_iff_lt_or_eq.1 hm with h | rfl
        · exact hall m h
        · exact hs
      · exact .inr h
    | false =>
      rw [coreRun_succ, Core.next_state _ _ hs]
      right
      refine ⟨stateNxt_ne_decode hfn, fun ha => ?_⟩
      rcases hst with ⟨hdn, hall⟩ | ⟨hdn, himp⟩
      · rw [hdn] at ha
        obtain ⟨hp, hamo⟩ := (decodeNxt_eq_amoAddr_iff _).1 ha
        refine ⟨by rw [← hi]; exact hamo, ?_⟩
        rintro ⟨k, hk, hks, hkp⟩
        -- both `k` and `n` are the first cycle without stall
        have hkn : k = n := by
          rcases Nat.lt_trichotomy k n with h | h | h
          · simp [hall k h] at hks
          · exact h
          · simp [hk n h] at hs
        rw [hkn, hp] at hkp
        exact absurd hkp (by decide)
      · by_cases hamo : (coreRun p c inp n).state = .amoAddr
        · exact himp hamo
        · exact absurd ha (stateNxt_ne_amoAddr hdn hamo)

/-- `AMO_ADDR` is never entered with an unknown word that is not interrupted. -/
theorem known_of_amoAddr (hd : c.state = .decode)
    (hgood : unknownAmo c.instr = true → InterruptAtDecode (coreRun p c inp) inp) {n : ℕ}
    (hf : ∀ m, m < n → (coreRun p c inp m).state ≠ .fetch)
    (ha : (coreRun p c inp n).state = .amoAddr) :
    ¬ (isAmoLrW (coreRun p c inp n).instr = false ∧ isAmoScW (coreRun p c inp n).instr = false ∧
      isAmoRmw (coreRun p c inp n).instr = false) := by
  rintro ⟨hl, hs, hr⟩
  obtain ⟨hi, h⟩ := decode_path hd n hf
  rw [hi] at hl hs hr
  rcases h with ⟨hdn, -⟩ | ⟨-, himp⟩
  · exact absurd (ha.symm.trans hdn) (by decide)
  · obtain ⟨hamo, hno⟩ := himp ha
    exact hno (hgood (by simp [unknownAmo, hamo, hl, hs, hr]))

/-- One edge before the next `FETCH`: the state stays or drops in rank, and it drops
when the edge is not stalled and what the state waits for has come. -/
theorem rank_succ (hd : c.state = .decode)
    (hgood : unknownAmo c.instr = true → InterruptAtDecode (coreRun p c inp) inp) {n : ℕ}
    (hf : ∀ m, m ≤ n → (coreRun p c inp m).state ≠ .fetch) :
    rank (coreRun p c inp (n + 1)).state < rank (coreRun p c inp n).state ∨
      ((coreRun p c inp (n + 1)).state = (coreRun p c inp n).state ∧
        ((inp n).stall = true ∨
          (waitsForMemory (coreRun p c inp n).state = true ∧
            (coreRun p c inp n).memValid = true ∧ (inp n).pageFault = false ∧
            (inp n).memReady = false) ∨
          ((coreRun p c inp n).state = .execMul ∧ (coreRun p c inp n).mul.ready = false ∧
            (coreRun p c inp n).div.ready = false))) := by
  cases hs : (inp n).stall with
  | true => exact .inr ⟨by rw [coreRun_succ, Core.next_state_of_stall _ _ hs], .inl rfl⟩
  | false =>
    rw [coreRun_succ, Core.next_state _ _ hs]
    cases hw : waitsForMemory (coreRun p c inp n).state with
    | true =>
      rcases rank_stateNxt_of_waitsForMemory hw with h | ⟨h, hv, hp, hr⟩
      · exact .inl h
      · exact .inr ⟨h, .inr (.inl ⟨rfl, hv, hp, hr⟩)⟩
    | false =>
      rcases rank_stateNxt_of_not_waitsForMemory (hf n le_rfl) hw with h | ⟨hm, h, hr⟩ | ⟨ha, -, hu⟩
      · exact .inl h
      · have hr' : (coreRun p c inp n).mul.ready = false ∧ (coreRun p c inp n).div.ready = false :=
          Bool.or_eq_false_iff.1 hr
        exact .inr ⟨h, .inr (.inr ⟨hm, hr'⟩)⟩
      · exact absurd hu (known_of_amoAddr hd hgood (fun m hm => hf m (by omega)) ha)

/-- An unknown atomic that is not interrupted never leaves `DECODE` and `AMO_ADDR`. -/
theorem state_of_unknownAmo (hd : c.state = .decode) (hu : unknownAmo c.instr = true)
    (hno : ¬ InterruptAtDecode (coreRun p c inp) inp) (n : ℕ) :
    (coreRun p c inp n).state = .decode ∨ (coreRun p c inp n).state = .amoAddr := by
  simp only [unknownAmo, Bool.and_eq_true, Bool.not_eq_true'] at hu
  obtain ⟨⟨⟨ha, hl⟩, hsc⟩, hr⟩ := hu
  -- by induction, with the instruction in its register all along
  have key : (coreRun p c inp n).instr = c.instr ∧
      (((coreRun p c inp n).state = .decode ∧ ∀ m, m < n → (inp m).stall = true) ∨
        (coreRun p c inp n).state = .amoAddr) := by
    induction n with
    | zero => exact ⟨rfl, .inl ⟨hd, fun m hm => absurd hm (Nat.not_lt_zero m)⟩⟩
    | succ n ih =>
      obtain ⟨hi, hst⟩ := ih
      have hfn : (coreRun p c inp n).state ≠ .fetch := by
        rcases hst with ⟨h, -⟩ | h <;> rw [h] <;> decide
      refine ⟨(instr_succ hfn).trans hi, ?_⟩
      cases hs : (inp n).stall with
      | true =>
        rw [coreRun_succ, Core.next_state_of_stall _ _ hs]
        refine hst.imp_left fun ⟨hdn, hall⟩ => ⟨hdn, fun m hm => ?_⟩
        rcases Nat.lt_succ_iff_lt_or_eq.1 hm with h | rfl
        · exact hall m h
        · exact hs
      | false =>
        right
        rw [coreRun_succ, Core.next_state _ _ hs]
        rcases hst with ⟨hdn, hall⟩ | han
        · rw [hdn]
          refine (decodeNxt_eq_amoAddr_iff _).2 ⟨?_, ?_⟩
          · by_contra hp
            exact hno ⟨n, hall, hs, by simpa using hp⟩
          · exact (congrArg isAmo hi).trans ha
        · have hi' : ((coreRun p c inp n).fsmIn (inp n)).instr = c.instr := hi
          simp [han, stateNxt, hi', hl, hsc, hr]
  exact key.2.imp_left And.left

/-- `FETCH` is reached. -/
theorem exists_fetch (hd : c.state = .decode) (hans : Answered (coreRun p c inp) inp)
    (hgood : unknownAmo c.instr = true → InterruptAtDecode (coreRun p c inp) inp) :
    ∃ n, (coreRun p c inp n).state = .fetch := by
  by_contra hno
  have hf : ∀ n, (coreRun p c inp n).state ≠ .fetch := fun n h => hno ⟨n, h⟩
  have hstep := fun n => rank_succ hd hgood (n := n) fun m _ => hf m
  have hdrop : ∀ i, ∃ j, i < j ∧ rank (coreRun p c inp j).state < rank (coreRun p c inp i).state := by
    intro i
    -- the cycle in which what the state of cycle `i` waits for has come
    obtain ⟨m, him, hans'⟩ : ∃ m, i ≤ m ∧ ((coreRun p c inp m).state = (coreRun p c inp i).state →
        rank (coreRun p c inp (m + 1)).state < rank (coreRun p c inp m).state) := by
      by_cases hx : (coreRun p c inp i).state = .execMul
      · obtain ⟨m, him, hs, hr⟩ := hans.mulDiv i fun m _ => hf m
        refine ⟨m, him, fun he => ?_⟩
        rcases hstep m with h | ⟨-, h | ⟨h, -⟩ | ⟨hm, h1, h2⟩⟩
        · exact h
        · simp [hs] at h
        · rw [he, hx] at h; exact absurd h (by decide)
        · have := hr (by simp [Core.ctl, hm, moore])
          simp [h1, h2] at this
      · obtain ⟨m, him, hs, hr⟩ := hans.memory i fun m _ => hf m
        refine ⟨m, him, fun he => ?_⟩
        rcases hstep m with h | ⟨-, h | ⟨-, hv, hp, hm⟩ | ⟨hm, -⟩⟩
        · exact h
        · simp [hs] at h
        · have := hr hv
          simp [hp, hm] at this
        · exact absurd (he.symm.trans hm) hx
    have hsd : ∀ n, (coreRun p c inp (n + 1)).state = (coreRun p c inp n).state ∨
        rank (coreRun p c inp (n + 1)).state < rank (coreRun p c inp n).state :=
      fun n => (hstep n).symm.imp_left And.left
    rcases Sync.eq_or_rank_lt (x := fun n => (coreRun p c inp n).state) rank hsd him with he | hlt
    · exact ⟨m + 1, by omega, he ▸ hans' he⟩
    · refine ⟨m, lt_of_le_of_ne him ?_, hlt⟩
      rintro rfl
      exact lt_irrefl _ hlt
  obtain ⟨j, -, hj⟩ := Sync.eventually_of_rank (P := fun _ => True) (Q := fun _ => False)
    (fun i => rank (coreRun p c inp i).state)
    (fun i _ => .inr ((hdrop i).imp fun j h => ⟨h.1, trivial, h.2⟩)) (n := 0) trivial
  exact hj

/-- **Every instruction finishes**, except an unknown atomic that no interrupt takes
the place of. -/
theorem finishes_iff (hd : c.state = .decode) (hans : Answered (coreRun p c inp) inp) :
    Finishes (coreRun p c inp) inp ↔
      (unknownAmo c.instr = true → InterruptAtDecode (coreRun p c inp) inp) := by
  constructor
  · rintro ⟨n, hn, -⟩ hu
    by_contra hno
    rcases state_of_unknownAmo hd hu hno n with h | h <;>
      exact absurd (h.symm.trans hn) (by decide)
  · intro hgood
    classical
    have hex := exists_fetch hd hans hgood
    refine ⟨Nat.find hex, Nat.find_spec hex, fun m hm hs hw he => ?_⟩
    have hf : ∀ k, k ≤ m → (coreRun p c inp k).state ≠ .fetch :=
      fun k hk => Nat.find_min hex (by omega)
    simp only [waits, Bool.or_eq_false_iff, beq_eq_false_iff_ne, ne_eq] at hw
    rcases rank_succ hd hgood hf with h | ⟨-, h | ⟨h, -⟩ | ⟨h, -⟩⟩
    · rw [he] at h
      exact lt_irrefl _ h
    · simp [hs] at h
    · simp [hw.1.2] at h
    · exact hw.2 h

end Run

/-- An environment without stalls that has every answer ready. -/
def readyInput : ℕ → CoreIn := fun _ =>
  ⟨true, 0#32, false, false, 0#32, false, false, false, false, false⟩

/-- A core in `DECODE` with the given instruction word. -/
def decodeWith (instr : Word) : Core :=
  { Core.reset sampleParams with state := .decode, instr := instr }

/-- `lw x1, 0(x0)` waits for the memory once. -/
theorem finishes_iff_lw :
    (decodeWith 0x00002083#32).state = .decode ∧
      Answered (coreRun sampleParams (decodeWith 0x00002083#32) readyInput) readyInput ∧
      (coreRun sampleParams (decodeWith 0x00002083#32) readyInput 2).memValid = true ∧
      Finishes (coreRun sampleParams (decodeWith 0x00002083#32) readyInput) readyInput := by
  have hans : Answered (coreRun sampleParams (decodeWith 0x00002083#32) readyInput)
      readyInput := by
    constructor
    · exact fun n _ => ⟨n, le_rfl, rfl, fun _ => .inl rfl⟩
    · intro n hf
      by_cases hn : n < 4
      · refine ⟨n, le_rfl, rfl, fun h => ?_⟩
        obtain rfl | rfl | rfl | rfl : n = 0 ∨ n = 1 ∨ n = 2 ∨ n = 3 := by omega
        all_goals exact absurd h (by decide +kernel)
      · exact absurd (by decide +kernel) (hf 4 (by omega))
  exact ⟨rfl, hans, by decide +kernel, (finishes_iff rfl hans).2 fun h => absurd h (by decide)⟩

/-- The word `0x2800202F` has the opcode and `funct3` of an atomic and `funct5` 5; it
holds the state machine in `AMO_ADDR` in an environment that answers everything. -/
theorem unknown_amo_hangs :
    ¬ ∀ (p : Params) (c : Core) (inp : ℕ → CoreIn), c.state = .decode →
      Answered (coreRun p c inp) inp → Finishes (coreRun p c inp) inp := by
  intro h
  have hno : ¬ InterruptAtDecode
      (coreRun sampleParams (decodeWith 0x2800202F#32) readyInput) readyInput := by
    rintro ⟨k, hk, -, hp⟩
    cases k with
    | zero => exact absurd hp (by decide +kernel)
    | succ k => exact absurd (hk 0 (by omega)) (by decide)
  have hst := state_of_unknownAmo (p := sampleParams) (c := decodeWith 0x2800202F#32) rfl
    (by decide) hno
  have hans : Answered (coreRun sampleParams (decodeWith 0x2800202F#32) readyInput)
      readyInput := by
    constructor
    · exact fun n _ => ⟨n, le_rfl, rfl, fun _ => .inl rfl⟩
    · intro n _
      refine ⟨n, le_rfl, rfl, fun hv => ?_⟩
      rcases hst n with h | h <;> simp [Core.ctl, h, moore] at hv
  obtain ⟨n, hn, -⟩ := h _ _ _ rfl hans
  rcases hst n with h | h <;> exact absurd (h.symm.trans hn) (by decide)

end KianRiscV
