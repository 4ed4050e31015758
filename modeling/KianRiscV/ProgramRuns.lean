/-
# Programs run as the specification says

In machine mode over a fair memory, the processor with its memory management unit goes through
exactly the states of the RV32IMA machine: when the state machine comes back to `FETCH` for the
`n`-th time, registers, `PC`, memory and reservation are those after `n` steps of the
specification.  `System.Ready` is the invariant between two instructions, the lemmas of the groups
of instructions are its step, and the run follows by induction on the number of instructions.

Left out are the two places where the processor is known to differ: a jump whose sum is odd, and an
`SC.W` to another address than the reserved one.
-/
import KianRiscV.AtomicSteps

namespace KianRiscV

open Rv32im

/-! ## One instruction -/

/-- Where the processor does not do what the machine does. -/
def Rv32im.Machine.Deviates (m : Machine) : Operation → Prop
  | .transfer t => OddJump t m.arch
  | .reserved (.sc _ rs1 _) => ∃ a, m.reservation = some a ∧ a ≠ m.arch.x rs1
  | _ => False

/-- The next instruction is none of these. -/
def Rv32im.Machine.Regular (m : Machine) : Prop := ∀ i, m.fetched = some i → ¬ m.Deviates i

/-- The group of an instruction. -/
theorem decodeOperation_cases {w : Word} {i : Operation} (h : decodeOperation w = some i) :
    (∃ j, decode w = some j ∧ i = .int j) ∨ (∃ j, decodeTransfer w = some j ∧ i = .transfer j) ∨
      (∃ j, decodeMem w = some j ∧ i = .mem j) ∨ (∃ j, decodeAmo w = some j ∧ i = .amo j) ∨
      (∃ j, decodeReserved w = some j ∧ i = .reserved j) ∨
      decodeFence w = some .fence ∧ i = .fence := by
  have hfence : ∀ j, decodeFence w = some j → decodeFence w = some .fence ∧ j = .fence := by
    intro j hj
    have hj' := hj
    unfold decodeFence at hj'
    split_ifs at hj' with hop
    obtain rfl := Option.some.inj hj'
    exact ⟨hj, rfl⟩
  have hsome : ∀ {α : Type} {f : α → Operation} {o : Option α}, o.map f = some i →
      ∃ j, o = some j ∧ i = f j := by
    intro α f o ho
    obtain ⟨j, hj, rfl⟩ := Option.map_eq_some_iff.1 ho
    exact ⟨j, hj, rfl⟩
  unfold decodeOperation at h
  simp only [Option.orElse_eq_some] at h
  rcases h with h | ⟨-, h | ⟨-, h | ⟨-, h | ⟨-, h | ⟨-, h⟩⟩⟩⟩⟩
  · exact .inl (hsome h)
  · exact .inr (.inl (hsome h))
  · exact .inr (.inr (.inl (hsome h)))
  · exact .inr (.inr (.inr (.inl (hsome h))))
  · exact .inr (.inr (.inr (.inr (.inl (hsome h)))))
  · exact .inr (.inr (.inr (.inr (.inr (hfence i h)))))

namespace System

variable {iw dw : ℕ} {p : Params} {s : System iw dw} {inp : ℕ → SystemIn} {m m' : Machine} {k n : ℕ}

/-- One instruction of the machine is one turn of the processor. -/
theorem Ready.step (hfair : Fair inp) (h : s.Ready) (hm : Represents m s) (hreg : m.Regular)
    (hstep : m.step = some m') : ∃ k n, FetchedAt p s inp k ∧ Leads p s inp k n m' := by
  obtain ⟨i, hi, hexec⟩ := Machine.step_eq_some hstep
  have hok := hreg i hi
  obtain ⟨k, hk⟩ := h.fetchedAt (p := p) hfair
  rw [Machine.fetched, hm.word h.begins.aligned] at hi
  suffices hn : ∃ n, Leads p s inp k n m' by
    obtain ⟨n, hn⟩ := hn
    exact ⟨k, n, hk, hn⟩
  rcases decodeOperation_cases hi with ⟨j, hdec, rfl⟩ | ⟨j, hdec, rfl⟩ | ⟨j, hdec, rfl⟩ |
    ⟨j, hdec, rfl⟩ | ⟨j, hdec, rfl⟩ | ⟨hdec, rfl⟩
  · obtain rfl := Option.some.inj hexec
    exact integer_leads h hm hk hdec
  · by_cases hal : (j.target m.arch).toNat % 4 = 0
    · simp only [Machine.exec, hal, if_true, Option.some.injEq] at hexec
      rw [← hexec]
      exact transfer_leads h hm hk hdec hal hok
    · simp [Machine.exec, hal] at hexec
  · by_cases hal : (j.address m.arch).toNat % j.width.bytes = 0
    · simp only [Machine.exec, hal, if_true, Option.some.injEq] at hexec
      rw [← hexec]
      exact mem_leads hfair h hm hk hdec hal
    · simp [Machine.exec, hal] at hexec
  · by_cases hal : (m.arch.x j.rs1).toNat % 4 = 0
    · simp only [Machine.exec, hal, if_true, Option.some.injEq] at hexec
      rw [← hexec]
      exact amo_leads hfair h hm hk hdec hal
    · simp [Machine.exec, hal] at hexec
  · refine reserved_leads hfair h hm hk hdec hexec fun rd rs1 rs2 hsc => ?_
    subst hsc
    by_contra hno
    rw [not_or] at hno
    obtain ⟨a, ha⟩ := Option.ne_none_iff_exists'.1 hno.1
    exact hok ⟨a, ha, fun heq => hno.2 (heq ▸ ha)⟩
  · obtain rfl := Option.some.inj hexec
    exact fence_leads h hm hk hdec

/-! ## Runs -/

/-- From cycle `a` on the state machine is in `FETCH`, then it is not, and in cycle `b` it is back. -/
def Turn (c : ℕ → Core) (a b : ℕ) : Prop :=
  ∃ k, a ≤ k ∧ (∀ j, a ≤ j → j ≤ k → (c j).state = .fetch) ∧ NextFetch c k b

/-- The `n`-th instruction of the program begins in cycle `t n`. -/
structure Follows (p : Params) (s : System iw dw) (inp : ℕ → SystemIn) (m : Machine) (n : ℕ)
    (t : ℕ → ℕ) : Prop where
  start : t 0 = 0
  turn : ∀ j < n, Turn (fun l => (Sync.run (System.next p) s inp l).cpu.core) (t j) (t (j + 1))
  machine : ∀ j ≤ n, ∃ mj, m.steps j = some mj ∧ (Sync.run (System.next p) s inp (t j)).Ready ∧
    Represents mj (Sync.run (System.next p) s inp (t j))

/-- Another instruction. -/
theorem Follows.succ {t : ℕ → ℕ} {mn : Machine} (hfair : Fair inp) (h : Follows p s inp m n t)
    (hn : m.steps n = some mn) (hreg : mn.Regular) (hstep : mn.step = some m') :
    ∃ b, Follows p s inp m (n + 1) (Function.update t (n + 1) b) := by
  obtain ⟨mn', hn', hready, hrep⟩ := h.machine n le_rfl
  obtain rfl := Option.some.inj (hn.symm.trans hn')
  obtain ⟨k, l, hk, hl⟩ := hready.step (p := p) (hfair.shift (t n)) hrep hreg hstep
  have hrun : ∀ j, Sync.run (System.next p) (Sync.run (System.next p) s inp (t n))
      (fun j => inp (t n + j)) j = Sync.run (System.next p) s inp (t n + j) :=
    fun j => (Sync.run_add (System.next p) s inp (t n) j).symm
  have hne : ∀ j, j ≤ n → Function.update t (n + 1) (t n + l) j = t j :=
    fun j hj => Function.update_of_ne (by omega) _ _
  refine ⟨t n + l, ⟨(hne 0 (Nat.zero_le n)).trans h.start, fun j hj => ?_, fun j hj => ?_⟩⟩
  · rw [hne j (by omega)]
    rcases Nat.lt_or_eq_of_le (Nat.lt_succ_iff.1 hj) with hlt | rfl
    · rw [hne (j + 1) hlt]
      exact h.turn j hlt
    -- the new turn, counted from cycle `t n` on
    · rw [Function.update_self]
      refine ⟨t j + k, by omega, fun i hi hi' => ?_, ?_⟩
      · obtain ⟨c, rfl⟩ := Nat.exists_eq_add_of_le hi
        show (Sync.run (System.next p) s inp (t j + c)).cpu.core.state = .fetch
        rw [← hrun]
        exact hk.states hready (by omega)
      · obtain ⟨hkl, hbetween, hfetch⟩ := hl.lands
        refine ⟨by omega, fun i hi hi' => ?_, ?_⟩
        · obtain ⟨c, rfl⟩ := Nat.exists_eq_add_of_le (show t j ≤ i by omega)
          show (Sync.run (System.next p) s inp (t j + c)).cpu.core.state ≠ .fetch
          rw [← hrun]
          exact hbetween c (by omega) (by omega)
        · show (Sync.run (System.next p) s inp (t j + l)).cpu.core.state = .fetch
          rw [← hrun]
          exact hfetch
  · rcases Nat.lt_or_eq_of_le hj with hlt | rfl
    · rw [hne j (by omega)]
      exact h.machine j (by omega)
    · rw [Function.update_self, ← hrun]
      exact ⟨m', by rw [Machine.steps_succ, hn]; exact hstep, hl.ready, hl.represents⟩

/-- **Programs run as the specification says.** -/
theorem program_refines (hfair : Fair inp) (h : s.Ready) (hm : Represents m s)
    (hsteps : m.steps n = some m')
    (hreg : ∀ j < n, ∀ mj, m.steps j = some mj → mj.Regular) :
    ∃ t, Follows p s inp m n t := by
  induction n generalizing m' with
  | zero =>
    refine ⟨fun _ => 0, rfl, fun j hj => absurd hj (Nat.not_lt_zero j), fun j hj => ?_⟩
    obtain rfl : j = 0 := by omega
    exact ⟨m, rfl, h, hm⟩
  | succ n ih =>
    obtain ⟨mn, hn, hstep⟩ := Machine.steps_succ_eq_some hsteps
    obtain ⟨t, ht⟩ := ih hn fun j hj => hreg j (by omega)
    obtain ⟨b, hb⟩ := ht.succ hfair hn (hreg n (Nat.lt_succ_self n) mn hn) hstep
    exact ⟨_, hb⟩

/-! ## The first instruction -/

/-- After reset the first instruction can begin. -/
theorem ready_reset (p : Params) (content : BitVec 32 → Word)
    (h : p.resetAddr.extractLsb' 0 2 = 0#2) : (System.reset iw dw p content).Ready := by
  have hres := System.reset_isReset iw dw p content
  exact ⟨⟨hres.inStep, (Sv32.reset_isReset iw dw).clean, CsrUnit.machineOnly_reset⟩,
    begins_reset p content h, settled_reset content⟩

/-- The machine after reset. -/
def resetMachine (p : Params) (content : BitVec 32 → Word) : Machine :=
  ⟨(Core.reset p).arch, bytesOf content, none⟩

theorem represents_reset (p : Params) (content : BitVec 32 → Word) :
    Represents (resetMachine p content) (System.reset iw dw p content) := ⟨rfl, rfl, rfl⟩

theorem fair_promptInput : Fair promptInput := ⟨fun n => ⟨n, le_rfl, rfl⟩, fun _ => rfl⟩

/-- `addi x1, x0, 8` and `sw x1, 0(x1)`. -/
def storeProgram : BitVec 32 → Word := fun a => if a = 0#32 then 0x00800093#32 else 0x0010a023#32

theorem program_refines_store :
    ∃ m' t, (resetMachine sampleParams storeProgram).steps 2 = some m' ∧
      Follows sampleParams (System.reset 4 3 sampleParams storeProgram) promptInput
        (resetMachine sampleParams storeProgram) 2 t := by
  have hfetched : ∀ j < 2, ((resetMachine sampleParams storeProgram).steps j).bind Machine.fetched
      = some (if j = 0 then .int (.opImm .add 1#5 0#5 8#32) else .mem (.store .word 1#5 1#5 0#32)) := by
    decide +kernel
  have hsome : ((resetMachine sampleParams storeProgram).steps 2).isSome = true := by
    decide +kernel
  obtain ⟨m', hm'⟩ := Option.isSome_iff_exists.1 hsome
  obtain ⟨t, ht⟩ := program_refines (p := sampleParams) (s := System.reset 4 3 sampleParams
    storeProgram) fair_promptInput (ready_reset _ _ rfl) (represents_reset _ _) hm' fun j hj mj hmj i hi => by
      have hf := hfetched j hj
      rw [hmj, Option.bind_some, hi] at hf
      obtain rfl := Option.some.inj hf
      split <;> exact id
  exact ⟨m', t, hm', ht⟩

end System

end KianRiscV
