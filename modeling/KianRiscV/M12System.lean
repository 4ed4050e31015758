/-
# The caches over the M12L64322A

`cache.v` wired to `m12l64322a_ctrl.v` as in `soc.v`.  The controller samples `valid` in the cycle
of its ready pulse, where the caches have taken a read back but not a write; and it drives the
data of a write a cycle before `WRITE` is on the pins.  So reads are served as they should be, and
no write is.
-/
import KianRiscV.M12Ctrl
import KianRiscV.CachePort
import KianRiscV.SocResponders

namespace KianRiscV

open Sdram

variable {iset iways dset dways : ℕ}

/-- The caches and the controller. -/
structure M12System (ipolicy : ReplacementPolicy iset iways)
    (dpolicy : ReplacementPolicy dset dways) where
  cache : Cache ipolicy dpolicy
  ctrl : M12Ctrl

/-- What comes in a cycle: the select line, the access of the processor to the SDRAM,
`icache_flush`, and the data lines as the device drives them. -/
structure M12In where
  isInstruction : Bool
  cpu : CacheReq
  icacheFlush : Bool
  sdramDq : Word

namespace M12System

variable {ipolicy : ReplacementPolicy iset iways} {dpolicy : ReplacementPolicy dset dways}

section

variable (p : M12Params) (s : M12System ipolicy dpolicy) (i : M12In)

/-- `mem_sdram_ready`. -/
def memSdramReady : Bool := s.cache.cpuReady i.isInstruction s.ctrl.ready

/-- The access as `soc.v` passes it on, with `mem_sdram_valid`. -/
def memSdramReq : CacheReq :=
  ⟨i.cpu.valid && !s.memSdramReady i, i.cpu.addr, i.cpu.mask, i.cpu.data⟩

/-- `cache_valid_o`, `cache_addr_o`, `cache_wmask_o` and `cache_din_o`. -/
def ramRequest : CacheReq := s.cache.ramRequest i.isInstruction i.cpu s.ctrl.ready

/-- One clock edge; `soc.v` resets the caches with `resetn && ~icache_flush`. -/
def next : M12System ipolicy dpolicy where
  cache := s.cache.next i.isInstruction (s.memSdramReq i) s.ctrl.ready s.ctrl.dout
    (!i.icacheFlush)
  ctrl := s.ctrl.next p (s.ramRequest i) i.sdramDq

/-- The registers after reset. -/
structure IsReset : Prop where
  icache : s.cache.icache.state = .s0
  dcache : s.cache.dcache.state = .s0
  ctrl : s.ctrl.IsReset

end

/-! ## Runs -/

section

variable (p : M12Params) (s : M12System ipolicy dpolicy) (inp : ℕ → M12In)

/-- The state after `n` cycles. -/
def run (n : ℕ) : M12System ipolicy dpolicy := Sync.run (next p) s inp n

/-- Accesses are held until they are answered, and the caches are flushed without one. -/
structure Orderly : Prop where
  held : ∀ n, (inp n).cpu.valid = true → (run p s inp n).memSdramReady (inp n) = false →
    (inp (n + 1)).cpu = (inp n).cpu ∧ (inp (n + 1)).isInstruction = (inp n).isInstruction
  flush : ∀ n, (inp n).icacheFlush = true → (inp n).cpu.valid = false

/-- No access is a store. -/
def NoStore (inp : ℕ → M12In) : Prop :=
  ∀ n, (inp n).isInstruction = false → (inp n).cpu.valid = true → (inp n).cpu.mask = 0#4

/-- The request to the RAM in cycle `n`, also in the cycle of its answer. -/
def request (n : ℕ) : CacheReq := (run p s inp n).cache.request (inp n).isInstruction (inp n).cpu

/-- `cache_ready_i` in cycle `n`. -/
def ready (n : ℕ) : Bool := (run p s inp n).ctrl.ready

/-- The command on the pins in cycle `n`. -/
def command (n : ℕ) : Command (BitVec 2) (BitVec 11) := (run p s inp n).ctrl.decode

/-- The banks of the device after the command on the pins in cycle `n`, from any banks `d`. -/
def device (d : Banks (BitVec 2) (BitVec 11)) : ℕ → Banks (BitVec 2) (BitVec 11)
  | 0 => d
  | n + 1 => (device d n).step (command p s inp (n + 1))

/-- The requests of the caches are served exactly once, by a device with the banks `d`. -/
structure Correct (d : Banks (BitVec 2) (BitVec 11)) : Prop where
  /-- A column command is there for the request that is presented, at its bank, row and column:
  `READ` for a read, and `WRITE` for a write. -/
  column : ∀ n, (command p s inp (n + 1)).isColumn = true →
    (request p s inp (n + 1)).valid = true ∧
      command p s inp (n + 1) = (if (request p s inp (n + 1)).mask = 0#4 then
        .read (M12Ctrl.bank (request p s inp (n + 1))) true
      else .write (M12Ctrl.bank (request p s inp (n + 1))) true) ∧
      device p s inp d n (M12Ctrl.bank (request p s inp (n + 1))) =
        some (M12Ctrl.row (request p s inp (n + 1))) ∧
      (run p s inp (n + 1)).ctrl.saddr.extractLsb' 0 8 =
        M12Ctrl.column (request p s inp (n + 1))
  /-- A request is presented until it is answered. -/
  answered : ∀ n, (request p s inp n).valid = true →
    ∃ m, n ≤ m ∧ ready p s inp m = true ∧
      ∀ k, n ≤ k → k ≤ m → request p s inp k = request p s inp n
  /-- A ready pulse answers the request that is presented, and there has been exactly one column
  command since the one before, which was for this request. -/
  once : ∀ n, ready p s inp n = true → (request p s inp n).valid = true ∧
    ∃! m, m ≤ n ∧ (command p s inp m).isColumn = true ∧
      (∀ k, m ≤ k → k < n → ready p s inp k = false) ∧ request p s inp m = request p s inp n
  /-- The data of the answer to a read is what the device has put out for its `READ`, after the
  latency. -/
  data : ∀ m n, m ≤ n → (command p s inp m).isColumn = true →
    (∀ k, m ≤ k → k < n → ready p s inp k = false) → ready p s inp n = true →
    (request p s inp n).mask = 0#4 → (run p s inp n).ctrl.dout = (inp (m + 2)).sdramDq
  /-- With `WRITE` on the pins, the data lines carry the data of the request. -/
  write : ∀ n, (run p s inp n).ctrl.command = .write →
    ∃ w, (run p s inp n).ctrl.drive ((run p s inp n).ramRequest (inp n)) = some w ∧
      w &&& expandWmask (request p s inp n).mask =
        (request p s inp n).data &&& expandWmask (request p s inp n).mask

end

variable {p : M12Params} {s : M12System ipolicy dpolicy} {inp : ℕ → M12In} {n : ℕ}
  {d : Banks (BitVec 2) (BitVec 11)}

theorem ctrl_succ (n : ℕ) : (run p s inp (n + 1)).ctrl =
    (run p s inp n).ctrl.next p ((run p s inp n).ramRequest (inp n)) (inp n).sdramDq := rfl

/-- That the access is taken back in the cycle of its answer makes no difference. -/
theorem cache_succ (n : ℕ) : (run p s inp (n + 1)).cache =
    (run p s inp n).cache.next (inp n).isInstruction (inp n).cpu (ready p s inp n)
      (run p s inp n).ctrl.dout (!(inp n).icacheFlush) :=
  Cache.next_guard

/-! ## The requests -/

section

variable (hs : s.IsReset) (ho : Orderly p s inp)

include hs ho

theorem Orderly.holds (n : ℕ) :
    (run p s inp n).cache.Holds (inp n).isInstruction (inp n).cpu := by
  induction n with
  | zero => exact Cache.holds_of_rest hs.icache hs.dcache
  | succ n ih =>
    rw [cache_succ]
    exact ih.next (ho.held n) fun hr => ho.flush n (by simpa using hr)

/-- A flush does not come during a request. -/
theorem Orderly.not_flush (h : (request p s inp n).valid = true) : (inp n).icacheFlush = false := by
  apply Bool.eq_false_of_not_eq_true
  intro hf
  have hv := (ho.holds hs n).valid_of_request h
  rw [ho.flush n hf] at hv
  exact Bool.noConfusion hv

/-- A request that is not answered stays. -/
theorem Orderly.request_succ (h : (request p s inp n).valid = true)
    (hr : ready p s inp n = false) : request p s inp (n + 1) = request p s inp n := by
  have hh := ho.holds hs n
  have hready : (run p s inp n).memSdramReady (inp n) = false :=
    (Cache.cpuReady_of_request h).trans hr
  obtain ⟨hcpu, hsel⟩ := ho.held n (hh.valid_of_request h) hready
  rw [request, cache_succ, hcpu, hsel, hr, ho.not_flush hs h]
  exact hh.request_next h

end

end M12System

/-! ## The controller under reads -/

namespace M12Ctrl

variable {p : M12Params} {c : M12Ctrl} {q r r' : CacheReq} {x : Word}
  {d : Banks (BitVec 2) (BitVec 11)}

/-- The states of initialisation, refresh and reads. -/
def servesReads : M12State → Bool
  | .colWriteRead | .casLatencyWriteReadDone | .colWriteWrite0 | .colWriteWrite1 | .colWrite
  | .autoRefresh | .preChargeAll | .waitStates => false
  | _ => true

/-- A read is under way only with a request, `r`, and its row is open when it is read. -/
structure InStep (c : M12Ctrl) (r : CacheReq) (d : Banks (BitVec 2) (BitVec 11)) : Prop where
  pos : servesReads c.pos = true
  ready : c.ready = true → c.state = .idle ∧ r.valid = true
  update : c.updateReady = true → c.state = .waitStates ∧ c.returnState = .idle
  reading : c.reading → r.valid = true
  row : c.pos = .colRead → d (bank r) = some (M12Ctrl.row r)
  command : c.state = .reset → c.decode.isColumn = false

theorem InStep.ready_eq (h : c.InStep r d) (hs : c.state ≠ .idle) : c.ready = false :=
  Bool.eq_false_of_not_eq_true fun hr => hs (h.ready hr).1

theorem InStep.update_eq (h : c.InStep r d) (hs : c.state ≠ .waitStates) :
    c.updateReady = false :=
  Bool.eq_false_of_not_eq_true fun hu => hs (h.update hu).1

/-- The request of a read that is under way stays. -/
theorem InStep.req_eq (h : c.InStep r d) (hr : r.valid = true → c.ready = false → r' = r)
    (hread : c.reading) : r' = r :=
  hr (h.reading hread) (h.ready_eq (state_ne_idle_of_reading hread))

@[simp] theorem decode_waitFor (c : M12Ctrl) (n : BitVec 14) (st : M12State) :
    (waitFor c n st).decode = c.decode := rfl

@[simp] theorem pos_waitFor (c : M12Ctrl) (n : BitVec 14) (st : M12State) :
    (waitFor c n st).pos = st := rfl

/-- The wait keeps the position. -/
theorem pos_next_of_wait (hs : c.state = .waitStates) (hret : c.returnState ≠ .waitStates) :
    (c.next p q x).pos = c.pos := by
  simp only [next, hs]
  split <;> simp [pos, hs, hret]

/-- A wait that is not for a read or a refresh ends without an answer. -/
theorem InStep.init (h : c.InStep r d) {c' : M12Ctrl} {st : M12State}
    (hs : c.state ≠ .idle) (hs' : c.state ≠ .waitStates)
    (hc' : c'.ready = c.ready) (hu' : c'.updateReady = c.updateReady) (n : BitVec 14)
    (hst : servesReads st = true) (hne : st ≠ .colRead) (hne' : st ≠ .casLatencyReadDone)
    (d' : Banks (BitVec 2) (BitVec 11)) : (waitFor c' n st).InStep r' d' where
  pos := hst
  ready hr := by
    have hc : c.ready = true := hc' ▸ hr
    rw [h.ready_eq hs] at hc
    exact Bool.noConfusion hc
  update hu := by
    have hc : c.updateReady = true := hu' ▸ hu
    rw [h.update_eq hs'] at hc
    exact Bool.noConfusion hc
  reading hread := by
    rcases hread with hp | hp | ⟨-, -, hu⟩
    · exact absurd hp hne
    · exact absurd hp hne'
    · have hc : c.updateReady = true := hu' ▸ hu
      rw [h.update_eq hs'] at hc
      exact Bool.noConfusion hc
  row hp := absurd hp hne
  command hst := M12State.noConfusion hst

/-- A wait goes on, or ends, for a read with its answer. -/
theorem InStep.wait_next (h : c.InStep r d) (hs : c.state = .waitStates)
    (hr : r.valid = true → c.ready = false → r' = r) :
    (c.next p q x).InStep r' (d.step (c.next p q x).decode) := by
  have hret : c.returnState ≠ .waitStates := by
    intro hno
    exact absurd h.pos (by simp [servesReads, M12Ctrl.pos, hs, hno])
  have hpos := pos_next_of_wait (p := p) (q := q) (x := x) hs hret
  have hc := h.ready_eq (by simp [hs])
  have hnop : (c.next p q x).decode = .nop := by
    simp only [M12Ctrl.next, hs]
    split <;> rfl
  -- The flag is kept up to the end of the wait, where it becomes the answer.
  have hupd : (c.next p q x).updateReady = true →
      (c.next p q x).state = .waitStates ∧ (c.next p q x).returnState = .idle ∧
        c.updateReady = true := by
    intro hu
    simp only [M12Ctrl.next, hs] at hu ⊢
    by_cases h1 : c.waitStates = 1#14
    · simp only [h1, if_true] at hu
      split at hu
      · exact Bool.noConfusion hu
      · next hno => exact absurd ⟨(h.update hu).2, hu⟩ hno
    · simp only [if_neg h1] at hu ⊢
      exact ⟨trivial, (h.update hu).2, hu⟩
  have hready : (c.next p q x).ready = true →
      (c.next p q x).state = .idle ∧ c.updateReady = true := by
    intro hrd
    refine ⟨state_of_ready (fun hno => (h.ready hno).1) hrd, ?_⟩
    by_contra hu
    simp only [M12Ctrl.next, hs] at hrd
    split at hrd <;> simp [hc, hu] at hrd
  have hread : (c.next p q x).reading → c.reading := by
    rintro (hp | hp | ⟨-, -, hu⟩)
    · exact .inl (hpos ▸ hp)
    · exact .inr (.inl (hpos ▸ hp))
    · have hu' := (hupd hu).2.2
      exact .inr (.inr ⟨hs, (h.update hu').2, hu'⟩)
  rw [hnop, Banks.step_nop]
  refine ⟨hpos ▸ h.pos, fun hrd => ?_, fun hu => ⟨(hupd hu).1, (hupd hu).2.1⟩, fun hrd => ?_,
    fun hp => ?_, fun _ => by rw [hnop]; rfl⟩
  · have hu := (hready hrd).2
    have hcr : c.reading := .inr (.inr ⟨hs, (h.update hu).2, hu⟩)
    obtain rfl := h.req_eq hr hcr
    exact ⟨(hready hrd).1, h.reading hcr⟩
  · obtain rfl := h.req_eq hr (hread hrd)
    exact h.reading (hread hrd)
  · have hcp : c.pos = .colRead := hpos ▸ hp
    obtain rfl := h.req_eq hr (.inl hcp)
    exact h.row hcp

/-- **One edge under reads.** -/
theorem InStep.next (h : c.InStep r d) (hm : r.mask = 0#4)
    (hq : q = { r with valid := r.valid && !c.ready })
    (hr : r.valid = true → c.ready = false → r' = r) :
    (c.next p q x).InStep r' (d.step (c.next p q x).decode) := by
  have hbank : bank q = bank r ∧ M12Ctrl.row q = M12Ctrl.row r ∧ q.mask = 0#4 := by
    rw [hq]
    exact ⟨rfl, rfl, hm⟩
  cases hs : c.state with
  | idle =>
    have hu : c.updateReady = false := h.update_eq (by simp [hs])
    cases hv : q.valid with
    | true =>
      -- the request is taken: its row is opened in its bank, and it stays until the ready pulse
      obtain ⟨hrv, hrr⟩ : r.valid = true ∧ c.ready = false := by
        simpa [hq] using hv
      obtain rfl := hr hrv hrr
      simp only [M12Ctrl.next, hs, hv, if_true, hbank.2.2, ne_eq, not_true_eq_false, if_false]
      refine ⟨rfl, fun hno => Bool.noConfusion hno, fun hno => ?_, fun _ => hrv, fun _ => ?_,
        fun hno => M12State.noConfusion hno⟩
      · exact absurd (hu.symm.trans hno) (by decide)
      · show Function.update d (bank q) (some (M12Ctrl.row q)) (bank r') = some (M12Ctrl.row r')
        rw [hbank.1, hbank.2.1, Function.update_self]
    | false =>
      simp only [M12Ctrl.next, hs, hv, Bool.false_eq_true, if_false]
      refine ⟨rfl, fun hno => Bool.noConfusion hno, fun hno => ?_, fun hno => ?_,
        fun hno => M12State.noConfusion hno, fun hno => M12State.noConfusion hno⟩
      · exact absurd (hu.symm.trans hno) (by decide)
      · rcases hno with hp | hp | ⟨-, -, hno⟩
        · exact M12State.noConfusion hp
        · exact M12State.noConfusion hp
        · exact absurd (hu.symm.trans hno) (by decide)
  | colRead =>
    have hread : c.reading := .inl (by simp [M12Ctrl.pos, hs])
    obtain rfl := h.req_eq hr hread
    have hc := h.ready_eq (by simp [hs])
    have hu := h.update_eq (by simp [hs])
    simp only [M12Ctrl.next, hs]
    exact ⟨rfl, fun hno => absurd (hc.symm.trans hno) (by decide),
      fun hno => absurd (hu.symm.trans hno) (by decide), fun _ => h.reading hread,
      fun hno => M12State.noConfusion hno, fun hno => M12State.noConfusion hno⟩
  | casLatencyReadDone =>
    have hread : c.reading := .inr (.inl (by simp [M12Ctrl.pos, hs]))
    obtain rfl := h.req_eq hr hread
    have hc := h.ready_eq (by simp [hs])
    simp only [M12Ctrl.next, hs]
    exact ⟨rfl, fun hno => absurd (hc.symm.trans hno) (by decide), fun _ => ⟨rfl, rfl⟩,
      fun _ => h.reading hread, fun hno => M12State.noConfusion hno,
      fun hno => M12State.noConfusion hno⟩
  | waitStates => exact h.wait_next hs hr
  | reset | initSeqPreChargeAll | initSeqAutoRefresh0 | initSeqAutoRefresh1 | initSeqLoadMode =>
    simp only [M12Ctrl.next, hs]
    refine h.init (by simp [hs]) (by simp [hs]) ?_ ?_ _ ?_ ?_ ?_ _
    all_goals first | rfl | decide
  | _ => exact absurd h.pos (by simp [servesReads, M12Ctrl.pos, hs])

/-! ## Column commands and answers -/

theorem isColumn_decode : c.decode.isColumn = (c.command == .read || c.command == .write) := by
  cases hcmd : c.command with
  | pre =>
    simp only [decode, hcmd]
    split <;> rfl
  | _ =>
    simp only [decode, hcmd]
    rfl

/-- Under reads, column commands come from `COL_READ`. -/
theorem InStep.state_of_isColumn (h : c.InStep r d)
    (hcol : (c.next p q x).decode.isColumn = true) : c.state = .colRead := by
  rw [isColumn_decode] at hcol
  cases hs : c.state with
  | colRead => rfl
  | waitStates =>
    simp only [M12Ctrl.next, hs] at hcol
    split at hcol <;> exact Bool.noConfusion hcol
  | idle =>
    simp only [M12Ctrl.next, hs] at hcol
    split at hcol <;> exact Bool.noConfusion hcol
  | reset =>
    have hc := h.command hs
    rw [isColumn_decode] at hc
    simp only [M12Ctrl.next, hs, waitFor, hc] at hcol
    exact Bool.noConfusion hcol
  | initSeqPreChargeAll | initSeqAutoRefresh0 | initSeqAutoRefresh1 | initSeqLoadMode
  | casLatencyReadDone =>
    simp only [M12Ctrl.next, hs] at hcol
    exact Bool.noConfusion hcol
  | _ => exact absurd h.pos (by simp [servesReads, M12Ctrl.pos, hs])

/-- The `READ` has been given, and its answer not yet. -/
def past (c : M12Ctrl) : Prop :=
  c.pos = .casLatencyReadDone ∨
    (c.state = .waitStates ∧ c.returnState = .idle ∧ c.updateReady = true)

theorem reading_of_past (h : c.past) : c.reading := .inr h

theorem InStep.past_of_isColumn (h : c.InStep r d)
    (hcol : (c.next p q x).decode.isColumn = true) : ¬ c.past ∧ (c.next p q x).past := by
  have hs := h.state_of_isColumn hcol
  constructor
  · rintro (hp | ⟨hno, -⟩)
    · simp [M12Ctrl.pos, hs] at hp
    · rw [hs] at hno
      exact M12State.noConfusion hno
  · exact .inl (by simp [M12Ctrl.next, hs, readColumn])

theorem InStep.past_of_ready (h : c.InStep r d) (hr : (c.next p q x).ready = true) :
    c.past ∧ ¬ (c.next p q x).past := by
  have hst := state_of_ready (fun hno => (h.ready hno).1) hr
  refine ⟨?_, fun hno => state_ne_idle_of_reading (reading_of_past hno) hst⟩
  by_cases hs : c.state = .waitStates
  · have hc := h.ready_eq (by simp [hs])
    simp only [M12Ctrl.next, hs] at hr
    split at hr
    · by_cases hd : c.returnState = .idle ∧ c.updateReady = true
      · exact .inr ⟨hs, hd⟩
      · simp [hd, hc] at hr
    · simp [hc] at hr
  · -- Only the wait leads into `IDLE`.
    exfalso
    cases hs' : c.state with
    | waitStates => exact hs hs'
    | autoRefresh => exact absurd h.pos (by simp [servesReads, M12Ctrl.pos, hs'])
    | idle =>
      simp only [M12Ctrl.next, hs'] at hst
      split at hst <;> exact M12State.noConfusion hst
    | _ =>
      simp only [M12Ctrl.next, hs'] at hst
      exact M12State.noConfusion hst

theorem InStep.past_next (h : c.InStep r d) (hcol : ¬ (c.next p q x).decode.isColumn = true)
    (hr : ¬ (c.next p q x).ready = true) : (c.next p q x).past ↔ c.past := by
  cases hs : c.state with
  | waitStates =>
    -- the wait comes back to where it was called from, which is not the wait itself
    have hret : c.returnState ≠ .waitStates := by
      intro hno
      exact absurd h.pos (by simp [servesReads, M12Ctrl.pos, hs, hno])
    have hpos := pos_next_of_wait (p := p) (q := q) (x := x) hs hret
    unfold past
    rw [hpos]
    apply or_congr Iff.rfl
    by_cases h1 : c.waitStates = 1#14
    · have hno : ¬ (c.returnState = .idle ∧ c.updateReady = true) := by
        intro hd
        exact hr (by simp [M12Ctrl.next, hs, h1, hd])
      simp only [M12Ctrl.next, hs, h1, if_true, if_neg hno, true_and]
      exact ⟨fun hst => absurd hst.1 hret, fun hd => absurd hd hno⟩
    · simp [M12Ctrl.next, hs, h1]
  | casLatencyReadDone =>
    exact iff_of_true (.inr (by simp [M12Ctrl.next, hs, readDone, waitFor]))
      (.inl (by simp [M12Ctrl.pos, hs]))
  | colRead =>
    exact absurd (by simp [isColumn_decode, M12Ctrl.next, hs, readColumn, waitFor]) hcol
  | idle =>
    have hu := h.update_eq (by simp [hs])
    refine iff_of_false ?_ (by simp [past, M12Ctrl.pos, hs])
    simp only [M12Ctrl.next, hs]
    split
    · split <;> simp [past, activate, waitFor, M12Ctrl.pos]
    · simp [past, waitFor, M12Ctrl.pos, hu]
  | reset | initSeqPreChargeAll | initSeqAutoRefresh0 | initSeqAutoRefresh1 | initSeqLoadMode =>
    have hu := h.update_eq (by simp [hs])
    simp [past, M12Ctrl.next, waitFor, M12Ctrl.pos, hs, hu]
  | _ => exact absurd h.pos (by simp [servesReads, M12Ctrl.pos, hs])

/-- The column address of a `READ` or `WRITE`. -/
theorem columnAp_eq (q : CacheReq) :
    (columnAp q).getLsbD 10 = true ∧ (columnAp q).extractLsb' 0 8 = column q := by
  constructor
  · simp only [columnAp, BitVec.getLsbD_append]
    rfl
  · exact BitVec.extractLsb'_append_eq_right

end M12Ctrl

namespace M12System

variable {ipolicy : ReplacementPolicy iset iways} {dpolicy : ReplacementPolicy dset dways}
  {p : M12Params} {s : M12System ipolicy dpolicy} {inp : ℕ → M12In} {m n : ℕ}
  {d : Banks (BitVec 2) (BitVec 11)}

/-! ## Reads -/

section

variable (hs : s.IsReset) (ho : Orderly p s inp)

include hs

/-- The controller always comes back to `IDLE`. -/
theorem IsReset.exists_idle (p : M12Params) (inp : ℕ → M12In) (n : ℕ) :
    ∃ m, n ≤ m ∧ (run p s inp m).ctrl.state = .idle :=
  M12Ctrl.exists_idle (C := fun n => (run p s inp n).ctrl) ctrl_succ
    (fun hno => by
      have hst : s.ctrl.state = .waitStates := hno
      rw [hs.ctrl.state] at hst
      exact M12State.noConfusion hst) n

/-- A ready pulse comes in `IDLE` only. -/
theorem IsReset.state_of_ready (n : ℕ) (h : ready p s inp n = true) :
    (run p s inp n).ctrl.state = .idle := by
  induction n with
  | zero =>
    have hr : s.ctrl.ready = true := h
    rw [hs.ctrl.ready] at hr
    exact Bool.noConfusion hr
  | succ n ih => exact M12Ctrl.state_of_ready ih h

variable (hno : NoStore inp)

include ho hno

theorem Orderly.inStep (d : Banks (BitVec 2) (BitVec 11)) (n : ℕ) :
    (run p s inp n).ctrl.InStep (request p s inp n) (device p s inp d n) := by
  induction n with
  | zero =>
    have hc := hs.ctrl
    have hpos : s.ctrl.pos = .reset := by simp [M12Ctrl.pos, hc.state]
    refine ⟨by simp [run, hpos, M12Ctrl.servesReads], ?_, ?_, ?_, ?_, fun _ => hc.command⟩
    · simp [run, hc.ready]
    · simp [run, hc.updateReady]
    · simp [M12Ctrl.reading, run, hpos, hc.state]
    · simp [run, hpos]
  | succ n ih =>
    obtain ⟨hq, hm⟩ := (ho.holds hs n).ramRequest_read (b := ready p s inp n) (hno n)
    exact ih.next hm hq (ho.request_succ hs)

/-- `READ`s and answers come in turn. -/
theorem Orderly.toggles :
    Sync.Toggles (fun n => (run p s inp n).ctrl.past)
      (fun n => (command p s inp n).isColumn = true) (fun n => ready p s inp n = true) where
  start := by
    have hc := hs.ctrl
    refine ⟨?_, ?_, ?_⟩
    · simp [M12Ctrl.past, run, M12Ctrl.pos, hc.state]
    · simp [command, run, hc.command]
    · simp [ready, run, hc.ready]
  set n hcol := (ho.inStep hs hno Banks.closed n).past_of_isColumn hcol
  clear n hr := (ho.inStep hs hno Banks.closed n).past_of_ready hr
  keep n hcol hr := (ho.inStep hs hno Banks.closed n).past_next hcol hr

/-- From the `READ` to the answer the request stays. -/
theorem Orderly.request_of_isColumn (hm : (command p s inp m).isColumn = true) (hmn : m ≤ n)
    (hnr : ∀ k, m ≤ k → k < n → ready p s inp k = false) :
    (request p s inp n).valid = true ∧ request p s inp n = request p s inp m := by
  induction n, hmn using Nat.le_induction with
  | base =>
    have hpast := (ho.toggles hs hno).of_set hm
    exact ⟨(ho.inStep hs hno Banks.closed m).reading (M12Ctrl.reading_of_past hpast), rfl⟩
  | succ n hmn ih =>
    obtain ⟨hv, heq⟩ := ih fun k hk hk' => hnr k hk (by omega)
    have hsucc := ho.request_succ hs hv (hnr n hmn (Nat.lt_succ_self n))
    exact ⟨by rw [hsucc]; exact hv, hsucc.trans heq⟩

/-- The place of a `READ` is that of the request. -/
theorem Orderly.column_eq (h : (command p s inp (n + 1)).isColumn = true) :
    (request p s inp (n + 1)).valid = true ∧
      command p s inp (n + 1) = (if (request p s inp (n + 1)).mask = 0#4 then
        .read (M12Ctrl.bank (request p s inp (n + 1))) true
      else .write (M12Ctrl.bank (request p s inp (n + 1))) true) ∧
      device p s inp d n (M12Ctrl.bank (request p s inp (n + 1))) =
        some (M12Ctrl.row (request p s inp (n + 1))) ∧
      (run p s inp (n + 1)).ctrl.saddr.extractLsb' 0 8 =
        M12Ctrl.column (request p s inp (n + 1)) := by
  have hin := ho.inStep hs hno d n
  have hst := hin.state_of_isColumn h
  have hpos : (run p s inp n).ctrl.pos = .colRead := by simp [M12Ctrl.pos, hst]
  have hv := hin.reading (.inl hpos)
  obtain ⟨hq, hm⟩ := (ho.holds hs n).ramRequest_read (b := ready p s inp n) (hno n)
  have hnext : (run p s inp (n + 1)).ctrl = M12Ctrl.readColumn
      ((run p s inp n).ramRequest (inp n)) (run p s inp n).ctrl .casLatencyReadDone := by
    rw [ctrl_succ]
    simp only [M12Ctrl.next, hst]
  have hq' : (run p s inp n).ramRequest (inp n) =
      { request p s inp n with valid := (request p s inp n).valid && !ready p s inp n } := hq
  rw [ho.request_succ hs hv (hin.ready_eq (by simp [hst]))]
  refine ⟨hv, ?_, hin.row hpos, ?_⟩
  · have hmask : (request p s inp n).mask = 0#4 := hm
    rw [if_pos hmask, command, hnext, hq']
    show Command.read _ ((M12Ctrl.columnAp (request p s inp n)).getLsbD 10) = _
    rw [(M12Ctrl.columnAp_eq _).1]
    rfl
  · rw [hnext, hq']
    exact (M12Ctrl.columnAp_eq (request p s inp n)).2

/-- A request is presented until it is answered, and it is answered. -/
theorem Orderly.read_answered (h : (request p s inp n).valid = true) :
    ∃ m, n ≤ m ∧ ready p s inp m = true ∧
      ∀ k, n ≤ k → k ≤ m → request p s inp k = request p s inp n := by
  have hsome : ∃ j, n ≤ j ∧ ready p s inp j = true := by
    by_contra hnone
    have hnr : ∀ k, n ≤ k → ready p s inp k = false := fun k hk =>
      Bool.eq_false_of_not_eq_true fun hr => hnone ⟨k, hk, hr⟩
    have hstay : ∀ k, n ≤ k → (request p s inp k).valid = true := by
      intro k hk
      induction k, hk using Nat.le_induction with
      | base => exact h
      | succ k hk ih =>
        rw [ho.request_succ hs ih (hnr k hk)]
        exact ih
    -- The read starts in the next `IDLE`, and goes on forever.
    obtain ⟨i, hni, hidle⟩ := hs.exists_idle p inp n
    obtain ⟨hq, hm⟩ := (ho.holds hs i).ramRequest_read (b := ready p s inp i) (hno i)
    have hstart : (run p s inp (i + 1)).ctrl.reading := by
      have hv : ((run p s inp i).ramRequest (inp i)).valid = true := by
        rw [ramRequest]
        refine (congrArg MemoryPort.Request.valid hq).trans ?_
        have hvalid : ((run p s inp i).cache.request (inp i).isInstruction (inp i).cpu).valid =
          true := hstay i hni
        rw [hvalid, hnr i hni]
        rfl
      have hmask : ((run p s inp i).ramRequest (inp i)).mask = 0#4 := by
        rw [ramRequest]
        exact (congrArg MemoryPort.Request.mask hq).trans hm
      rw [ctrl_succ]
      refine .inl ?_
      simp [M12Ctrl.next, hidle, hv, hmask, M12Ctrl.activate]
    have hforever : ∀ k, i + 1 ≤ k → (run p s inp k).ctrl.reading := by
      intro k hk
      induction k, hk using Nat.le_induction with
      | base => exact hstart
      | succ k hk ih =>
        apply (M12Ctrl.reading_next ih).resolve_right
        intro hr
        have hr' : ready p s inp (k + 1) = true := hr
        rw [hnr (k + 1) (by omega)] at hr'
        exact Bool.noConfusion hr'
    obtain ⟨j, hij, hj⟩ := hs.exists_idle p inp (i + 1)
    exact M12Ctrl.state_ne_idle_of_reading (hforever j hij) hj
  let W : ℕ → Prop := fun i => n ≤ i ∧ ∀ k, n ≤ k → k ≤ i → request p s inp k = request p s inp n
  have hstay : ∀ i, W i → ¬ ready p s inp i = true → W (i + 1) := by
    rintro i ⟨hni, hi⟩ hnr
    refine ⟨by omega, fun k hk hk' => ?_⟩
    rcases Nat.lt_or_ge i k with hlt | hge
    · obtain rfl : k = i + 1 := by omega
      have heq := hi i hni le_rfl
      rw [ho.request_succ hs (by rw [heq]; exact h) (Bool.eq_false_of_not_eq_true hnr)]
      exact heq
    · exact hi k hk hge
  have hstart : W n := ⟨le_rfl, fun k hk hk' => by rw [show k = n by omega]⟩
  obtain ⟨j, hnj, hkeep, hj⟩ := Sync.exists_of_wait hstay hstart hsome
  exact ⟨j, hnj, hj, hkeep.2⟩

theorem Orderly.read_once (h : ready p s inp n = true) :
    (request p s inp n).valid = true ∧
      ∃! m, m ≤ n ∧ (command p s inp m).isColumn = true ∧
        (∀ k, m ≤ k → k < n → ready p s inp k = false) ∧
        request p s inp m = request p s inp n := by
  refine ⟨((ho.inStep hs hno Banks.closed n).ready h).2, ?_⟩
  obtain ⟨m, ⟨hmn, hcol, hnr⟩, huniq⟩ := (ho.toggles hs hno).existsUnique_set h
  have hnr' : ∀ k, m ≤ k → k < n → ready p s inp k = false := fun k hk hk' =>
    Bool.eq_false_of_not_eq_true (hnr k hk hk')
  refine ⟨m, ⟨hmn, hcol, hnr', (ho.request_of_isColumn hs hno hcol hmn hnr').2.symm⟩, ?_⟩
  rintro m' ⟨hmn', hcol', hnr'', -⟩
  exact huniq m' ⟨hmn', hcol', fun k hk hk' hr => by
    rw [hnr'' k hk hk'] at hr
    exact Bool.noConfusion hr⟩

/-- The word of a `READ` is taken two cycles after it, and kept until the answer. -/
theorem Orderly.read_data (hmn : m ≤ n) (hm : (command p s inp m).isColumn = true)
    (hnr : ∀ k, m ≤ k → k < n → ready p s inp k = false) (hr : ready p s inp n = true) :
    (run p s inp n).ctrl.dout = (inp (m + 2)).sdramDq := by
  obtain ⟨t, rfl⟩ : ∃ t, m = t + 1 := by
    cases m with
    | zero =>
      have hc := hs.ctrl.command
      rw [show s.ctrl.decode.isColumn = true from hm] at hc
      exact Bool.noConfusion hc
    | succ t => exact ⟨t, rfl⟩
  have hst := (ho.inStep hs hno Banks.closed t).state_of_isColumn hm
  -- The latency.
  have h1 : (run p s inp (t + 1)).ctrl.state = .waitStates ∧
      (run p s inp (t + 1)).ctrl.waitStates = 2#14 ∧
      (run p s inp (t + 1)).ctrl.returnState = .casLatencyReadDone := by
    rw [ctrl_succ]
    simp only [M12Ctrl.next, hst]
    exact ⟨rfl, rfl, rfl⟩
  have h2 : (run p s inp (t + 2)).ctrl.state = .waitStates ∧
      (run p s inp (t + 2)).ctrl.waitStates = 1#14 ∧
      (run p s inp (t + 2)).ctrl.returnState = .casLatencyReadDone := by
    rw [ctrl_succ]
    simp [M12Ctrl.next, h1]
  have h3 : (run p s inp (t + 3)).ctrl.state = .casLatencyReadDone := by
    rw [ctrl_succ]
    simp [M12Ctrl.next, h2]
  have h4 : (run p s inp (t + 4)).ctrl.dout = (inp (t + 3)).sdramDq ∧
      (run p s inp (t + 4)).ctrl.state = .waitStates ∧
      (run p s inp (t + 4)).ctrl.returnState = .idle ∧
      (run p s inp (t + 4)).ctrl.updateReady = true := by
    rw [ctrl_succ]
    simp [M12Ctrl.next, h3, M12Ctrl.readDone, M12Ctrl.waitFor]
  have hlate : t + 4 ≤ n := by
    by_contra hlt
    have hidle := hs.state_of_ready n hr
    obtain rfl | rfl | rfl : n = t + 1 ∨ n = t + 2 ∨ n = t + 3 := by omega
    · rw [h1.1] at hidle
      exact M12State.noConfusion hidle
    · rw [h2.1] at hidle
      exact M12State.noConfusion hidle
    · rw [h3] at hidle
      exact M12State.noConfusion hidle
  -- The precharge.
  have hkeep : ∀ k, t + 4 ≤ k → k ≤ n → (run p s inp k).ctrl.dout = (inp (t + 3)).sdramDq ∧
      (k < n → (run p s inp k).ctrl.state = .waitStates ∧
        (run p s inp k).ctrl.returnState = .idle ∧
        (run p s inp k).ctrl.updateReady = true) := by
    intro k hk
    induction k, hk using Nat.le_induction with
    | base => exact fun _ => ⟨h4.1, fun _ => h4.2⟩
    | succ k hk ih =>
      intro hkn
      obtain ⟨hdout, hwait⟩ := ih (by omega)
      obtain ⟨hst, hret, hu⟩ := hwait (by omega)
      rw [ctrl_succ]
      by_cases hlast : (run p s inp k).ctrl.waitStates = 1#14
      · refine ⟨by simp [M12Ctrl.next, hst, hlast, hdout], fun hlt => ?_⟩
        have hnot := hnr (k + 1) (by omega) hlt
        rw [ready, ctrl_succ] at hnot
        simp [M12Ctrl.next, hst, hlast, hret, hu] at hnot
      · simp [M12Ctrl.next, hst, hlast, hdout, hret, hu]
  exact (hkeep n hlate le_rfl).1

/-- Without stores there is no `WRITE`. -/
theorem Orderly.no_write (n : ℕ) : (run p s inp n).ctrl.command ≠ .write := by
  intro hw
  have hcol : (command p s inp n).isColumn = true := by
    rw [command, M12Ctrl.isColumn_decode, hw]
    rfl
  cases n with
  | zero =>
    have hc := hs.ctrl.command
    rw [show s.ctrl.decode.isColumn = true from hcol] at hc
    exact Bool.noConfusion hc
  | succ n =>
    have hst := (ho.inStep hs hno Banks.closed n).state_of_isColumn hcol
    rw [ctrl_succ] at hw
    simp [M12Ctrl.next, hst, M12Ctrl.readColumn, M12Ctrl.waitFor] at hw

/-- Reads are served. -/
theorem Orderly.correct (d : Banks (BitVec 2) (BitVec 11)) : Correct p s inp d where
  column _ := ho.column_eq hs hno
  answered _ := ho.read_answered hs hno
  once _ := ho.read_once hs hno
  data _ _ hmn hm hnr hr _ := ho.read_data hs hno hmn hm hnr hr
  write n hw := absurd hw (ho.no_write hs hno n)

end

/-! ## Writes -/

section

variable (hs : s.IsReset) (ho : Orderly p s inp)

include hs ho

/-- A store reaches `S3`. -/
theorem Orderly.exists_s3 (hi : (inp n).isInstruction = false) (hv : (inp n).cpu.valid = true)
    (hm : (inp n).cpu.mask ≠ 0#4) :
    ∃ a, (inp a).isInstruction = false ∧ (run p s inp a).cache.dcache.state = .s3 := by
  have hh := ho.holds hs n
  cases hst : (run p s inp n).cache.dcache.state with
  | s1 => exact absurd (hh.read (.inl hst)) hm
  | s2 => exact absurd (hh.read (.inr hst)) hm
  | s3 => exact ⟨n, hi, hst⟩
  | s0 =>
    have hr : (run p s inp n).memSdramReady (inp n) = false := by
      simp [memSdramReady, Cache.cpuReady, hi, Dcache.cpuReady, hst]
    have hflush : (inp n).icacheFlush = false := by
      apply Bool.eq_false_of_not_eq_true
      intro hf
      rw [ho.flush n hf] at hv
      exact Bool.noConfusion hv
    refine ⟨n + 1, (ho.held n hv hr).2.trans hi, ?_⟩
    rw [cache_succ]
    cases hh : (run p s inp n).cache.dcache.cacheHit (inp n).cpu <;>
      simp [Cache.next, Dcache.next, Dcache.nextState, hst, Dcache.fetchValid, Dcache.inLookup,
        Dcache.wmaskQ, Cache.dcacheReq, hi, hv, hm, hflush]

/-- The controller starts on a write that waits. -/
theorem Orderly.exists_writing {a : ℕ} (hi : (inp a).isInstruction = false)
    (hst : (run p s inp a).cache.dcache.state = .s3) : ∃ j, (run p s inp j).ctrl.writing := by
  let W : ℕ → Prop := fun i => (inp i).isInstruction = false ∧
    (run p s inp i).cache.dcache.state = .s3
  have hstay : ∀ i, W i → ¬ (run p s inp i).ctrl.state = .idle → W (i + 1) := by
    rintro i ⟨hi, hst⟩ hidle
    have hr : ready p s inp i = false := Bool.eq_false_of_not_eq_true fun hr =>
      hidle (hs.state_of_ready i hr)
    have hreq : (request p s inp i).valid = true := by
      rw [request, Cache.request_valid_iff, hi]
      exact .inr hst
    have hready : (run p s inp i).memSdramReady (inp i) = false :=
      (Cache.cpuReady_of_request hreq).trans hr
    have hv := (ho.holds hs i).valid_of_request hreq
    refine ⟨(ho.held i hv hready).2.trans hi, ?_⟩
    rw [cache_succ, hr, ho.not_flush hs hreq]
    simp [Cache.next, Dcache.next, Dcache.nextState, hst]
  obtain ⟨j, -, ⟨hj, hjst⟩, hidle⟩ :=
    Sync.exists_of_wait hstay ⟨hi, hst⟩ (hs.exists_idle p inp a)
  -- The ready pulse, if there is one, does not keep the write from being accepted.
  have hh := ho.holds hs j
  rw [hj] at hh
  have hq : (run p s inp j).ramRequest (inp j) = (inp j).cpu := by
    rw [ramRequest, hj]
    exact hh.ramRequest_write hjst
  have hv : (inp j).cpu.valid = true := (hh.dcache (by simp [hjst])).1.valid
  have hm : (inp j).cpu.mask ≠ 0#4 := hh.write hjst
  refine ⟨j + 1, .inl ?_⟩
  rw [ctrl_succ, hq]
  simp [M12Ctrl.next, hidle, hv, hm, M12Ctrl.activate]

omit ho in
/-- A write that is under way comes to `WRITE`, with nothing on the data lines. -/
theorem IsReset.exists_write {j : ℕ} (h : (run p s inp j).ctrl.writing) :
    ∃ k, (run p s inp k).ctrl.command = .write ∧ ∀ q, (run p s inp k).ctrl.drive q = none := by
  by_contra hnone
  have hforever : ∀ k, j ≤ k → (run p s inp k).ctrl.writing := by
    intro k hk
    induction k, hk using Nat.le_induction with
    | base => exact h
    | succ k hk ih =>
      exact (M12Ctrl.writing_next ih).resolve_right fun hw => hnone ⟨k + 1, hw⟩
  obtain ⟨i, hji, hi⟩ := hs.exists_idle p inp j
  exact M12Ctrl.state_ne_idle_of_writing (hforever i hji) hi

theorem Orderly.not_correct (hi : (inp n).isInstruction = false) (hv : (inp n).cpu.valid = true)
    (hm : (inp n).cpu.mask ≠ 0#4) : ¬ Correct p s inp d := by
  intro hc
  obtain ⟨a, hai, hst⟩ := ho.exists_s3 hs hi hv hm
  obtain ⟨j, hj⟩ := ho.exists_writing hs hai hst
  obtain ⟨k, hcmd, hdrive⟩ := hs.exists_write hj
  obtain ⟨w, hw, -⟩ := hc.write k hcmd
  rw [hdrive] at hw
  exact absurd hw.symm (Option.some_ne_none w)

end

end M12System

/-- **The caches over the M12L64322A.**  In every run from reset in which accesses are held until
they are answered, the requests of the caches are served exactly once, at their place and with
their data, if and only if no access is a store. -/
theorem m12_serves_iff {iset iways dset dways : ℕ} {ipolicy : ReplacementPolicy iset iways}
    {dpolicy : ReplacementPolicy dset dways} {p : M12Params} {s : M12System ipolicy dpolicy}
    {inp : ℕ → M12In} (hs : s.IsReset) (ho : M12System.Orderly p s inp)
    (d : Banks (BitVec 2) (BitVec 11)) :
    M12System.Correct p s inp d ↔ M12System.NoStore inp := by
  refine ⟨fun hc n hi hv => ?_, fun hno => ho.correct hs hno d⟩
  by_contra hm
  exact ho.not_correct hs hi hv hm hc

/-- The default parameters of the controller. -/
def defaultM12Params : M12Params := ⟨64, 15, 60, 15, 2⟩

/-- The caches after reset, with cleared memories, over the controller as it is powered on. -/
def M12System.reset : M12System (lruFourWay 6) (lruFourWay 6) where
  cache := Soc.reset.cache
  ctrl := ⟨.reset, .reset, 0, false, false, 0, .mrs, false, 0, 0, 0⟩

theorem M12System.reset_isReset : M12System.reset.IsReset := ⟨rfl, rfl, rfl, rfl, rfl, rfl⟩

/-- One data access to the first word of the SDRAM, over and over. -/
def sameAccess (mask : BitVec 4) (_ : ℕ) : M12In :=
  ⟨false, ⟨true, 0x80000000#32, mask, 0x12345678#32⟩, false, 0⟩

theorem sameAccess_orderly (mask : BitVec 4) :
    M12System.Orderly defaultM12Params M12System.reset (sameAccess mask) :=
  ⟨fun _ _ _ => ⟨rfl, rfl⟩, fun _ hno => Bool.noConfusion hno⟩

/-- Loads are served. -/
theorem m12_serves_iff_loads :
    M12System.Correct defaultM12Params M12System.reset (sameAccess 0#4) Banks.closed :=
  (m12_serves_iff M12System.reset_isReset (sameAccess_orderly 0#4) Banks.closed).2
    fun _ _ _ => rfl

/-- A store is not. -/
theorem store_not_served :
    M12System.Orderly defaultM12Params M12System.reset (sameAccess 0xF#4) ∧
      ¬ M12System.Correct defaultM12Params M12System.reset (sameAccess 0xF#4) Banks.closed :=
  ⟨sameAccess_orderly 0xF#4, (sameAccess_orderly 0xF#4).not_correct (n := 0)
    M12System.reset_isReset rfl rfl (by decide)⟩

end KianRiscV
