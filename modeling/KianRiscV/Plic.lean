/-
# The interrupt controller

`plic.v` with the priority encoder of `design_elements_fpgacpu_ca.v`.  Both contexts have
the same registers, so everything is stated for a context `c`.

* `priorityEncoder_eq` : the encoder finds the lowest bit that is set;
* `getLsbD_pending_next` : what a clock edge does to one pending bit;
* `plic_keeps_requests_iff` : over every run, which requests are kept, what clears them and what
  the claim register and the interrupt output show.

A completion and the latching of requests exclude each other, for all sources of the context at
once: a request that comes only while another source is being completed is not kept.
-/
import KianRiscV.Cpu
import Mathlib.Order.Nat
import Mathlib.Data.Nat.Find

namespace KianRiscV

/-! ## The priority encoder -/

section PriorityEncoder

variable {w : ℕ}

/-- `Bitmask_Isolate_Rightmost_1_Bit`. -/
def isolateRightmost (x : BitVec w) : BitVec w := x &&& -x

/-- `Logarithm_of_Powers_of_Two`: the indices of the bits set, or-ed together. -/
def logarithmOfPowersOfTwo (x : BitVec w) : BitVec w :=
  (List.range w).foldl (fun acc i => acc ||| (if x.getLsbD i then BitVec.ofNat w i else 0#w)) 0#w

/-- `word_out` of `Priority_Encoder`. -/
def priorityEncoder (x : BitVec w) : BitVec w := logarithmOfPowersOfTwo (isolateRightmost x)

/-- Bit `k` is the lowest one set. -/
def IsLowest (x : BitVec w) (k : ℕ) : Prop :=
  x.getLsbD k = true ∧ ∀ j < k, x.getLsbD j = false

theorem getLsbD_isolateRightmost {x : BitVec w} {k : ℕ} :
    (isolateRightmost x).getLsbD k = true ↔ IsLowest x k := by
  rw [isolateRightmost, BitVec.getLsbD_and, BitVec.getLsbD_neg, IsLowest]
  cases hk : x.getLsbD k with
  | false => simp
  | true =>
    have hlt : k < w := BitVec.lt_of_getLsbD hk
    simp [hlt]

theorem IsLowest.unique {x : BitVec w} {j k : ℕ} (hj : IsLowest x j) (hk : IsLowest x k) :
    j = k := by
  rcases Nat.lt_trichotomy j k with h | h | h
  · exact absurd hj.1 (by rw [hk.2 j h]; decide)
  · exact h
  · exact absurd hk.1 (by rw [hj.2 k h]; decide)

/-- A word with a bit set has a lowest one. -/
theorem exists_isLowest {x : BitVec w} (hx : x ≠ 0#w) : ∃ k, IsLowest x k := by
  have hbit : ∃ k, x.getLsbD k = true := by
    by_contra hno
    apply hx
    apply BitVec.eq_of_getLsbD_eq
    intro k _
    rw [BitVec.getLsbD_zero]
    exact Bool.not_eq_true _ ▸ fun h => hno ⟨k, h⟩
  refine ⟨Nat.find hbit, Nat.find_spec hbit, ?_⟩
  intro j hj
  exact Bool.not_eq_true _ ▸ Nat.find_min hbit hj

/-- Or-ing words of which at most one is not zero. -/
theorem foldl_or_single {f : ℕ → BitVec w} {k : ℕ} (hf : ∀ j, j ≠ k → f j = 0#w) (l : List ℕ)
    (acc : BitVec w) :
    l.foldl (fun acc i => acc ||| f i) acc = if k ∈ l then acc ||| f k else acc := by
  induction l generalizing acc with
  | nil => rfl
  | cons a l ih =>
    rw [List.foldl_cons, ih]
    by_cases ha : a = k
    · subst ha
      by_cases hl : a ∈ l
      · simp [hl, BitVec.or_assoc]
      · simp [hl]
    · simp [hf a ha, Ne.symm ha]

/-- The encoder finds the lowest bit that is set. -/
theorem priorityEncoder_eq {x : BitVec w} {k : ℕ} (h : IsLowest x k) :
    priorityEncoder x = BitVec.ofNat w k := by
  have hk : k < w := BitVec.lt_of_getLsbD h.1
  have hother : ∀ j, j ≠ k →
      (if (isolateRightmost x).getLsbD j then BitVec.ofNat w j else 0#w) = 0#w := by
    intro j hj
    apply if_neg
    rw [getLsbD_isolateRightmost]
    exact fun hlow => hj (hlow.unique h)
  rw [priorityEncoder, logarithmOfPowersOfTwo, foldl_or_single hother,
    if_pos (List.mem_range.2 hk), if_pos (getLsbD_isolateRightmost.2 h), BitVec.zero_or]

theorem priorityEncoder_zero : priorityEncoder 0#w = 0#w := by
  have hnone : ∀ j, (if (isolateRightmost 0#w).getLsbD j then BitVec.ofNat w j else 0#w) = 0#w := by
    intro j
    apply if_neg
    rw [getLsbD_isolateRightmost]
    intro hlow
    exact absurd hlow.1 (by simp)
  rw [priorityEncoder, logarithmOfPowersOfTwo, foldl_or_single (k := 0) fun j _ => hnone j, hnone 0]
  simp

/-- The rightmost bit of an isolated bit is that bit. -/
theorem isLowest_isolateRightmost {x : BitVec w} {k : ℕ} :
    IsLowest (isolateRightmost x) k ↔ IsLowest x k := by
  constructor
  · intro h
    exact getLsbD_isolateRightmost.1 h.1
  · intro h
    refine ⟨getLsbD_isolateRightmost.2 h, ?_⟩
    intro j hj
    rw [Bool.eq_false_iff, Ne, getLsbD_isolateRightmost]
    exact fun hlow => absurd (hlow.unique h) hj.ne

end PriorityEncoder

/-! ## The model -/

/-- A context: machine mode and supervisor mode. -/
inductive PlicCtx
  | ctx0
  | ctx1
  deriving DecidableEq, Repr

/-- The address of `enable_ctx0_0_31` and `enable_ctx1_0_31`. -/
def PlicCtx.enableAddr : PlicCtx → BitVec 24
  | ctx0 => 0x002000#24
  | ctx1 => 0x002080#24

/-- The address of the claim and complete register. -/
def PlicCtx.claimCompleteAddr : PlicCtx → BitVec 24
  | ctx0 => 0x200004#24
  | ctx1 => 0x201004#24

/-- The registers of `plic`. -/
structure Plic where
  ready : Bool
  enable : PlicCtx → Word
  pending : PlicCtx → Word

/-- The bus and the request lines, of which line 0 does not exist. -/
structure PlicIn where
  valid : Bool
  addr : BitVec 24
  wmask : BitVec 4
  wdata : Word
  interruptRequest : BitVec 31

namespace PlicIn

variable (i : PlicIn) (c : PlicCtx)

/-- `irq_in`. -/
def irqIn : Word := i.interruptRequest ++ 0#1

/-- A write to the claim and complete register. -/
def isComplete : Bool := i.addr == c.claimCompleteAddr && i.wmask != 0 && i.valid

/-- The source a completion names, `wdata[7:0]`. -/
def completed : Option ℕ :=
  if i.isComplete c then some (i.wdata.extractLsb' 0 8).toNat else none

end PlicIn

namespace Plic

variable (s : Plic) (i : PlicIn) (c : PlicCtx)

/-- All registers zero. -/
def init : Plic where
  ready := false
  enable _ := 0
  pending _ := 0

/-- `is_valid`. -/
def isValid : Bool := !s.ready && i.valid

/-- One clock edge. -/
def next (resetn : Bool) : Plic :=
  if !resetn then init
  else
    { ready := s.isValid i
      enable := fun c =>
        if i.valid && i.addr == c.enableAddr then mergeBytes i.wmask (s.enable c) i.wdata
        else s.enable c
      pending := fun c =>
        if i.isComplete c then s.pending c &&& ~~~(1#32 <<< i.wdata.extractLsb' 0 8)
        else s.pending c ||| (i.irqIn &&& s.enable c) }

/-- `claim_ctx0` and `claim_ctx1`. -/
def claim : Word := priorityEncoder (s.pending c &&& -s.pending c)

/-- `rdata`. -/
def rdata : Word :=
  if i.addr == 0x001000#24 then s.pending .ctx0 ||| s.pending .ctx1
  else if i.addr == PlicCtx.ctx0.enableAddr then s.enable .ctx0
  else if i.addr == PlicCtx.ctx1.enableAddr then s.enable .ctx1
  else if i.addr == PlicCtx.ctx0.claimCompleteAddr then s.claim .ctx0
  else if i.addr == PlicCtx.ctx1.claimCompleteAddr then s.claim .ctx1
  else 0

/-- `interrupt_request_ctx0` and `interrupt_request_ctx1`. -/
def interruptRequest : Bool := s.pending c != 0

/-- The registers `n` cycles after the reset. -/
def after (inp : ℕ → PlicIn) (n : ℕ) : Plic := Sync.run (fun s i => s.next i true) init inp n

/-! ## One clock edge -/

variable {s i c}

/-- A completion clears the bit it names, every other cycle latches the enabled requests. -/
theorem getLsbD_pending_next {k : ℕ} (hk : k < 32) :
    ((s.next i true).pending c).getLsbD k
      = if i.isComplete c then (s.pending c).getLsbD k && !decide (i.completed c = some k)
        else (s.pending c).getLsbD k || (i.irqIn.getLsbD k && (s.enable c).getLsbD k) := by
  have hnext : (s.next i true).pending c
      = if i.isComplete c then s.pending c &&& ~~~(1#32 <<< i.wdata.extractLsb' 0 8)
        else s.pending c ||| (i.irqIn &&& s.enable c) := rfl
  rw [hnext]
  cases hc : i.isComplete c with
  | false => simp
  | true =>
    have hname : i.completed c = some (i.wdata.extractLsb' 0 8).toNat := by
      rw [PlicIn.completed, if_pos hc]
    have hbit : (1#32 <<< i.wdata.extractLsb' 0 8).getLsbD k
        = decide ((i.wdata.extractLsb' 0 8).toNat = k) := by
      rw [BitVec.shiftLeft_eq', BitVec.getLsbD_shiftLeft, BitVec.getLsbD_one]
      simp only [hk, decide_true, Bool.true_and]
      rw [Bool.eq_iff_iff]
      simp only [Bool.and_eq_true, Bool.not_eq_true', decide_eq_true_eq, decide_eq_false_iff_not]
      omega
    simp only [if_true, hname, Option.some_inj, BitVec.getLsbD_and, BitVec.getLsbD_not, hbit, hk,
      decide_true, Bool.true_and]

theorem getLsbD_irqIn_zero : i.irqIn.getLsbD 0 = false := by
  rw [PlicIn.irqIn, BitVec.getLsbD_append]
  rfl

/-- Source 0 is never pending. -/
theorem not_pending_zero (inp : ℕ → PlicIn) (n : ℕ) (c : PlicCtx) :
    ((after inp n).pending c).getLsbD 0 = false := by
  induction n with
  | zero => exact BitVec.getLsbD_zero
  | succ n ih =>
    have hstep : after inp (n + 1) = (after inp n).next (inp n) true := rfl
    rw [hstep, getLsbD_pending_next (by decide), ih, getLsbD_irqIn_zero]
    split <;> rfl

/-- The claim register names the lowest source pending. -/
theorem claim_eq {k : ℕ} (h : IsLowest (s.pending c) k) : s.claim c = BitVec.ofNat 32 k :=
  priorityEncoder_eq (isLowest_isolateRightmost.2 h)

theorem claim_of_pending_eq_zero (h : s.pending c = 0) : s.claim c = 0 := by
  rw [claim, h]
  exact priorityEncoder_zero

/-- With source 0 out of the way, a claim of zero says that nothing is pending. -/
theorem claim_eq_zero_iff (h0 : (s.pending c).getLsbD 0 = false) :
    s.claim c = 0 ↔ s.pending c = 0 := by
  constructor
  · intro hclaim
    by_contra hne
    obtain ⟨k, hk⟩ := exists_isLowest hne
    have hlt : k < 32 := BitVec.lt_of_getLsbD hk.1
    rw [claim_eq hk] at hclaim
    have hnat := congrArg BitVec.toNat hclaim
    rw [BitVec.toNat_ofNat, Nat.mod_eq_of_lt (by omega)] at hnat
    obtain rfl : k = 0 := hnat
    exact absurd hk.1 (by rw [h0]; decide)
  · exact claim_of_pending_eq_zero

/-- The sources whose claim is in the register. -/
theorem claim_eq_iff {k : ℕ} (hk : 1 ≤ k) (hk' : k ≤ 31) :
    s.claim c = BitVec.ofNat 32 k ↔ IsLowest (s.pending c) k := by
  constructor
  · intro hclaim
    have hne : s.pending c ≠ 0 := by
      intro hzero
      have hnat := congrArg BitVec.toNat (hclaim.symm.trans (claim_of_pending_eq_zero hzero))
      rw [BitVec.toNat_ofNat, Nat.mod_eq_of_lt (by omega)] at hnat
      exact absurd hnat (Nat.ne_of_gt hk)
    obtain ⟨j, hj⟩ := exists_isLowest hne
    have hlt : j < 32 := BitVec.lt_of_getLsbD hj.1
    have hnat := congrArg BitVec.toNat ((claim_eq hj).symm.trans hclaim)
    rw [BitVec.toNat_ofNat, BitVec.toNat_ofNat, Nat.mod_eq_of_lt (by omega),
      Nat.mod_eq_of_lt (by omega)] at hnat
    exact hnat ▸ hj
  · exact claim_eq

theorem pending_eq_zero_iff (h0 : (s.pending c).getLsbD 0 = false) :
    s.pending c = 0 ↔ ∀ k, 1 ≤ k → k ≤ 31 → (s.pending c).getLsbD k = false := by
  constructor
  · intro h k _ _
    rw [h]
    exact BitVec.getLsbD_zero
  · intro h
    apply BitVec.eq_of_getLsbD_eq
    intro k hk
    rcases Nat.eq_zero_or_pos k with rfl | hpos
    · rw [h0]
      exact BitVec.getLsbD_zero.symm
    · rw [h k hpos (by omega)]
      exact BitVec.getLsbD_zero.symm

theorem rdata_claim (h : i.addr = c.claimCompleteAddr) : s.rdata i = s.claim c := by
  cases c with
  | ctx0 => simp [rdata, h, PlicCtx.claimCompleteAddr, PlicCtx.enableAddr]
  | ctx1 => simp [rdata, h, PlicCtx.claimCompleteAddr, PlicCtx.enableAddr]

/-! ## Whole runs -/

/-- Line `k` is high and enabled, and the cycle does not complete it. -/
def Requests (s : Plic) (i : PlicIn) (c : PlicCtx) (k : ℕ) : Prop :=
  1 ≤ k ∧ k ≤ 31 ∧ i.irqIn.getLsbD k = true ∧ (s.enable c).getLsbD k = true ∧
    i.completed c ≠ some k

/-- Requests are latched, unless another source is being completed. -/
theorem pending_next_of_requests {k : ℕ} (h : s.Requests i c k) :
    ((s.next i true).pending c).getLsbD k = true ↔
      (i.isComplete c = true → (s.pending c).getLsbD k = true) := by
  obtain ⟨-, hk, hline, henable, hother⟩ := h
  rw [getLsbD_pending_next (by omega), hline, henable, decide_eq_false hother]
  cases i.isComplete c with
  | false => simp
  | true => simp

/-- Only the completion of a source clears it. -/
theorem completed_of_cleared {k : ℕ} (hk : k ≤ 31) (h : (s.pending c).getLsbD k = true)
    (h' : ((s.next i true).pending c).getLsbD k = false) : i.completed c = some k := by
  rw [getLsbD_pending_next (by omega), h] at h'
  by_contra hother
  rw [decide_eq_false hother] at h'
  cases hc : i.isComplete c with
  | false => simp [hc] at h'
  | true => simp [hc] at h'

/-- Line `k` was latched before cycle `n`: it was high and enabled in a cycle that completed nothing,
and it has not been completed since. -/
def Latched (inp : ℕ → PlicIn) (c : PlicCtx) (n k : ℕ) : Prop :=
  ∃ m < n, (inp m).isComplete c = false ∧ (inp m).irqIn.getLsbD k = true ∧
    ((after inp m).enable c).getLsbD k = true ∧ ∀ j, m < j → j < n → (inp j).completed c ≠ some k

theorem latched_succ_iff {inp : ℕ → PlicIn} {n k : ℕ} :
    Latched inp c (n + 1) k ↔
      ((inp n).isComplete c = false ∧ (inp n).irqIn.getLsbD k = true ∧
        ((after inp n).enable c).getLsbD k = true) ∨
      (Latched inp c n k ∧ (inp n).completed c ≠ some k) := by
  constructor
  · rintro ⟨m, hm, hquiet, hline, henable, hother⟩
    rcases Nat.lt_succ_iff_lt_or_eq.1 hm with hlt | rfl
    · exact .inr ⟨⟨m, hlt, hquiet, hline, henable, fun j hj hjn => hother j hj (by omega)⟩,
        hother n hlt n.lt_succ_self⟩
    · exact .inl ⟨hquiet, hline, henable⟩
  · rintro (⟨hquiet, hline, henable⟩ | ⟨⟨m, hm, hquiet, hline, henable, hother⟩, hn⟩)
    · exact ⟨n, n.lt_succ_self, hquiet, hline, henable, fun j hj hjn => by omega⟩
    · refine ⟨m, by omega, hquiet, hline, henable, fun j hj hjn => ?_⟩
      rcases Nat.lt_succ_iff_lt_or_eq.1 hjn with hlt | rfl
      · exact hother j hj hlt
      · exact hn

/-- The pending bits are the history of the lines and the completions. -/
theorem pending_iff_latched (inp : ℕ → PlicIn) (c : PlicCtx) {k : ℕ} (hk : k < 32) (n : ℕ) :
    ((after inp n).pending c).getLsbD k = true ↔ Latched inp c n k := by
  induction n with
  | zero =>
    refine iff_of_false ?_ ?_
    · show ¬ (0#32).getLsbD k = true
      rw [BitVec.getLsbD_zero]
      exact Bool.false_ne_true
    · rintro ⟨m, hm, -⟩
      omega
  | succ n ih =>
    have hstep : after inp (n + 1) = (after inp n).next (inp n) true := rfl
    rw [hstep, getLsbD_pending_next hk, latched_succ_iff, ← ih]
    cases hc : (inp n).isComplete c with
    | true => simp
    | false =>
      have hnone : (inp n).completed c = none := by simp [PlicIn.completed, hc]
      simp [hnone, or_comm]

/-- The requests of a cycle are kept exactly when it completes nothing or all of them have been
latched before. -/
theorem keeps_requests_iff (inp : ℕ → PlicIn) (c : PlicCtx) (n : ℕ) :
    (∀ k, (after inp n).Requests (inp n) c k →
        ((after inp (n + 1)).pending c).getLsbD k = true) ↔
      ((inp n).isComplete c = true →
        ∀ k, (after inp n).Requests (inp n) c k → Latched inp c n k) := by
  have hstep : after inp (n + 1) = (after inp n).next (inp n) true := rfl
  have hlatched : ∀ k, (after inp n).Requests (inp n) c k →
      (((after inp n).pending c).getLsbD k = true ↔ Latched inp c n k) :=
    fun k hk => pending_iff_latched inp c (Nat.lt_succ_of_le hk.2.1) n
  rw [hstep]
  constructor
  · intro h hc k hk
    exact (hlatched k hk).1 ((pending_next_of_requests hk).1 (h k hk) hc)
  · intro h k hk
    exact (pending_next_of_requests hk).2 fun hc => (hlatched k hk).2 (h hc k hk)

/-- In every cycle of every run, and so over every run, the requests of a context are kept exactly
when none of them comes first in a cycle that completes another source.  A pending source is cleared by its
completion alone, the claim register shows the lowest one pending, and the interrupt output is
high as long as there is one. -/
theorem plic_keeps_requests_iff (inp : ℕ → PlicIn) (c : PlicCtx) :
    ((∀ n k, (after inp n).Requests (inp n) c k →
        ((after inp (n + 1)).pending c).getLsbD k = true) ↔
      ∀ n, (inp n).isComplete c = true →
        ∀ k, (after inp n).Requests (inp n) c k → Latched inp c n k) ∧
    ∀ n,
      ((∀ k, (after inp n).Requests (inp n) c k →
          ((after inp (n + 1)).pending c).getLsbD k = true) ↔
        ((inp n).isComplete c = true →
          ∀ k, (after inp n).Requests (inp n) c k → Latched inp c n k)) ∧
      (∀ k, 1 ≤ k → k ≤ 31 → ((after inp n).pending c).getLsbD k = true →
        ((after inp (n + 1)).pending c).getLsbD k = false → (inp n).completed c = some k) ∧
      ((inp n).addr = c.claimCompleteAddr → (after inp n).rdata (inp n) = (after inp n).claim c) ∧
      (∀ k, 1 ≤ k → k ≤ 31 →
        ((after inp n).claim c = BitVec.ofNat 32 k ↔ IsLowest ((after inp n).pending c) k)) ∧
      ((after inp n).claim c = 0 ↔
        ∀ k, 1 ≤ k → k ≤ 31 → ((after inp n).pending c).getLsbD k = false) ∧
      ((after inp n).interruptRequest c = true ↔ (after inp n).claim c ≠ 0) := by
  refine ⟨forall_congr' fun n => keeps_requests_iff inp c n, fun n => ?_⟩
  have h0 := not_pending_zero inp n c
  refine ⟨keeps_requests_iff inp c n, ?_, rdata_claim, fun k hk hk' => claim_eq_iff hk hk', ?_, ?_⟩
  · intro k _ hk h h'
    exact completed_of_cleared hk h h'
  · rw [claim_eq_zero_iff h0, pending_eq_zero_iff h0]
  · rw [Ne, claim_eq_zero_iff h0]
    simp [interruptRequest]

/-- Sources 1 and 2 are enabled, source 1 becomes pending, and line 2 is high in the first of the
two cycles of the write that completes source 1. -/
def pulseWhileCompleting (n : ℕ) : PlicIn :=
  if n < 2 then ⟨true, 0x002000#24, 0xF#4, 0x00000006#32, 0⟩
  else if n = 2 then ⟨false, 0, 0, 0, 0b01⟩
  else if n = 3 then ⟨true, 0x200004#24, 0xF#4, 0x00000001#32, 0b10⟩
  else if n = 4 then ⟨true, 0x200004#24, 0xF#4, 0x00000001#32, 0⟩
  else ⟨false, 0, 0, 0, 0⟩

/-- The request of source 2 is lost. -/
theorem pulse_while_completing_lost :
    ¬ ∀ (inp : ℕ → PlicIn) (c : PlicCtx) (n k : ℕ), (after inp n).Requests (inp n) c k →
      ((after inp (n + 1)).pending c).getLsbD k = true := by
  intro h
  have hreq : (after pulseWhileCompleting 3).Requests (pulseWhileCompleting 3) .ctx0 2 := by
    refine ⟨by decide, by decide, ?_, ?_, ?_⟩ <;> decide +kernel
  have hlost : ((after pulseWhileCompleting 4).pending .ctx0).getLsbD 2 = false := by
    decide +kernel
  have hkept := h pulseWhileCompleting .ctx0 3 2 hreq
  rw [hlost] at hkept
  exact absurd hkept (by decide)

end Plic

end KianRiscV
