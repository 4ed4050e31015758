/-
# The transfers of the SPI controllers

A transfer is a sequence of half periods of the clock.  `Phase` is the state at the beginning of
one: with the clock low it ends with a bit sampled, with the clock high with the next bit put
out.  Eight low ones, and the high ones between them, get a byte through.

* `Spi.exists_through` : a write accepted in `S_IDLE` gets its eight bits through;
* `Spi.Through.transfers` : if no write comes in the last cycle, the controller returns to
  `S_IDLE` with the byte received;
* `Spi.works_iff` : the controllers do what they are for exactly in the runs without such a
  write.
-/
import KianRiscV.Spi

namespace KianRiscV

namespace Spi

/-! ## Half a period -/

section

variable {v : SpiVersion} {cpol : Bool} {R : ℕ → Spi} {inp : ℕ → SpiIn} {d : BitVec 16} {m : ℕ}

/-- The divisor does not change during a transfer. -/
def Steady (R : ℕ → Spi) (inp : ℕ → SpiIn) : Prop :=
  ∀ n, (R n).inXfer = true → (R (n + 1)).inXfer = true → (inp (n + 1)).div = (inp n).div

/-- Half a period begins: the divider is at zero, or is not used. -/
def Aligned (v : SpiVersion) (d : BitVec 16) (s : Spi) : Prop :=
  v = .first ∧ d = 0#16 ∨ s.tickCnt = 0#18

theorem Same.refl (s : Spi) : Same s s := ⟨rfl, rfl, rfl, rfl, rfl⟩

theorem Same.trans {s s' s'' : Spi} (h : Same s s') (h' : Same s' s'') : Same s s'' :=
  ⟨h'.state.trans h.state, h'.count.trans h.count, h'.buf.trans h.buf, h'.sclk.trans h.sclk,
    h'.mosi.trans h.mosi⟩

theorem Same.inXfer {s s' : Spi} (h : Same s s') : s'.inXfer = s.inXfer := by
  rw [Spi.inXfer, Spi.inXfer, h.count]

theorem next_aligned (cpol : Bool) {s : Spi} {i : SpiIn} (hx : s.inXfer = true)
    (ht : s.toggles v i = true) :
    Aligned v i.div (s.next v cpol i) := by
  by_cases h : v = .second ∨ i.div ≠ 0#16
  · right
    have htick : s.tick v i = true := (tick_iff h).2 ((toggles_iff hx h).1 ht)
    simp [next, htick]
  · left
    push Not at h
    refine ⟨?_, h.2⟩
    cases v with
    | first => rfl
    | second => exact absurd rfl h.1

variable (hR : ∀ n, R (n + 1) = (R n).next v cpol (inp n)) (hdiv : Steady R inp)

include hR hdiv

/-- The cycles of half a period are alike, and the last one toggles the clock. -/
theorem run_half (hs : (R m).state = .xfer) (hx : (R m).inXfer = true) (hd : (inp m).div = d)
    (ha : Aligned v d (R m)) {r : ℕ} (hr : r < half d) :
    Same (R m) (R (m + r)) ∧ (inp (m + r)).div = d ∧
      ((R (m + r)).toggles v (inp (m + r)) = true ↔ r + 1 = half d) := by
  by_cases hzero : v = .first ∧ d = 0#16
  · obtain ⟨rfl, rfl⟩ := hzero
    have hone : half 0#16 = 1 := rfl
    obtain rfl : r = 0 := by omega
    refine ⟨Same.refl _, hd, ?_⟩
    simp [toggles_of_zero hx hd, hone]
  -- otherwise the counter runs from zero to the divisor and restarts with the toggle
  · have hver : v = .second ∨ d ≠ 0#16 := by
      cases v with
      | first => exact .inr fun h => hzero ⟨rfl, h⟩
      | second => exact .inl rfl
    have hlt := d.isLt
    have hle : half d < 2 ^ 16 := by
      rw [half]
      omega
    have hcount : ∀ r < half d, Same (R m) (R (m + r)) ∧ (inp (m + r)).div = d ∧
        (R (m + r)).tickCnt.toNat = r := by
      intro r
      induction r with
      | zero =>
        intro _
        refine ⟨Same.refl _, hd, ?_⟩
        rcases ha with h | h
        · exact absurd h hzero
        · rw [Nat.add_zero, h]
          rfl
      | succ r ih =>
        intro hr
        obtain ⟨hsame, hdr, htick⟩ := ih (by omega)
        have hxr : (R (m + r)).inXfer = true := hsame.inXfer.trans hx
        have hno : (R (m + r)).toggles v (inp (m + r)) = false := by
          rw [Bool.eq_false_iff, Ne, toggles_iff hxr (hdr ▸ hver), htick, hdr]
          omega
        obtain ⟨hsame', htick'⟩ := next_wait cpol (hsame.state.trans hs) hxr hno
        rw [← hR] at hsame' htick'
        have hsame'' : Same (R m) (R (m + (r + 1))) := hsame.trans hsame'
        refine ⟨hsame'', ?_, ?_⟩
        · rw [← hdr]
          exact hdiv (m + r) hxr (hsame''.inXfer.trans hx)
        · rw [← Nat.add_assoc, htick', BitVec.toNat_add, htick, BitVec.toNat_ofNat]
          omega
    obtain ⟨hsame, hdr, htick⟩ := hcount r hr
    refine ⟨hsame, hdr, ?_⟩
    rw [toggles_iff (hsame.inXfer.trans hx) (hdr ▸ hver), htick, hdr]

end

/-! ## A transfer -/

section

variable {v : SpiVersion} {cpol : Bool} {R : ℕ → Spi} {inp : ℕ → SpiIn} {d : BitVec 16}
  {b : BitVec 8} {bit : ℕ → Bool} {k m : ℕ} {lvl : Bool}

/-- After `k` bits of the byte `b`: the bits received follow what is left of the byte. -/
structure Loaded (b : BitVec 8) (bit : ℕ → Bool) (k : ℕ) (s : Spi) : Prop where
  state : s.state = .xfer
  count : s.xferCycles.toNat + k = 8
  buf : ∀ j < 8, s.spiBuf.getLsbD j = if j < k then bit (k - 1 - j) else b.getLsbD (j - k)

theorem Loaded.inXfer_iff {s : Spi} (h : Loaded b bit k s) : s.inXfer = true ↔ k < 8 := by
  have hcount := h.count
  rw [inXfer, bne_iff_ne, Ne, ← BitVec.toNat_inj]
  simp only [BitVec.toNat_ofNat]
  omega

theorem Loaded.congr {s s' : Spi} (h : Loaded b bit k s) (hsame : Same s s') :
    Loaded b bit k s' := by
  refine ⟨hsame.state.trans h.state, ?_, ?_⟩
  · rw [hsame.count]
    exact h.count
  · rw [hsame.buf]
    exact h.buf

/-- The edge on which the clock rises takes in the next bit. -/
theorem Loaded.rise {s : Spi} {i : SpiIn} (h : Loaded b bit k s) (hk : k < 8)
    (ht : s.toggles v i = true) (hc : s.sclk = false) (hbit : bit k = i.miso) :
    Loaded b bit (k + 1) (s.next v cpol i) := by
  obtain ⟨hs, hcount, hbuf, -, -⟩ :=
    next_rise cpol h.state (h.inXfer_iff.2 hk) ht hc
  have hold := h.count
  refine ⟨hs, ?_, ?_⟩
  · rw [hcount]
    bv_omega
  · intro j hj
    rw [hbuf, BitVec.getLsbD_append]
    rcases Nat.eq_zero_or_pos j with rfl | hpos
    · simp [hbit]
    · rw [if_neg (by omega), BitVec.getLsbD_extractLsb', decide_eq_true (by omega), Bool.true_and,
        Nat.zero_add, h.buf (j - 1) (by omega)]
      by_cases hjk : j - 1 < k
      · rw [if_pos hjk, if_pos (by omega), show k + 1 - 1 - j = k - 1 - (j - 1) by omega]
      · rw [if_neg hjk, if_neg (by omega), show j - (k + 1) = j - 1 - k by omega]

/-- Half a period begins after `k` bits, with the clock at `lvl`. -/
structure Phase (v : SpiVersion) (d : BitVec 16) (b : BitVec 8) (bit : ℕ → Bool)
    (inp : ℕ → SpiIn) (R : ℕ → Spi) (k : ℕ) (lvl : Bool) (m : ℕ) : Prop where
  loaded : Loaded b bit k (R m)
  sclk : (R m).sclk = lvl
  aligned : Aligned v d (R m)
  div : (inp m).div = d

theorem half_pos (d : BitVec 16) : 1 ≤ half d := Nat.le_max_left 1 _

variable (hR : ∀ n, R (n + 1) = (R n).next v cpol (inp n)) (hdiv : Steady R inp)

include hR hdiv

theorem Phase.same (h : Phase v d b bit inp R k lvl m) (hk : k < 8) {n : ℕ} (hmn : m ≤ n)
    (hn : n < m + half d) :
    Same (R m) (R n) ∧ (inp n).div = d ∧
      ((R n).toggles v (inp n) = true ↔ n + 1 = m + half d) := by
  obtain ⟨r, rfl⟩ := Nat.exists_eq_add_of_le hmn
  have hrun := run_half hR hdiv h.loaded.state (h.loaded.inXfer_iff.2 hk) h.div h.aligned
    (r := r) (by omega)
  refine ⟨hrun.1, hrun.2.1, ?_⟩
  rw [hrun.2.2]
  omega

/-- The last cycle of half a period. -/
theorem Phase.last (h : Phase v d b bit inp R k lvl m) (hk : k < 8) {n : ℕ}
    (hn : n + 1 = m + half d) :
    Loaded b bit k (R n) ∧ (R n).sclk = lvl ∧ (R n).toggles v (inp n) = true ∧
      Aligned v d (R (n + 1)) ∧ ((R (n + 1)).inXfer = true → (inp (n + 1)).div = d) := by
  have hpos := half_pos d
  obtain ⟨hsame, hd, ht⟩ := h.same hR hdiv hk (n := n) (by omega) (by omega)
  have hload := h.loaded.congr hsame
  have hx := hload.inXfer_iff.2 hk
  refine ⟨hload, hsame.sclk.trans h.sclk, ht.2 hn, ?_, fun hx' => ?_⟩
  · have hnext := next_aligned cpol hx (ht.2 hn)
    rw [hd, ← hR] at hnext
    exact hnext
  · rw [hdiv n hx hx', hd]

/-- The clock is low and rises. -/
theorem Phase.low (h : Phase v d b bit inp R k false m) (hk : k < 8) {n : ℕ}
    (hn : n + 1 = m + half d) (hbit : bit k = (inp n).miso) :
    Loaded b bit (k + 1) (R (n + 1)) ∧ (R (n + 1)).sclk = true ∧
      (k < 7 → Phase v d b bit inp R (k + 1) true (n + 1)) := by
  obtain ⟨hload, hlow, htog, hal, hd⟩ := h.last hR hdiv hk hn
  have hload' : Loaded b bit (k + 1) (R (n + 1)) := by
    rw [hR]
    exact hload.rise hk htog hlow hbit
  have hclk : (R (n + 1)).sclk = true := by
    rw [hR]
    exact (next_rise cpol hload.state (hload.inXfer_iff.2 hk) htog hlow).2.2.2.1
  exact ⟨hload', hclk, fun hk7 => ⟨hload', hclk, hal, hd (hload'.inXfer_iff.2 (by omega))⟩⟩

/-- The clock is high and falls. -/
theorem Phase.high (h : Phase v d b bit inp R k true m) (hk : k < 8) {n : ℕ}
    (hn : n + 1 = m + half d) :
    Phase v d b bit inp R k false (n + 1) ∧ (R (n + 1)).mosi = b.getLsbD (7 - k) := by
  obtain ⟨hload, hhigh, htog, hal, hd⟩ := h.last hR hdiv hk hn
  obtain ⟨hs, hcount, hbuf, hclk, hmosi⟩ :=
    next_fall cpol hload.state (hload.inXfer_iff.2 hk) htog hhigh
  rw [← hR] at hs hcount hbuf hclk hmosi
  have hload' : Loaded b bit k (R (n + 1)) := by
    refine ⟨hs, ?_, ?_⟩
    · rw [hcount]
      exact hload.count
    · rw [hbuf]
      exact hload.buf
  refine ⟨⟨hload', hclk, hal, hd (hload'.inXfer_iff.2 hk)⟩, ?_⟩
  rw [hmosi, hload.buf 7 (by decide), if_neg (by omega)]

/-- The clock rises with the edge after cycle `n`. -/
def Rises (R : ℕ → Spi) (n : ℕ) : Prop := (R n).sclk = false ∧ (R (n + 1)).sclk = true

/-- In half a period with the clock low, it rises at the end only. -/
theorem Phase.rises_iff (h : Phase v d b bit inp R k false m) (hk : k < 8)
    (hbit : bit k = (inp (m + (half d - 1))).miso) {n : ℕ} (hmn : m ≤ n) (hn : n < m + half d) :
    Rises R n ↔ n = m + (half d - 1) := by
  have hpos := half_pos d
  by_cases hlast : n + 1 = m + half d
  · obtain rfl : n = m + (half d - 1) := by omega
    obtain ⟨-, hlow, -⟩ := h.last hR hdiv hk hlast
    obtain ⟨-, hhigh, -⟩ := h.low hR hdiv hk hlast hbit
    exact iff_of_true ⟨hlow, hhigh⟩ rfl
  · have hnext := (h.same hR hdiv hk (n := n + 1) (by omega) (by omega)).1.sclk.trans h.sclk
    refine iff_of_false (fun hrise => ?_) (by omega)
    rw [hrise.2] at hnext
    cases hnext

/-- In half a period with the clock high, it does not rise. -/
theorem Phase.not_rises (h : Phase v d b bit inp R k true m) (hk : k < 8) {n : ℕ} (hmn : m ≤ n)
    (hn : n < m + half d) : ¬ Rises R n := by
  have hhigh := (h.same hR hdiv hk hmn hn).1.sclk.trans h.sclk
  intro hrise
  rw [hrise.1] at hhigh
  cases hhigh

/-- The cycles in which the clock rises, if the first half period with the clock low begins in
cycle `m`. -/
def riseAt (m : ℕ) (d : BitVec 16) (j : ℕ) : ℕ := m + j * (2 * half d) + (half d - 1)

omit hR hdiv in
theorem riseAt_lt (m : ℕ) (d : BitVec 16) {j k : ℕ} (h : j < k) :
    riseAt m d j < m + k * (2 * half d) := by
  have hpos := half_pos d
  have hle : (j + 1) * (2 * half d) ≤ k * (2 * half d) := Nat.mul_le_mul_right _ h
  rw [Nat.succ_mul] at hle
  rw [riseAt]
  omega

/-- What has happened from cycle `m` to the low phase of bit `k`. -/
structure Pulsed (v : SpiVersion) (d : BitVec 16) (b : BitVec 8) (inp : ℕ → SpiIn) (R : ℕ → Spi)
    (m k n : ℕ) : Prop where
  busy : ∀ l, m ≤ l → l < n → (R l).inXfer = true ∧ (R l).state = .xfer
  rises : ∀ l, m ≤ l → l < n → (Rises R l ↔ ∃ j < k, l = riseAt m d j)
  mosi : ∀ j < k, (R (riseAt m d j)).mosi = b.getLsbD (7 - j)

/-- One low phase more. -/
theorem Phase.pulse (h : Phase v d b (fun j => (inp (riseAt m d j)).miso) inp R k false
      (m + k * (2 * half d))) (hk : k < 8)
    (hmosi : (R (m + k * (2 * half d))).mosi = b.getLsbD (7 - k))
    (hp : Pulsed v d b inp R m k (m + k * (2 * half d))) :
    Pulsed v d b inp R m (k + 1) (m + k * (2 * half d) + half d) := by
  have hpos := half_pos d
  have hsame := fun l hl hl' => (h.same hR hdiv hk (n := l) hl hl').1
  -- what is new is the half itself, with its one rising edge in its last cycle
  refine ⟨fun l hl hl' => ?_, fun l hl hl' => ?_, fun j hj => ?_⟩
  · by_cases hlt : l < m + k * (2 * half d)
    · exact hp.busy l hl hlt
    · have hload := h.loaded.congr (hsame l (by omega) hl')
      exact ⟨hload.inXfer_iff.2 hk, hload.state⟩
  · by_cases hlt : l < m + k * (2 * half d)
    · rw [hp.rises l hl hlt]
      constructor
      · rintro ⟨j, hj, rfl⟩
        exact ⟨j, by omega, rfl⟩
      · rintro ⟨j, hj, rfl⟩
        rcases Nat.lt_succ_iff_lt_or_eq.1 hj with hj | rfl
        · exact ⟨j, hj, rfl⟩
        · rw [riseAt] at hlt
          omega
    · rw [h.rises_iff hR hdiv hk rfl (by omega) hl']
      constructor
      · rintro rfl
        exact ⟨k, Nat.lt_succ_self k, rfl⟩
      · rintro ⟨j, hj, rfl⟩
        rcases Nat.lt_succ_iff_lt_or_eq.1 hj with hj | rfl
        · exact absurd (riseAt_lt m d hj) hlt
        · rfl
  · rcases Nat.lt_succ_iff_lt_or_eq.1 hj with hj | rfl
    · exact hp.mosi j hj
    · rw [← hmosi]
      exact (hsame _ (by rw [riseAt]; omega) (by rw [riseAt]; omega)).mosi

/-- Up to the last low phase, bit by bit. -/
theorem Phase.pulses (h : Phase v d b (fun j => (inp (riseAt m d j)).miso) inp R 0 false m)
    (hmosi : (R m).mosi = b.getLsbD 7) (hk : k ≤ 7) :
    Phase v d b (fun j => (inp (riseAt m d j)).miso) inp R k false (m + k * (2 * half d)) ∧
      (R (m + k * (2 * half d))).mosi = b.getLsbD (7 - k) ∧
      Pulsed v d b inp R m k (m + k * (2 * half d)) := by
  induction k with
  | zero =>
    rw [Nat.zero_mul, Nat.add_zero]
    refine ⟨h, hmosi, fun l hl hl' => by omega, fun l hl hl' => by omega, fun j hj => by omega⟩
  | succ k ih =>
    have hpos := half_pos d
    obtain ⟨hlow, hm, hp⟩ := ih (by omega)
    -- a low half with its rising edge, and the high half that puts out the next bit
    have hp' := hlow.pulse hR hdiv (by omega) hm hp
    obtain ⟨-, -, hhigh⟩ := hlow.low hR hdiv (by omega)
      (n := riseAt m d k) (by rw [riseAt]; omega) rfl
    have hhigh := hhigh (by omega)
    rw [show riseAt m d k + 1 = m + k * (2 * half d) + half d by rw [riseAt]; omega] at hhigh
    obtain ⟨hlow', hm'⟩ := hhigh.high hR hdiv (by omega)
      (n := m + k * (2 * half d) + half d + (half d - 1)) (by omega)
    have hend : m + k * (2 * half d) + half d + (half d - 1) + 1 = m + (k + 1) * (2 * half d) := by
      rw [Nat.succ_mul k]
      omega
    rw [hend] at hlow' hm'
    refine ⟨hlow', hm', fun l hl hl' => ?_, fun l hl hl' => ?_, hp'.mosi⟩
    · by_cases hlt : l < m + k * (2 * half d) + half d
      · exact hp'.busy l hl hlt
      · have hsame := (hhigh.same hR hdiv (by omega) (n := l) (by omega) (by omega)).1
        have hload := hhigh.loaded.congr hsame
        exact ⟨hload.inXfer_iff.2 (by omega), hload.state⟩
    · by_cases hlt : l < m + k * (2 * half d) + half d
      · exact hp'.rises l hl hlt
      · -- The clock is high, and what has been counted is over.
        refine iff_of_false (hhigh.not_rises hR hdiv (by omega) (by omega) (by omega)) ?_
        rintro ⟨j, hj, rfl⟩
        rcases Nat.lt_succ_iff_lt_or_eq.1 hj with hj | rfl
        · have := riseAt_lt m d hj
          omega
        · rw [riseAt] at hlt
          omega

end

/-! ## From the write to the end -/

section

variable {v : SpiVersion} {cpol : Bool} {R : ℕ → Spi} {inp : ℕ → SpiIn} {t n : ℕ}

/-- A data write is on the bus in the last cycle of a transfer. -/
def Clash (R : ℕ → Spi) (inp : ℕ → SpiIn) (n : ℕ) : Prop :=
  (inp n).offers = true ∧ (R n).state = .xfer ∧ (R n).inXfer = false

/-- What the write accepted in cycle `t` does until it ends in cycle `e`: the clock rises in the
cycles `c 0` to `c 7` and in no other, with the bits of the byte on `mosi`; the bits on `miso`
are in `rx_data` at the end, when the controller is idle and not busy. -/
structure Transfers (cpol : Bool) (inp : ℕ → SpiIn) (R : ℕ → Spi) (t e : ℕ) (c : ℕ → ℕ) :
    Prop where
  order : (∀ j < 8, t < c j ∧ c j < e) ∧ ∀ j < 7, c j < c (j + 1)
  start : (R (t + 1)).sclk = cpol
  rises : ∀ n, t < n → n ≤ e → (Rises R n ↔ ∃ j < 8, n = c j)
  stop : (R (e + 1)).sclk = cpol
  busy : ∀ n, t < n → n < e → (R n).state = .xfer
  mosi : ∀ j < 8, (R (c j)).mosi = (inp t).wdata.getLsbD (7 - j)
  received : ∀ j, (R e).rxData.getLsbD j = if j < 8 then (inp (c (7 - j))).miso else false
  idle : (R e).state = .idle ∧ (R e).inXfer = false

variable (hR : ∀ n, R (n + 1) = (R n).next v cpol (inp n)) (hdiv : Steady R inp)

include hR

/-- A write in `S_IDLE` loads the byte. -/
theorem loaded_of_write (hs : (R t).state = .idle) (hw : (R t).dataWrite (inp t) = true)
    (bit : ℕ → Bool) :
    Phase v (inp (t + 1)).div ((inp t).wdata.extractLsb' 0 8) bit inp R 0 cpol (t + 1) ∧
      (R (t + 1)).mosi = (inp t).wdata.getLsbD 7 := by
  obtain ⟨hst, hcount, hbuf, hmosi, htick⟩ := next_write v cpol hs hw
  have hclk := next_sclk_of_idle v cpol (i := inp t) hs
  rw [← hR] at hst hcount hbuf hmosi htick hclk
  refine ⟨⟨⟨hst, ?_, ?_⟩, hclk, .inr htick, rfl⟩, hmosi⟩
  · rw [hcount]
    rfl
  · intro j hj
    rw [hbuf, if_neg (by omega)]
    rfl

include hdiv

/-- The low phase of the first bit begins with the transfer, or half a period later. -/
theorem first_low (hs : (R t).state = .idle) (hw : (R t).dataWrite (inp t) = true) :
    ∃ m, t < m ∧ (∀ bit, Phase v (inp (t + 1)).div ((inp t).wdata.extractLsb' 0 8) bit inp R 0
        false m) ∧ (R m).mosi = (inp t).wdata.getLsbD 7 ∧
      ∀ n, t < n → n < m → ((R n).inXfer = true ∧ (R n).state = .xfer) ∧ ¬ Rises R n := by
  have hpos := half_pos (inp (t + 1)).div
  cases hc : cpol with
  | false =>
    subst hc
    refine ⟨t + 1, Nat.lt_succ_self t, fun bit => (loaded_of_write hR hs hw bit).1,
      (loaded_of_write hR hs hw fun _ => false).2, fun n hn hn' => by omega⟩
  | true =>
    subst hc
    have hhigh := fun bit => (loaded_of_write hR hs hw bit).1
    have hn : t + half (inp (t + 1)).div + 1 = t + 1 + half (inp (t + 1)).div := by omega
    refine ⟨t + half (inp (t + 1)).div + 1, by omega,
      fun bit => ((hhigh bit).high hR hdiv (by decide) hn).1, ?_, fun n hn' hn'' => ⟨?_, ?_⟩⟩
    · rw [((hhigh fun _ => false).high hR hdiv (by decide) hn).2]
      simp
    · have hsame := ((hhigh fun _ => false).same hR hdiv (by decide) (n := n) (by omega)
        (by omega)).1
      have hload := (hhigh fun _ => false).loaded.congr hsame
      exact ⟨hload.inXfer_iff.2 (by decide), hload.state⟩
    · exact (hhigh fun _ => false).not_rises hR hdiv (by decide) (by omega) (by omega)

/-- The bits of a transfer are through in cycle `z`. -/
structure Through (inp : ℕ → SpiIn) (R : ℕ → Spi) (t z : ℕ) (c : ℕ → ℕ) : Prop where
  order : (∀ j < 8, t < c j ∧ c j < z) ∧ ∀ j < 7, c j < c (j + 1)
  busy : ∀ n, t < n → n < z → (R n).inXfer = true ∧ (R n).state = .xfer
  rises : ∀ n, t < n → n < z → (Rises R n ↔ ∃ j < 8, n = c j)
  mosi : ∀ j < 8, (R (c j)).mosi = (inp t).wdata.getLsbD (7 - j)
  loaded : Loaded ((inp t).wdata.extractLsb' 0 8) (fun j => (inp (c j)).miso) 8 (R z)
  sclk : (R z).sclk = true

/-- A write accepted in `S_IDLE` gets its eight bits through, whatever comes on the bus. -/
theorem exists_through (hs : (R t).state = .idle) (hw : (R t).dataWrite (inp t) = true) :
    ∃ z c, t < z ∧ Through inp R t z c := by
  obtain ⟨m, htm, hlow, hmosi, hbefore⟩ := first_low hR hdiv hs hw
  have hpos := half_pos (inp (t + 1)).div
  have hbyte : ∀ j < 8, ((inp t).wdata.extractLsb' 0 8).getLsbD j = (inp t).wdata.getLsbD j := by
    intro j hj
    rw [BitVec.getLsbD_extractLsb', decide_eq_true hj, Bool.true_and, Nat.zero_add]
  -- seven pulses, the last low half behind them, and its rising edge
  have hlast := (hlow fun j => (inp (riseAt m (inp (t + 1)).div j)).miso).pulses hR hdiv
    (by rw [hmosi, hbyte 7 (by decide)]) (le_refl 7)
  obtain ⟨hlow7, hmosi7, hp⟩ := hlast
  have hp8 := hlow7.pulse hR hdiv (by decide) hmosi7 hp
  obtain ⟨hload, hclk, -⟩ := hlow7.low hR hdiv (by decide)
    (n := riseAt m (inp (t + 1)).div 7) (by rw [riseAt]; omega) rfl
  have hz : riseAt m (inp (t + 1)).div 7 + 1
      = m + 7 * (2 * half (inp (t + 1)).div) + half (inp (t + 1)).div := by
    rw [riseAt]
    omega
  rw [hz] at hload hclk
  have hc : ∀ j, riseAt m (inp (t + 1)).div j
      = m + j * (2 * half (inp (t + 1)).div) + (half (inp (t + 1)).div - 1) := fun _ => rfl
  refine ⟨_, riseAt m (inp (t + 1)).div, ?_, ⟨⟨fun j hj => ?_, fun j hj => ?_⟩, fun n hn hn' => ?_,
    fun n hn hn' => ?_, fun j hj => ?_, hload, hclk⟩⟩
  · omega
  · have hle : riseAt m (inp (t + 1)).div j < m + 8 * (2 * half (inp (t + 1)).div) :=
      riseAt_lt m _ hj
    have hmul : j * (2 * half (inp (t + 1)).div) ≤ 7 * (2 * half (inp (t + 1)).div) :=
      Nat.mul_le_mul_right _ (by omega)
    rw [hc] at hle ⊢
    omega
  · have hlt := riseAt_lt m (inp (t + 1)).div (show j < j + 1 by omega)
    rw [hc (j + 1)]
    omega
  · by_cases hlt : n < m
    · exact (hbefore n hn hlt).1
    · exact hp8.busy n (by omega) hn'
  · by_cases hlt : n < m
    · refine iff_of_false (hbefore n hn hlt).2 ?_
      rintro ⟨j, -, rfl⟩
      rw [hc] at hlt
      omega
    · exact hp8.rises n (by omega) hn'
  · rw [hp8.mosi j hj, hbyte (7 - j) (by omega)]

omit hdiv in
/-- Without a clash at its end the transfer is complete. -/
theorem Through.transfers {z : ℕ} {c : ℕ → ℕ} (h : Through inp R t z c)
    (hs : (R t).state = .idle) (hno : ¬ Clash R inp z) :
    Transfers cpol inp R t (z + 1) c := by
  have hx : (R z).inXfer = false := by
    rw [Bool.eq_false_iff, Ne, h.loaded.inXfer_iff]
    omega
  have ho : (inp z).offers = false := by
    rw [Bool.eq_false_iff]
    exact fun ho => hno ⟨ho, h.loaded.state, hx⟩
  obtain ⟨hst, hcount, hrx, hclk⟩ := next_done v cpol h.loaded.state hx ho
  rw [← hR] at hst hcount hrx hclk
  have hstop : (R (z + 1 + 1)).sclk = cpol := by
    rw [hR]
    exact next_sclk_of_idle v cpol hst
  constructor
  case order => exact ⟨fun j hj => ⟨(h.order.1 j hj).1, by have := (h.order.1 j hj).2; omega⟩,
    h.order.2⟩
  case start =>
    rw [hR]
    exact next_sclk_of_idle v cpol hs
  case rises =>
    intro n hn hn'
    by_cases hlt : n < z
    · exact h.rises n hn hlt
    · -- The clock only returns to its idle level.
      have hno : ¬ ∃ j < 8, n = c j := by
        rintro ⟨j, hj, rfl⟩
        exact hlt (h.order.1 j hj).2
      refine iff_of_false (fun hrise => ?_) hno
      obtain rfl | rfl : n = z ∨ n = z + 1 := by omega
      · rw [Rises, h.sclk] at hrise
        exact absurd hrise.1 (by decide)
      · rw [Rises, hstop] at hrise
        rcases hclk with hclk | hclk
        · rw [hclk, h.sclk] at hrise
          exact absurd hrise.1 (by decide)
        · rw [hclk] at hrise
          rw [hrise.1] at hrise
          exact absurd hrise.2 (by decide)
  case stop => exact hstop
  case busy =>
    intro n hn hn'
    by_cases hlt : n < z
    · exact (h.busy n hn hlt).2
    · obtain rfl : n = z := by omega
      exact h.loaded.state
  case mosi => exact h.mosi
  case received =>
    intro j
    rw [hrx, BitVec.getLsbD_append]
    by_cases hj : j < 8
    · rw [if_pos hj, if_pos hj, h.loaded.buf j hj, if_pos hj]
    · rw [if_neg hj, if_neg hj]
      exact BitVec.getLsbD_zero
  case idle =>
    refine ⟨hst, ?_⟩
    rw [inXfer, hcount]
    exact hx

end

/-! ## Whole runs -/

section

variable {v : SpiVersion} {cpol : Bool} {R : ℕ → Spi} {inp : ℕ → SpiIn} {n : ℕ}

theorem dataWrite_iff {s : Spi} {i : SpiIn} :
    s.dataWrite i = true ↔ i.offers = true ∧ s.inXfer = false := by
  rw [dataWrite, Bool.and_eq_true, Bool.not_eq_true']

variable (hR : ∀ n, R (n + 1) = (R n).next v cpol (inp n)) (h0 : R 0 = resetState cpol)

include hR

/-- A count that is not zero comes from a write or from the count before. -/
theorem inXfer_succ (hx : (R (n + 1)).inXfer = true) :
    (R n).dataWrite (inp n) = true ∨ (R n).inXfer = true := by
  by_cases hw : (R n).dataWrite (inp n) = true
  · exact .inl hw
  · right
    rw [Bool.not_eq_true] at hw
    by_contra hno
    rw [Bool.not_eq_true] at hno
    have hsame : (R (n + 1)).xferCycles = (R n).xferCycles := by
      rw [hR]
      cases hs : (R n).state with
      | idle => exact (next_idle v cpol hs hw).2
      | xfer =>
        have ho : (inp n).offers = false := by
          rw [Bool.eq_false_iff]
          exact fun ho => Bool.eq_false_iff.1 hw (dataWrite_iff.2 ⟨ho, hno⟩)
        exact (next_done v cpol hs hno ho).2.1
    rw [inXfer, hsame] at hx
    rw [inXfer, hx] at hno
    cases hno

include h0

/-- A controller that is busy has a write that was accepted in `S_IDLE`, and was busy since. -/
theorem exists_write (hno : ∀ k < n, ¬ Clash R inp k) (hx : (R n).inXfer = true) :
    ∃ t < n, (R t).state = .idle ∧ (R t).dataWrite (inp t) = true ∧
      ∀ k, t < k → k ≤ n → (R k).inXfer = true := by
  induction n with
  | zero =>
    rw [h0] at hx
    cases hx
  | succ n ih =>
    by_cases hx' : (R n).inXfer = true
    · obtain ⟨t, ht, hs, hw, hbusy⟩ := ih (fun k hk => hno k (by omega)) hx'
      refine ⟨t, by omega, hs, hw, fun k hk hk' => ?_⟩
      rcases Nat.lt_succ_iff_lt_or_eq.1 (Nat.lt_succ_of_le hk') with hlt | rfl
      · exact hbusy k hk (by omega)
      · exact hx
    · rcases inXfer_succ hR hx with hw | h
      · have hs : (R n).state = .idle := by
          cases hs : (R n).state with
          | idle => rfl
          | xfer =>
            obtain ⟨ho, hx''⟩ := dataWrite_iff.1 hw
            exact absurd ⟨ho, hs, hx''⟩ (hno n (Nat.lt_succ_self n))
        refine ⟨n, Nat.lt_succ_self n, hs, hw, fun k hk hk' => ?_⟩
        obtain rfl : k = n + 1 := by omega
        exact hx
      · exact absurd h hx'

variable (hdiv : Steady R inp)

include hdiv

/-- As long as there was no clash, a busy controller is getting the bits of a write through. -/
theorem exists_transfer (hno : ∀ k < n, ¬ Clash R inp k) (hx : (R n).inXfer = true) :
    ∃ t z c, t < n ∧ n < z ∧ Through inp R t z c := by
  obtain ⟨t, ht, hs, hw, hbusy⟩ := exists_write hR h0 hno hx
  obtain ⟨z, c, htz, hth⟩ := exists_through hR hdiv hs hw
  refine ⟨t, z, c, ht, ?_, hth⟩
  by_contra hge
  have hz := hth.loaded.inXfer_iff.1 (hbusy z htz (by omega))
  omega

theorem state_of_inXfer (hno : ∀ k < n, ¬ Clash R inp k) (hx : (R n).inXfer = true) :
    (R n).state = .xfer := by
  obtain ⟨t, z, c, ht, hnz, hth⟩ := exists_transfer hR h0 hdiv hno hx
  exact (hth.busy n ht hnz).2

/-- As long as there was no clash, a write that stays on the bus is accepted. -/
theorem exists_dataWrite (hno : ∀ k < n, ¬ Clash R inp k)
    (ho : ∀ m, n ≤ m → (inp m).offers = true) :
    ∃ m, n ≤ m ∧ (R m).dataWrite (inp m) = true := by
  by_cases hx : (R n).inXfer = true
  · obtain ⟨t, z, c, -, hnz, hth⟩ := exists_transfer hR h0 hdiv hno hx
    have hz : (R z).inXfer = false := by
      rw [Bool.eq_false_iff, Ne, hth.loaded.inXfer_iff]
      omega
    exact ⟨z, hnz.le, dataWrite_iff.2 ⟨ho z hnz.le, hz⟩⟩
  · rw [Bool.not_eq_true] at hx
    exact ⟨n, le_rfl, dataWrite_iff.2 ⟨ho n le_rfl, hx⟩⟩

end

/-- What the controller is for: every write accepted is transferred, the clock rests in between,
the controller is never busy outside of `S_XFER`, and a write that stays on the bus is accepted. -/
structure Works (cpol : Bool) (inp : ℕ → SpiIn) (R : ℕ → Spi) : Prop where
  transfers : ∀ t, (R t).dataWrite (inp t) = true → ∃ e c, Transfers cpol inp R t e c
  rests : ∀ n, (R n).state = .idle → (R (n + 1)).sclk = cpol
  busy : ∀ n, (R n).inXfer = true → (R n).state = .xfer
  accepts : ∀ n, (∀ m, n ≤ m → (inp m).offers = true) →
    ∃ m, n ≤ m ∧ (R m).dataWrite (inp m) = true

/-- Both controllers, with either idle level of the clock and every divisor that is constant
during a transfer, do what they are for exactly in the runs without a data write in the last
cycle of a transfer.  As long as there was none, a write that stays on the bus is accepted. -/
theorem works_iff (v : SpiVersion) (cpol : Bool) (inp : ℕ → SpiIn)
    (hdiv : Steady (after v cpol inp) inp) :
    (Works cpol inp (after v cpol inp) ↔ ∀ n, ¬ Clash (after v cpol inp) inp n) ∧
    ∀ n, (∀ k < n, ¬ Clash (after v cpol inp) inp k) →
      ((after v cpol inp n).inXfer = true → (after v cpol inp n).state = .xfer) ∧
      ((∀ m, n ≤ m → (inp m).offers = true) →
        ∃ m, n ≤ m ∧ (after v cpol inp m).dataWrite (inp m) = true) := by
  have hR : ∀ n, after v cpol inp (n + 1) = (after v cpol inp n).next v cpol (inp n) :=
    fun _ => rfl
  have hbusy := fun n hno => state_of_inXfer hR rfl hdiv (n := n) hno
  have haccepts := fun n hno => exists_dataWrite hR rfl hdiv (n := n) hno
  refine ⟨⟨?_, ?_⟩, fun n hno => ⟨hbusy n hno, haccepts n hno⟩⟩
  -- a clash leaves the controller in a transfer that its state knows nothing of
  · rintro h n ⟨ho, hs, hx⟩
    obtain ⟨hst, hcount⟩ := next_clash v cpol hs (dataWrite_iff.2 ⟨ho, hx⟩)
    rw [← hR] at hst hcount
    have hx' : (after v cpol inp (n + 1)).inXfer = true := by
      rw [inXfer, hcount]
      rfl
    rw [h.busy (n + 1) hx'] at hst
    cases hst
  · intro hno
    refine ⟨fun t hw => ?_, fun n hs => ?_, fun n => hbusy n fun k _ => hno k,
      fun n => haccepts n fun k _ => hno k⟩
    · have hs : (after v cpol inp t).state = .idle := by
        cases hs : (after v cpol inp t).state with
        | idle => rfl
        | xfer =>
          obtain ⟨ho, hx⟩ := dataWrite_iff.1 hw
          exact absurd ⟨ho, hs, hx⟩ (hno t)
      obtain ⟨z, c, -, hth⟩ := exists_through hR hdiv hs hw
      exact ⟨z + 1, c, hth.transfers hR hs (hno z)⟩
    · exact next_sclk_of_idle v cpol hs

/-- One byte. -/
def oneWrite (n : ℕ) : SpiIn := ⟨true, decide (n = 0), 0xA5#32, 0xF#4, 1#16, true⟩

theorem works_iff_one_write : Works false oneWrite (after .first false oneWrite) := by
  refine (works_iff .first false oneWrite fun n _ _ => rfl).1.2 ?_
  rintro n ⟨ho, hs, -⟩
  obtain rfl : n = 0 := by
    simpa [SpiIn.offers, oneWrite] using ho
  exact absurd hs (by decide)

/-- Two bytes: the second write is on the bus while the first is being transferred. -/
def twoWrites (n : ℕ) : SpiIn :=
  ⟨true, decide (n = 0 ∨ 2 ≤ n ∧ n ≤ 16), if n = 0 then 0xA5#32 else 0x3C#32, 0xF#4, 1#16, true⟩

/-- The second write leaves the controller busy in `S_IDLE`. -/
theorem held_write_wedges :
    ¬ ∀ (v : SpiVersion) (cpol : Bool) (inp : ℕ → SpiIn), Steady (after v cpol inp) inp →
      Works cpol inp (after v cpol inp) := by
  intro h
  have hidle := (h .first false twoWrites fun n _ _ => rfl).busy 17 (by decide +kernel)
  exact absurd hidle (by decide +kernel)

end Spi

end KianRiscV
