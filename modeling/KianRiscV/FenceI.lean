/-
# Stores seen by fetches

The caches of `cache.v` over their RAM, under any order of fetches, data accesses and
`icache_flush`.  The requester holds its request and the select line until the answer and
flushes while it has no request.

The instruction cache is not told of stores, so a line shows the word the RAM had when the line
was filled.  `fence_i_visible` says that this is the only way in which a fetch can differ from
the RAM, and that it takes a store since the last flush.
-/
import KianRiscV.CacheView

namespace KianRiscV

open MemoryPort

variable {iset iways dset dways : ℕ}

/-- The caches and the RAM behind them. -/
structure CachedRam (ipolicy : ReplacementPolicy iset iways)
    (dpolicy : ReplacementPolicy dset dways) where
  cache : Cache ipolicy dpolicy
  ram : CacheRam

/-- What comes in a cycle: the select line, the request, `icache_flush`, and the answer of the
RAM. -/
structure CachedRamIn where
  isInstruction : Bool
  cpu : CacheReq
  icacheFlush : Bool
  sdram : Answer Word

namespace CachedRam

variable {ipolicy : ReplacementPolicy iset iways} {dpolicy : ReplacementPolicy dset dways}

section

variable (s : CachedRam ipolicy dpolicy) (i : CachedRamIn)

/-- `cpu_ready_o`. -/
def ready : Bool := s.cache.cpuReady i.isInstruction (s.ram.ready i.sdram)

/-- `cpu_dout_o`. -/
def dout : Word := s.cache.cpuDout i.isInstruction i.cpu (s.ram.rdata wordPort i.sdram)

/-- One clock edge; `soc.v` resets the caches with `resetn && ~icache_flush`. -/
def next : CachedRam ipolicy dpolicy where
  cache := s.cache.next i.isInstruction i.cpu (s.ram.ready i.sdram)
    (s.ram.rdata wordPort i.sdram) (!i.icacheFlush)
  ram := s.ram.next wordPort i.sdram
    (s.cache.ramRequest i.isInstruction i.cpu (s.ram.ready i.sdram))

end

/-- The registers after reset, over any contents of the RAM. -/
structure IsReset (s : CachedRam ipolicy dpolicy) : Prop where
  icache : ∃ c q v b x, s.cache.icache = Icache.next c q v b x false
  dcache : ∃ d q b x, s.cache.dcache = Dcache.next d q b x false
  ram : s.ram.held = none

section

variable (s : CachedRam ipolicy dpolicy) (inp : ℕ → CachedRamIn) (n : ℕ) (t : BitVec 30)

/-- The state after `n` cycles. -/
def run : CachedRam ipolicy dpolicy := Sync.run next s inp n

/-- The word `t` of the RAM in cycle `n`. -/
def word : Word := (run s inp n).ram.content t

/-- Cycle `n` answers a fetch of the word `t`. -/
def FetchAt : Prop :=
  (inp n).isInstruction = true ∧ (run s inp n).ready (inp n) = true ∧
    Dcache.fullTag (inp n).cpu.addr = t

/-- Cycle `n` fills a line of the instruction cache with the word `t`. -/
def FillAt : Prop :=
  (inp n).isInstruction = true ∧
    (run s inp n).cache.icache.cacheWe ((run s inp n).ram.ready (inp n).sdram) = true ∧
    Dcache.fullTag (inp n).cpu.addr = t

/-- Cycle `n` answers a store to the word `t`. -/
def StoreAt : Prop :=
  (inp n).isInstruction = false ∧ (run s inp n).ready (inp n) = true ∧ (inp n).cpu.mask ≠ 0#4 ∧
    Dcache.fullTag (inp n).cpu.addr = t

/-- Cycle `n` flushes, or fills a line with the word `t`. -/
def RenewAt : Prop := (inp n).icacheFlush = true ∨ FillAt s inp n t

/-- What the requester promises: requests are held until they are answered, and it flushes
without a request. -/
structure Orderly : Prop where
  held : ∀ n, (inp n).cpu.valid = true → (run s inp n).ready (inp n) = false →
    (inp (n + 1)).cpu = (inp n).cpu ∧ (inp (n + 1)).isInstruction = (inp n).isInstruction
  flush : ∀ n, (inp n).icacheFlush = true → (inp n).cpu.valid = false

/-- `v` is the word that `t` was at its last fill, which no flush has followed. -/
def LastFill (v : Word) : Prop :=
  ∃ k, Sync.IsLast (RenewAt s inp · t) n k ∧ FillAt s inp k t ∧ v = word s inp k t

/-- What holds in every cycle. -/
structure InStep : Prop where
  serves : (run s inp n).cache.Serves (run s inp n).ram (inp n).isInstruction (inp n).cpu
  lines : (run s inp n).cache.icache.cacheInst.Sound (LastFill s inp n)

end

variable {s : CachedRam ipolicy dpolicy} {inp : ℕ → CachedRamIn} {n k : ℕ} {t : BitVec 30}
  {v : Word}

theorem LastFill.succ (h : LastFill s inp n t v) (hn : ¬ RenewAt s inp n t) :
    LastFill s inp (n + 1) t v := by
  obtain ⟨k, hk, hf, hv⟩ := h
  exact ⟨k, hk.succ hn, hf, hv⟩

/-! ## The words of the RAM -/

/-- Only a store changes a word. -/
theorem InStep.word_succ (h : InStep s inp n) (hs : ¬ StoreAt s inp n t) :
    word s inp (n + 1) t = word s inp n t := by
  have hc := h.serves.next_content (a := (inp n).sdram)
    ((run s inp n).cache.ramRequest (inp n).isInstruction (inp n).cpu
      ((run s inp n).ram.ready (inp n).sdram))
  have hw : word s inp (n + 1) t = _ := congrFun hc t
  rw [hw]
  split
  · rename_i hready
    obtain ⟨hi, hr⟩ : (inp n).isInstruction = false ∧ (run s inp n).ready (inp n) = true := by
      simpa [ready] using hready
    by_cases hm : (inp n).cpu.mask = 0#4
    · exact congrFun (Format.write_of_read hm) t
    · have ht : t ≠ Dcache.fullTag (inp n).cpu.addr := fun ht => hs ⟨hi, hr, hm, ht.symm⟩
      exact Function.update_of_ne ht _ _
  · rfl

/-- A word without stores stays. -/
theorem word_eq_of_no_store (h : ∀ n, InStep s inp n) (hk : k ≤ n)
    (hs : ∀ j, k ≤ j → j < n → ¬ StoreAt s inp j t) : word s inp n t = word s inp k t := by
  induction n, hk using Nat.le_induction with
  | base => rfl
  | succ n hkn ih =>
    rw [(h n).word_succ (hs n hkn (Nat.lt_succ_self n))]
    exact ih fun j hj hjn => hs j hj (by omega)

/-! ## The lines of the instruction cache -/

/-- A flush drops every line. -/
theorem lines_of_flush (hf : (inp n).icacheFlush = true) :
    (run s inp (n + 1)).cache.icache.cacheInst.Sound (LastFill s inp (n + 1)) := by
  apply AssociativeCache.sound_of_not_hit
  intro t
  show ((run s inp n).next (inp n)).cache.icache.cacheInst.hit t = false
  simp only [next, Cache.next, Icache.next, hf, Bool.not_true]
  exact AssociativeCache.hit_next_reset

/-- A cycle that fills no line keeps them. -/
theorem InStep.lines_of_not_we (h : InStep s inp n) (hf : (inp n).icacheFlush = false)
    (hway : (run s inp (n + 1)).cache.icache.cacheInst.way =
      (run s inp n).cache.icache.cacheInst.way)
    (hno : ∀ t, ¬ FillAt s inp n t) :
    (run s inp (n + 1)).cache.icache.cacheInst.Sound (LastFill s inp (n + 1)) := by
  intro t j hj
  simp only [AssociativeCache.wayHit, hway] at hj ⊢
  refine (h.lines t j hj).succ ?_
  rintro (hfl | hfill)
  · rw [hf] at hfl
    exact absurd hfl (by decide)
  · exact hno t hfill

/-- A fill is the last one of its word, and leaves the others as they were. -/
theorem InStep.lines_of_we (h : InStep s inp n) (hf : (inp n).icacheFlush = false)
    (hi : (inp n).isInstruction = true)
    (hw : (run s inp n).cache.icache.cacheWe ((run s inp n).ram.ready (inp n).sdram) = true) :
    (run s inp (n + 1)).cache.icache.cacheInst.Sound (LastFill s inp (n + 1)) := by
  have hphase : (run s inp n).cache.icache.Phase (run s inp n).ram (inp n).cpu := by
    simpa [hi] using h.serves.icache
  obtain ⟨hmiss, hnext⟩ := hphase.fill hw
  have hrun : (run s inp (n + 1)).cache.icache.cacheInst =
      (run s inp n).cache.icache.cacheInst.next true (Dcache.fullTag (inp n).cpu.addr) true true
        (word s inp n (Dcache.fullTag (inp n).cpu.addr)) := by
    show ((run s inp n).next (inp n)).cache.icache.cacheInst = _
    simp only [next, Cache.next, hf, hi, Bool.not_false, if_true]
    exact hnext
  rw [hrun]
  refine h.lines.next_miss hmiss (fun t v ht hv => hv.succ ?_) ?_
  · rintro (hfl | hfill)
    · rw [hf] at hfl
      exact absurd hfl (by decide)
    · exact ht hfill.2.2.symm
  · have hfill : FillAt s inp n (Dcache.fullTag (inp n).cpu.addr) := ⟨hi, hw, rfl⟩
    exact ⟨n, Sync.isLast_self (.inr hfill), hfill, rfl⟩

theorem InStep.lines_next (h : InStep s inp n) :
    (run s inp (n + 1)).cache.icache.cacheInst.Sound (LastFill s inp (n + 1)) := by
  cases hf : (inp n).icacheFlush with
  | true => exact lines_of_flush hf
  | false =>
    have hrun : (run s inp (n + 1)).cache.icache = ((run s inp n).next (inp n)).cache.icache := rfl
    cases hi : (inp n).isInstruction with
    | false =>
      have hs : (run s inp n).cache.icache.state = .s0 := by simpa [hi] using h.serves.icache
      refine h.lines_of_not_we hf ?_ fun t hfill => ?_
      · rw [hrun]
        simp only [next, Cache.next, hf, hi, Bool.not_false, Bool.false_eq_true, if_false]
        exact (Icache.next_unselected hs).2
      · exact absurd (hi.symm.trans hfill.1) (by decide)
    | true =>
      cases hw : (run s inp n).cache.icache.cacheWe ((run s inp n).ram.ready (inp n).sdram) with
      | true => exact h.lines_of_we hf hi hw
      | false =>
        refine h.lines_of_not_we hf ?_ fun t hfill => ?_
        · rw [hrun]
          simp only [next, Cache.next, hf, hi, Bool.not_false, if_true]
          exact Icache.next_way_of_not_we hw
        · exact absurd (hw.symm.trans hfill.2.1) (by decide)

/-! ## Runs -/

theorem InStep.next (h : InStep s inp n) (ho : Orderly s inp) : InStep s inp (n + 1) := by
  refine ⟨?_, h.lines_next⟩
  have hrun : run s inp (n + 1) = (run s inp n).next (inp n) := rfl
  rw [hrun]
  cases hf : (inp n).icacheFlush with
  | true =>
    simp only [CachedRam.next, hf, Bool.not_true]
    exact (h.serves.next_reset (ho.flush n hf)).1
  | false =>
    simp only [CachedRam.next, hf, Bool.not_false]
    exact h.serves.next (ho.held n)

theorem inStep_of_isReset (hs : s.IsReset) (ho : Orderly s inp) (n : ℕ) : InStep s inp n := by
  induction n with
  | zero =>
    obtain ⟨c, q, x, b, y, hi⟩ := hs.icache
    obtain ⟨d, q', b', y', hd⟩ := hs.dcache
    refine ⟨Cache.serves_of_rest ?_ ?_ hs.ram ?_, ?_⟩
    · show s.cache.icache.state = .s0
      rw [hi]
      rfl
    · show s.cache.dcache.state = .s0
      rw [hd]
      rfl
    · exact Dcache.IsReset.coherent ⟨d, q', b', y', hd⟩ _
    · apply AssociativeCache.sound_of_not_hit
      intro t
      show s.cache.icache.cacheInst.hit t = false
      rw [hi]
      exact AssociativeCache.hit_next_reset
  | succ n ih => exact ih.next ho

/-- No line is filled in a cycle with a flush. -/
theorem InStep.not_fill_of_flush (h : InStep s inp n) (ho : Orderly s inp)
    (hf : (inp n).icacheFlush = true) : ¬ FillAt s inp n t := by
  rintro ⟨hi, hw, -⟩
  have hphase : (run s inp n).cache.icache.Phase (run s inp n).ram (inp n).cpu := by
    simpa [hi] using h.serves.icache
  obtain ⟨hs, -⟩ : (run s inp n).cache.icache.state = .s1 ∧
      (run s inp n).ram.ready (inp n).sdram = true := by
    simpa [Icache.cacheWe] using hw
  have hv := hphase.valid (by simp [hs])
  rw [ho.flush n hf] at hv
  exact absurd hv (by decide)

/-- A fetch returns the word of the RAM, or what it was at the last fill. -/
theorem InStep.dout_cases (h : InStep s inp n) (hf : FetchAt s inp n t) :
    (run s inp n).dout (inp n) = word s inp n t ∨
      LastFill s inp n t ((run s inp n).dout (inp n)) := by
  obtain ⟨hi, hr, rfl⟩ := hf
  have hphase : (run s inp n).cache.icache.Phase (run s inp n).ram (inp n).cpu := by
    simpa [hi] using h.serves.icache
  have hr' : (run s inp n).cache.icache.cpuReady ((run s inp n).ram.ready (inp n).sdram) = true := by
    simpa [ready, Cache.cpuReady, hi] using hr
  have hdout : (run s inp n).dout (inp n) =
      (run s inp n).cache.icache.view (run s inp n).ram.content
        (Dcache.fullTag (inp n).cpu.addr) := by
    simp only [dout, Cache.cpuDout, hi, if_true]
    exact (hphase.read hr').2
  rw [hdout]
  cases hh : (run s inp n).cache.icache.cacheInst.hit (Dcache.fullTag (inp n).cpu.addr) with
  | true =>
    rw [Icache.view_of_hit hh]
    exact .inr (h.lines.payload hh)
  | false =>
    rw [Icache.view_of_miss hh]
    exact .inl rfl

end CachedRam

/-- **`FENCE.I` makes stores visible to fetches.**  In every run in which requests are held
until they are answered and flushes come without a request, a fetch that follows a flush, with no
store to its word in between, returns the word of the RAM; and every fetch returns the word of
the RAM or what that word was at its last fill, with no flush since. -/
theorem fence_i_visible {ipolicy : ReplacementPolicy iset iways}
    {dpolicy : ReplacementPolicy dset dways} {s : CachedRam ipolicy dpolicy}
    {inp : ℕ → CachedRamIn} (hs : s.IsReset) (ho : CachedRam.Orderly s inp) {n : ℕ}
    {t : BitVec 30} (hfetch : CachedRam.FetchAt s inp n t) :
    (∀ f, f < n → (inp f).icacheFlush = true →
      (∀ k, f < k → k < n → ¬ CachedRam.StoreAt s inp k t) →
      (CachedRam.run s inp n).dout (inp n) = CachedRam.word s inp n t) ∧
    ((CachedRam.run s inp n).dout (inp n) = CachedRam.word s inp n t ∨
      ∃ k, Sync.IsLast (CachedRam.RenewAt s inp · t) n k ∧ CachedRam.FillAt s inp k t ∧
        (CachedRam.run s inp n).dout (inp n) = CachedRam.word s inp k t) := by
  have hstep := CachedRam.inStep_of_isReset hs ho
  refine ⟨fun f hfn hflush hno => ?_, (hstep n).dout_cases hfetch⟩
  rcases (hstep n).dout_cases hfetch with hd | ⟨k, hk, hfill, hd⟩
  · exact hd
  · -- the last fill came after the flush, and the word has not been written since
    have hfk : f < k := by
      rcases Nat.lt_trichotomy f k with hlt | rfl | hgt
      · exact hlt
      · exact absurd hfill ((hstep f).not_fill_of_flush ho hflush)
      · exact absurd (.inl hflush) (hk.2.2 f hgt hfn)
    rw [hd]
    exact (CachedRam.word_eq_of_no_store hstep hk.1.le
      fun j hj hjn => hno j (by omega) hjn).symm

/-- Two-way caches after reset, over a RAM full of `w`. -/
def smallCaches (w : Word) : CachedRam (lruTwoWay 1) (lruTwoWay 1) where
  cache :=
    { icache := Icache.next
        ⟨.s0, ⟨fun _ => ⟨fun _ => false, fun _ => 0, fun _ => 0⟩, fun _ => false⟩⟩
        0 false false 0 false
      dcache := Dcache.next ⟨.s0, 0, 0, 0, false, false,
        ⟨fun _ => ⟨fun _ => false, fun _ => 0, fun _ => 0⟩, fun _ => false⟩⟩
        ⟨false, 0, 0, 0⟩ false 0 false }
  ram := ⟨fun _ => w, none, 0⟩

/-- An instruction is fetched, overwritten, fetched again, and fetched after a flush. -/
def patchInputs (n : ℕ) : CachedRamIn :=
  let fetch : CachedRamIn := ⟨true, ⟨true, 0x80000010#32, 0#4, 0#32⟩, false, ⟨true, 0⟩⟩
  let store : CachedRamIn := ⟨false, ⟨true, 0x80000010#32, 0xf#4, 0x13#32⟩, false, ⟨true, 0⟩⟩
  let idle : CachedRamIn := ⟨true, ⟨false, 0#32, 0#4, 0#32⟩, false, ⟨true, 0⟩⟩
  [fetch, fetch, fetch, store, store, store, fetch, fetch, { idle with icacheFlush := true },
    fetch, fetch, fetch].getD n idle

theorem patchInputs_orderly : CachedRam.Orderly (smallCaches 7#32) patchInputs := by
  have hidle : ∀ n, 12 ≤ n → (patchInputs n).cpu.valid = false := by
    intro n hn
    obtain ⟨d, rfl⟩ := Nat.exists_eq_add_of_le' hn
    rfl
  have hheld : ∀ n < 12, (patchInputs n).cpu.valid = true →
      (CachedRam.run (smallCaches 7#32) patchInputs n).ready (patchInputs n) = false →
      (patchInputs (n + 1)).cpu = (patchInputs n).cpu ∧
        (patchInputs (n + 1)).isInstruction = (patchInputs n).isInstruction := by decide
  have hflush : ∀ n < 12, (patchInputs n).icacheFlush = true →
      (patchInputs n).cpu.valid = false := by decide
  constructor
  · intro n hv hr
    by_cases hn : n < 12
    · exact hheld n hn hv hr
    · exact absurd ((hidle n (by omega)).symm.trans hv) (by decide)
  · intro n hf
    by_cases hn : n < 12
    · exact hflush n hn hf
    · exact hidle n (by omega)

/-- The second fetch is stale, the third one is not. -/
theorem fence_i_visible_patch :
    (CachedRam.run (smallCaches 7#32) patchInputs 7).dout (patchInputs 7) = 7#32 ∧
      CachedRam.word (smallCaches 7#32) patchInputs 7 0x20000004#30 = 0x13#32 ∧
      (CachedRam.run (smallCaches 7#32) patchInputs 11).dout (patchInputs 11) =
        CachedRam.word (smallCaches 7#32) patchInputs 11 0x20000004#30 := by
  have hreset : (smallCaches 7#32).IsReset := ⟨⟨_, _, _, _, _, rfl⟩, ⟨_, _, _, _, rfl⟩, rfl⟩
  refine ⟨by decide, by decide, ?_⟩
  refine (fence_i_visible hreset patchInputs_orderly
    ⟨by decide, by decide, by decide⟩).1 8 (by decide) (by decide) fun k hk hk' hstore => ?_
  have hfetch : ∀ k < 11, 8 < k → (patchInputs k).isInstruction = true := by decide
  exact absurd (hstore.1.symm.trans (hfetch k hk' hk)) (by decide)

end KianRiscV
