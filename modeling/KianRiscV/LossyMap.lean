/-
# `associative_cache` is a lossy map

Whatever the replacement policy, every entry of `associative_cache` is the payload of the last
write to its tag since the last reset, and no tag is in two ways of its set.  A policy is any
state machine that names a way: `replacement` collects those of `associative_cache.v`.
-/
import KianRiscV.AssociativeCache
import KianRiscV.SyncRun

namespace KianRiscV

/-! ## The policies -/

/-- `lpru_replacement`: a bit for every way that has been used; when all have been used, only the
one used next keeps its bit. -/
def lpru (setWidth wayWidth : ℕ) : ReplacementPolicy setWidth (2 ^ wayWidth) where
  State := BitVec setWidth → Fin (2 ^ wayWidth) → Bool
  reset := fun _ _ => false
  replaceWay := fun s i =>
    ((List.finRange (2 ^ wayWidth)).find? fun w => !s i w).getD ⟨0, Nat.two_pow_pos wayWidth⟩
  next := fun s i hit wr way =>
    if hit || wr then fun k w =>
      if k = i then
        (if (List.finRange (2 ^ wayWidth)).all (s i) then decide (w = way)
         else decide (w = way) || s i w)
      else s k w
    else s

/-- `random_replacement`: the low bits of an eight-bit shift register that runs in every cycle. -/
def random (setWidth wayWidth : ℕ) : ReplacementPolicy setWidth (2 ^ wayWidth) where
  State := BitVec 8
  reset := 1#8
  replaceWay := fun s _ => (s.setWidth wayWidth).toFin
  next := fun s _ _ _ _ =>
    s.extractLsb' 0 7 ++
      BitVec.ofBool (s.getLsbD 7 ^^ s.getLsbD 5 ^^ s.getLsbD 4 ^^ s.getLsbD 3)

/-- `round_robin_replacement`: a counter per set, which moves on with every write that misses. -/
def roundRobin (setWidth wayWidth : ℕ) : ReplacementPolicy setWidth (2 ^ wayWidth) where
  State := BitVec setWidth → BitVec wayWidth
  reset := fun _ => 0
  replaceWay := fun s i => (s i).toFin
  next := fun s i hit wr _ =>
    if wr && !hit then fun k =>
      if k = i then (if s i = BitVec.ofNat wayWidth (2 ^ wayWidth - 1) then 0 else s i + 1)
      else s k
    else s

/-- `REPLACEMENT_POLICY`. -/
inductive Replacement
  | lru | lpru | random | roundRobin
  deriving DecidableEq

/-- The policy of an `associative_cache` with `2 ^ wayWidth` ways. -/
def replacement (r : Replacement) (setWidth wayWidth : ℕ) :
    ReplacementPolicy setWidth (2 ^ wayWidth) :=
  match r, wayWidth with
  | .lru, 1 => lruTwoWay setWidth
  | .lru, 2 => lruFourWay setWidth
  | .lru, w => lruGeneralWay setWidth w
  | .lpru, w => lpru setWidth w
  | .random, w => random setWidth w
  | .roundRobin, w => roundRobin setWidth w

/-! ## Runs -/

/-- The inputs of `associative_cache` in one cycle. -/
structure AssociativeCacheIn (tagWidth payloadWidth : ℕ) where
  resetn : Bool
  tag : BitVec tagWidth
  we : Bool
  valid : Bool
  payloadI : BitVec payloadWidth

namespace AssociativeCacheIn

variable {tagWidth payloadWidth : ℕ} (inp : ℕ → AssociativeCacheIn tagWidth payloadWidth)
  (t : BitVec tagWidth) (n : ℕ)

/-- Cycle `n` writes the tag `t`. -/
def WritesAt : Prop :=
  (inp n).resetn = true ∧ (inp n).we = true ∧ (inp n).valid = true ∧ (inp n).tag = t

/-- Cycle `n` is a reset or writes the tag `t`. -/
def TouchesAt : Prop := (inp n).resetn = false ∨ WritesAt inp t n

end AssociativeCacheIn

namespace AssociativeCache

open AssociativeCacheIn

variable {setWidth tagWidth payloadWidth ways : ℕ} {policy : ReplacementPolicy setWidth ways}
  {c : AssociativeCache tagWidth payloadWidth policy}
  {inp : ℕ → AssociativeCacheIn tagWidth payloadWidth} {n : ℕ}

/-- One clock edge under the inputs `i`. -/
def step (c : AssociativeCache tagWidth payloadWidth policy)
    (i : AssociativeCacheIn tagWidth payloadWidth) : AssociativeCache tagWidth payloadWidth policy :=
  c.next i.resetn i.tag i.we i.valid i.payloadI

/-- The state `n` cycles after a reset. -/
def afterReset (c : AssociativeCache tagWidth payloadWidth policy)
    (i : AssociativeCacheIn tagWidth payloadWidth)
    (inp : ℕ → AssociativeCacheIn tagWidth payloadWidth) :
    ℕ → AssociativeCache tagWidth payloadWidth policy :=
  Sync.run step (c.step { i with resetn := false }) inp

/-- In the first `n` cycles the tag `t` was last touched by a write of `v`. -/
def LastWrote (inp : ℕ → AssociativeCacheIn tagWidth payloadWidth) (n : ℕ) (t : BitVec tagWidth)
    (v : BitVec payloadWidth) : Prop :=
  ∃ k, Sync.IsLast (TouchesAt inp t) n k ∧ WritesAt inp t k ∧ v = (inp k).payloadI

theorem LastWrote.succ {t : BitVec tagWidth} {v : BitVec payloadWidth} (h : LastWrote inp n t v)
    (hn : ¬ TouchesAt inp t n) : LastWrote inp (n + 1) t v := by
  obtain ⟨k, hk, hw, hv⟩ := h
  exact ⟨k, hk.succ hn, hw, hv⟩

/-- What a state has to do with the inputs so far. -/
structure Remembers (inp : ℕ → AssociativeCacheIn tagWidth payloadWidth) (n : ℕ)
    (c : AssociativeCache tagWidth payloadWidth policy) : Prop where
  unique : CacheLines.Unique (keying setWidth tagWidth) c.lines
  sound : c.Sound (LastWrote inp n)

theorem remembers_of_empty (h : c.lines = fun _ _ => none) : Remembers inp n c := by
  constructor
  · rw [h]
    rintro t i j ⟨v, hv⟩
    cases hv
  · intro t j hj
    rw [wayHit_iff_holds, h] at hj
    obtain ⟨v, hv⟩ := hj
    cases hv

/-- A write leaves every other tag as it was and the written tag with its payload. -/
theorem Remembers.write (h : Remembers inp n c) (hr : (inp n).resetn = true)
    (hw : (inp n).we = true) (hv : (inp n).valid = true) :
    Remembers inp (n + 1) (c.next true (inp n).tag true true (inp n).payloadI) := by
  have ht := target_accessWay c (inp n).tag
  constructor
  · rw [lines_next_write]
    exact h.unique.put ht
  · intro t j hj
    have hnew : ∀ v, t = (inp n).tag → v = (inp n).payloadI → LastWrote inp (n + 1) t v := by
      rintro v rfl rfl
      exact ⟨n, Sync.isLast_self (.inr ⟨hr, hw, hv, rfl⟩), ⟨hr, hw, hv, rfl⟩, rfl⟩
    rcases wayHit_next_write hj with ⟨htag, hp⟩ | ⟨hold, hp⟩
    · exact hnew _ htag hp
    · by_cases htag : t = (inp n).tag
      · -- the way that held the tag is the way written
        subst htag
        obtain rfl : j = c.accessWay (inp n).tag := ht.eq h.unique (wayHit_iff_holds.1 hold)
        apply hnew _ rfl
        simp [AssociativeCache.next, TagRam.next]
      · rw [hp]
        apply (h.sound t j hold).succ
        intro hto
        rcases hto with hto | hto
        · rw [hr] at hto
          exact absurd hto (by decide)
        · exact htag hto.2.2.2.symm

theorem Remembers.step (h : Remembers inp n c) : Remembers inp (n + 1) (c.step (inp n)) := by
  unfold AssociativeCache.step
  cases hr : (inp n).resetn with
  | false => exact remembers_of_empty lines_next_reset
  | true =>
    cases hwv : ((inp n).we && (inp n).valid) with
    | true =>
      obtain ⟨hw, hv⟩ := Bool.and_eq_true_iff.1 hwv
      rw [hw, hv]
      exact h.write hr hw hv
    | false =>
      have hno : ∀ t, ¬ TouchesAt inp t n := by
        rintro t (hto | ⟨-, hw, hv, -⟩)
        · rw [hr] at hto
          exact absurd hto (by decide)
        · simp [hw, hv] at hwv
      constructor
      · rw [lines_next_of_not_write hwv]
        exact h.unique
      · intro t j hj
        simp only [wayHit, next_way_of_not_write hwv] at hj ⊢
        exact (h.sound t j hj).succ (hno t)

theorem remembers_afterReset (c : AssociativeCache tagWidth payloadWidth policy)
    (i : AssociativeCacheIn tagWidth payloadWidth) (n : ℕ) :
    Remembers inp n (c.afterReset i inp n) := by
  induction n with
  | zero => exact remembers_of_empty lines_next_reset
  | succ n ih => exact ih.step

end AssociativeCache

/-- **A lossy map.**  For every replacement policy, every number of ways and sets, and every
sequence of lookups, writes and resets after a first reset: no tag is in two ways, and a tag
that hits has been written since the last reset and shows the payload of the last such write. -/
theorem associative_cache_lossy_map {setWidth tagWidth payloadWidth ways : ℕ}
    (policy : ReplacementPolicy setWidth ways)
    (c : AssociativeCache tagWidth payloadWidth policy)
    (i : AssociativeCacheIn tagWidth payloadWidth)
    (inp : ℕ → AssociativeCacheIn tagWidth payloadWidth) (n : ℕ) :
    (∀ t j j', (c.afterReset i inp n).wayHit t j = true →
      (c.afterReset i inp n).wayHit t j' = true → j = j') ∧
    ∀ t, (c.afterReset i inp n).hit t = true →
      ∃ k, Sync.IsLast (AssociativeCacheIn.TouchesAt inp t) n k ∧
        AssociativeCacheIn.WritesAt inp t k ∧
        (c.afterReset i inp n).payload t = (inp k).payloadI := by
  have h : AssociativeCache.Remembers inp n (c.afterReset i inp n) :=
    AssociativeCache.remembers_afterReset c i n
  constructor
  · intro t j j' hj hj'
    exact h.unique t j j' (AssociativeCache.wayHit_iff_holds.1 hj)
      (AssociativeCache.wayHit_iff_holds.1 hj')
  · exact fun t ht => h.sound.payload ht

/-- Under `RANDOM`, a payload written over another one in the same set. -/
example :
    let c : AssociativeCache 4 8 (replacement .random 1 1) :=
      ⟨fun _ => ⟨fun _ => true, fun _ => 0, fun _ => 0⟩, 0#8⟩
    let w (t : BitVec 4) (v : BitVec 8) : AssociativeCacheIn 4 8 := ⟨true, t, true, true, v⟩
    (c.afterReset (w 0 0) (fun n => [w 3 7, w 5 8, w 3 9].getD n (w 0 0)) 3).payload 3 = 9 := by
  decide

end KianRiscV
