/-
# The lines of the data cache of LinuxSoC_v2

Whatever the index hash, index and tag determine the address, because the hash is a function
of the tag.  `Settled` says that the memories of the ways show the set addressed; then the
tag comparison finds exactly the lines held, and the way a write goes to may be written.
-/
import KianRiscV.SocV2Cache

namespace KianRiscV

namespace V2

/-! ## Index and tag -/

namespace Config

variable {p : Config} {a b : BitVec 30}

/-- The index is the raw index with a function of the tag added. -/
theorem idx_eq (p : Config) : ∃ g : BitVec p.tagBits → BitVec p.idxBits,
    ∀ b, p.idx b = p.idxRaw b ^^^ g (p.tag b) := by
  by_cases hon : p.hashOn = false
  · exact ⟨fun _ => 0, fun b => by simp [idx, hon]⟩
  · by_cases h2 : p.hashMode = 2
    · refine ⟨fun t => p.foldTagToIdx t ^^^ (p.foldTagToIdx t).rotateRight 1, fun b => ?_⟩
      rw [idx, if_neg hon, if_pos h2, BitVec.xor_assoc]
    · by_cases h1 : p.hashMode = 1
      · exact ⟨p.hashMask, fun b => by rw [idx, if_neg hon, if_neg h2, if_pos h1]⟩
      · exact ⟨fun _ => 0, fun b => by simp [idx, hon, h2, h1]⟩

theorem eq_of_idxRaw_of_tag (hi : p.idxRaw a = p.idxRaw b) (ht : p.tag a = p.tag b) : a = b := by
  apply BitVec.eq_of_getLsbD_eq
  intro k hk
  by_cases hlt : k < p.idxBits
  · have h := congrArg (fun x => x.getLsbD k) hi
    simpa [idxRaw, hlt] using h
  · have h := congrArg (fun x => x.getLsbD (k - p.idxBits)) ht
    have hw : k - p.idxBits < p.tagBits := by unfold tagBits; omega
    have hk' : p.idxBits + (k - p.idxBits) = k := by omega
    simpa [tag, hw, hk'] using h

/-- Addresses split by index and tag. -/
def keying (p : Config) : CacheLines.Keying (BitVec 30) (BitVec p.idxBits) (BitVec p.tagBits) where
  idx := p.idx
  tag := p.tag
  inj := by
    intro a b hi ht
    obtain ⟨g, hg⟩ := p.idx_eq
    rw [hg, hg, ht, BitVec.xor_left_inj] at hi
    exact eq_of_idxRaw_of_tag hi ht

end Config

/-! ## Lookups -/

namespace CacheSram

section

variable {idxBits tagBits : ℕ} {c : CacheSram idxBits tagBits} {idx : BitVec idxBits}
  {tag : BitVec tagBits}

/-- The valid lines of all ways. -/
def lines (c : CacheSram idxBits tagBits) :
    CacheLines.Lines (Fin 4) (BitVec idxBits) (BitVec tagBits) Word :=
  fun j k => if c.valid j k then some ((c.way j).mem k) else none

/-- The outputs of the memories are the lines of the set addressed. -/
def Settled (c : CacheSram idxBits tagBits) (idx : BitVec idxBits) : Prop :=
  ∀ j, (c.way j).dout = (c.way j).mem idx

theorem lines_eq_some_iff {j : Fin 4} {l : BitVec tagBits × Word} :
    c.lines j idx = some l ↔ c.valid j idx = true ∧ (c.way j).mem idx = l := by
  unfold lines
  split <;> simp_all

/-- A hit selects a way that matches, and its data. -/
theorem wayMatch_hitWay (h : c.hitComb idx tag = true) :
    c.wayMatch idx tag (c.hitWay idx tag) = true ∧
      c.rdata idx tag = (c.way (c.hitWay idx tag)).dout.2 := by
  unfold hitWay rdata
  split_ifs with h0 h1 h2 h3
  · exact ⟨h0, rfl⟩
  · exact ⟨h1, rfl⟩
  · exact ⟨h2, rfl⟩
  · exact ⟨h3, rfl⟩
  · simp [hitComb, h0, h1, h2, h3] at h

theorem hitComb_iff : c.hitComb idx tag = true ↔ ∃ j, c.wayMatch idx tag j = true := by
  constructor
  · exact fun h => ⟨_, (wayMatch_hitWay h).1⟩
  · rintro ⟨j, hj⟩
    have hall : ∀ j : Fin 4, j = 0 ∨ j = 1 ∨ j = 2 ∨ j = 3 := by decide
    obtain rfl | rfl | rfl | rfl := hall j
    all_goals simp [hitComb, hj]

/-! ### One clock edge without reset and flush -/

variable {we re : Bool} {wdata : Word}

theorem next_valid (j : Fin 4) : (c.next idx tag true false we re wdata).valid j =
    if we && c.targetWay idx tag == j then Function.update (c.valid j) idx true else c.valid j :=
  rfl

theorem next_mem (j : Fin 4) : ((c.next idx tag true false we re wdata).way j).mem =
    if we && c.targetWay idx tag == j then Function.update (c.way j).mem idx (tag, wdata)
    else (c.way j).mem := rfl

theorem lines_next_of_not_write :
    (c.next idx tag true false false re wdata).lines = c.lines := by
  funext j k
  simp [lines, next_valid, next_mem]

/-- An edge without write shows the set addressed. -/
theorem settled_next : (c.next idx tag true false false re wdata).Settled idx := by
  intro j
  simp [next, SramSp.next]

/-- While the same set is addressed, the outputs of the ways stay. -/
theorem next_way_of_settled (hs : c.Settled idx) :
    (c.next idx tag true false false re wdata).way = c.way := by
  funext j
  simp [next, SramSp.next, ← hs j]

theorem wayMatch_next_of_settled (hs : c.Settled idx) (j : Fin 4) :
    (c.next idx tag true false false re wdata).wayMatch idx tag j = c.wayMatch idx tag j := by
  simp only [wayMatch, next_way_of_settled hs]
  rfl

theorem hitComb_next_of_settled (hs : c.Settled idx) :
    (c.next idx tag true false false re wdata).hitComb idx tag = c.hitComb idx tag := by
  simp only [hitComb, wayMatch_next_of_settled hs]

theorem rdata_next_of_settled (hs : c.Settled idx) :
    (c.next idx tag true false false re wdata).rdata idx tag = c.rdata idx tag := by
  simp only [rdata, wayMatch_next_of_settled hs, next_way_of_settled hs]

end

/-! ## Lookups by address -/

variable {p : Config} {c : CacheSram p.idxBits p.tagBits} {b : BitVec 30}

theorem wayMatch_iff_holds (hs : c.Settled (p.idx b)) {j : Fin 4} :
    c.wayMatch (p.idx b) (p.tag b) j = true ↔ CacheLines.Holds p.keying c.lines b j := by
  simp only [wayMatch, hs j, CacheLines.Holds, Config.keying, lines_eq_some_iff, Bool.and_eq_true,
    beq_iff_eq]
  constructor
  · rintro ⟨hv, ht⟩
    exact ⟨_, hv, Prod.ext ht rfl⟩
  · rintro ⟨w, hv, hl⟩
    exact ⟨hv, by rw [hl]⟩

theorem hitComb_eq_false_iff_holds (hs : c.Settled (p.idx b)) :
    c.hitComb (p.idx b) (p.tag b) = false ↔ ∀ j, ¬ CacheLines.Holds p.keying c.lines b j := by
  rw [← Bool.not_eq_true, hitComb_iff, not_exists]
  apply forall_congr'
  intro j
  rw [wayMatch_iff_holds hs]

/-- A write goes to the way that holds the line, or to any way if none does. -/
theorem target_targetWay (hs : c.Settled (p.idx b)) :
    CacheLines.Target p.keying c.lines b (c.targetWay (p.idx b) (p.tag b)) := by
  unfold targetWay
  cases h : c.hitComb (p.idx b) (p.tag b) with
  | true =>
    left
    exact (wayMatch_iff_holds hs).1 (wayMatch_hitWay h).1
  | false =>
    right
    exact (hitComb_eq_false_iff_holds hs).1 h

/-- On a hit the data is the word the line must agree with. -/
theorem rdata_of_agrees (hs : c.Settled (p.idx b)) {m : BitVec 30 → Word}
    (ha : CacheLines.Agrees p.keying c.lines m) (h : c.hitComb (p.idx b) (p.tag b) = true) :
    c.rdata (p.idx b) (p.tag b) = m b := by
  obtain ⟨hw, hr⟩ := wayMatch_hitWay h
  obtain ⟨w, hl⟩ := (wayMatch_iff_holds hs).1 hw
  have hmem : (c.way (c.hitWay (p.idx b) (p.tag b))).mem (p.idx b) = (p.tag b, w) :=
    (lines_eq_some_iff.1 hl).2
  rw [hr, hs, hmem]
  exact ha.eq hl

/-- A write puts the line into the way it goes to. -/
theorem lines_next_write {re : Bool} {wdata : Word} :
    (c.next (p.idx b) (p.tag b) true false true re wdata).lines =
      CacheLines.put p.keying c.lines (c.targetWay (p.idx b) (p.tag b)) b wdata := by
  funext j k
  by_cases hj : c.targetWay (p.idx b) (p.tag b) = j
  · subst hj
    by_cases hk : k = p.idx b
    · simp [lines, next_valid, next_mem, CacheLines.put, Config.keying, hk]
    · simp [lines, next_valid, next_mem, CacheLines.put, Config.keying, hk]
  · simp [lines, next_valid, next_mem, CacheLines.put, hj, Ne.symm hj]

end CacheSram

end V2

end KianRiscV
