/-
# Set-associative lookup

`tag_ram.v` and `associative_cache.v` with its replacement policies.  The same
module serves as instruction and data TLB and as the tag store of both caches, so
everything is parametric in the set width, the tag and payload widths, the number
of ways and the policy.
-/
import KianRiscV.SyncRun
import KianRiscV.CacheLines
import Mathlib.Algebra.Group.Nat.Defs

namespace KianRiscV

/-- Two and four ways are numbered from zero. -/
instance neZeroTwo : @NeZero ℕ Zero.ofOfNat0 2 := ⟨by decide⟩

instance neZeroFour : @NeZero ℕ Zero.ofOfNat0 4 := ⟨by decide⟩

/-! ## Replacement policies -/

/-- A replacement policy: its registers, the way it would replace in a set, and
its update.  `hit` and `wr` are `hit_o` and `we && valid_i` of the cache, `way` is
the way accessed. -/
structure ReplacementPolicy (setWidth ways : ℕ) where
  State : Type
  reset : State
  replaceWay : State → BitVec setWidth → Fin ways
  next : State → BitVec setWidth → (hit wr : Bool) → Fin ways → State

/-- `lru_replacement` for two ways: the way accessed last, per set. -/
def lruTwoWay (setWidth : ℕ) : ReplacementPolicy setWidth 2 where
  State := BitVec setWidth → Bool
  reset := fun _ => false
  replaceWay := fun s i => if s i then 0 else 1
  next := fun s i hit wr way =>
    if hit || wr then fun k => if k = i then decide (way = 1) else s k else s

/-- `lru_replacement` for four ways: a three-bit tree per set. -/
def lruFourWay (setWidth : ℕ) : ReplacementPolicy setWidth 4 where
  State := BitVec setWidth → BitVec 3
  reset := fun _ => 0#3
  replaceWay := fun s i =>
    if (s i).getLsbD 2 then (if (s i).getLsbD 0 then 3 else 2)
    else (if (s i).getLsbD 0 then 1 else 0)
  next := fun s i hit wr way =>
    if hit || wr then
      fun k => if k = i then
        (if way = 0 then BitVec.ofBool true ++ BitVec.ofBool ((s i).getLsbD 1) ++ 1#1
         else if way = 1 then BitVec.ofBool true ++ BitVec.ofBool ((s i).getLsbD 1) ++ 0#1
         else if way = 2 then 0#1 ++ 1#1 ++ BitVec.ofBool ((s i).getLsbD 0)
         else 0#1 ++ 0#1 ++ BitVec.ofBool ((s i).getLsbD 0))
        else s k
    else s

/-- The search loop of the general `lru_replacement`: the first way of largest age. -/
def oldestWay {ways : ℕ} (age : Fin ways → ℕ) (start : Fin ways) : Fin ways :=
  (List.finRange ways).foldl (fun best k => if age best < age k then k else best) start

/-- `lru_replacement` for a general number of ways: `WAY_WIDTH + 1`-bit age
counters, incremented (and wrapping) on every access to another way. -/
def lruGeneralWay (setWidth wayWidth : ℕ) : ReplacementPolicy setWidth (2 ^ wayWidth) where
  State := Fin (2 ^ wayWidth) → BitVec setWidth → BitVec (wayWidth + 1)
  reset := fun w _ => BitVec.ofNat (wayWidth + 1) w
  replaceWay := fun s i => oldestWay (fun w => (s w i).toNat) ⟨0, Nat.two_pow_pos wayWidth⟩
  next := fun s i hit wr way =>
    if hit || wr then
      fun w k => if k = i then (if w = way then 0 else s w i + 1) else s w k
    else s

/-! ## The tag memory of one way -/

/-- The registers of `tag_ram`. -/
structure TagRam (setWidth tagWidth payloadWidth : ℕ) where
  v : BitVec setWidth → Bool
  tags : BitVec setWidth → BitVec tagWidth
  payloads : BitVec setWidth → BitVec payloadWidth

variable {setWidth tagWidth payloadWidth ways : ℕ}

/-- `hit_o` of `tag_ram`. -/
def TagRam.hit (r : TagRam setWidth tagWidth payloadWidth) (idx : BitVec setWidth)
    (tag : BitVec tagWidth) : Bool :=
  tag == r.tags idx && r.v idx

/-- `payload_o` of `tag_ram`. -/
def TagRam.payload (r : TagRam setWidth tagWidth payloadWidth) (idx : BitVec setWidth)
    (tag : BitVec tagWidth) : BitVec payloadWidth :=
  if r.hit idx tag then r.payloads idx else 0

/-- One clock edge of `tag_ram` with `valid_i` tied to one. -/
def TagRam.next (r : TagRam setWidth tagWidth payloadWidth) (resetn : Bool)
    (idx : BitVec setWidth) (tag : BitVec tagWidth) (we : Bool)
    (payload : BitVec payloadWidth) : TagRam setWidth tagWidth payloadWidth :=
  if !resetn then { r with v := fun _ => false }
  else if we then
    { v := fun k => if k = idx then true else r.v k
      tags := fun k => if k = idx then tag else r.tags k
      payloads := fun k => if k = idx then payload else r.payloads k }
  else r

/-! ## The cache -/

/-- The registers of `associative_cache`. -/
structure AssociativeCache (tagWidth payloadWidth : ℕ)
    (policy : ReplacementPolicy setWidth ways) where
  way : Fin ways → TagRam setWidth tagWidth payloadWidth
  repl : policy.State

namespace AssociativeCache

variable {policy : ReplacementPolicy setWidth ways}

/-- `set_idx`, the low bits of the tag. -/
def setIdx (setWidth : ℕ) (tag : BitVec tagWidth) : BitVec setWidth := tag.setWidth setWidth

/-- `tag_portion`, the remaining bits, kept here at full width with leading zeros. -/
def tagPortion (setWidth : ℕ) (tag : BitVec tagWidth) : BitVec tagWidth := tag >>> setWidth

/-- `way_hit`. -/
def wayHit (c : AssociativeCache tagWidth payloadWidth policy) (tag : BitVec tagWidth)
    (j : Fin ways) : Bool :=
  (c.way j).hit (setIdx setWidth tag) (tagPortion setWidth tag)

/-- `hit_way`: the loop leaves the last way that hits, if any. -/
def hitWay? (c : AssociativeCache tagWidth payloadWidth policy) (tag : BitVec tagWidth) :
    Option (Fin ways) :=
  (List.finRange ways).foldl (fun found j => if c.wayHit tag j then some j else found) none

/-- `hit_o`. -/
def hit (c : AssociativeCache tagWidth payloadWidth policy) (tag : BitVec tagWidth) : Bool :=
  (c.hitWay? tag).isSome

/-- `payload_o` on a hit.  Without one the module outputs the payload port of way 0,
which `tag_ram` holds at zero. -/
def payload (c : AssociativeCache tagWidth payloadWidth policy) (tag : BitVec tagWidth) :
    BitVec payloadWidth :=
  match c.hitWay? tag with
  | some j => (c.way j).payload (setIdx setWidth tag) (tagPortion setWidth tag)
  | none => 0

/-- The way an access goes to: the hit way, else the way to be replaced. -/
def accessWay (c : AssociativeCache tagWidth payloadWidth policy) (tag : BitVec tagWidth) :
    Fin ways :=
  (c.hitWay? tag).getD (policy.replaceWay c.repl (setIdx setWidth tag))

/-- One clock edge of `associative_cache`. -/
def next (c : AssociativeCache tagWidth payloadWidth policy) (resetn : Bool)
    (tag : BitVec tagWidth) (we valid : Bool) (payloadI : BitVec payloadWidth) :
    AssociativeCache tagWidth payloadWidth policy where
  way := fun j => (c.way j).next resetn (setIdx setWidth tag) (tagPortion setWidth tag)
    (we && valid && j == c.accessWay tag) payloadI
  repl := if !resetn then policy.reset
    else policy.next c.repl (setIdx setWidth tag) (c.hit tag) (we && valid) (c.accessWay tag)

/-! ## Lookups -/

/-- Set index and tag portion together determine the tag. -/
theorem eq_of_setIdx_of_tagPortion {t t' : BitVec tagWidth}
    (hs : setIdx setWidth t = setIdx setWidth t')
    (ht : tagPortion setWidth t = tagPortion setWidth t') : t = t' := by
  apply BitVec.eq_of_getLsbD_eq
  intro i hi
  by_cases hlt : i < setWidth
  · have := congrArg (fun x => x.getLsbD i) hs
    simpa [setIdx, hlt] using this
  · have := congrArg (fun x => x.getLsbD (i - setWidth)) ht
    simpa [tagPortion, show setWidth + (i - setWidth) = i by omega] using this

/-- The scan of `hit_way` ends on a way that hits, or on what it started with. -/
theorem foldl_hit {α : Type} (f : α → Bool) (l : List α) (init : Option α) :
    (l.foldl (fun found j => if f j then some j else found) init = init ∧ ∀ j ∈ l, f j = false) ∨
      ∃ j, l.foldl (fun found j => if f j then some j else found) init = some j ∧
        f j = true := by
  induction l generalizing init with
  | nil => exact .inl ⟨rfl, by simp⟩
  | cons a l ih =>
    rw [List.foldl_cons]
    rcases ih (if f a then some a else init) with ⟨h, hall⟩ | h
    · cases ha : f a with
      | true => exact .inr ⟨a, by rw [ha] at h; simpa using h, ha⟩
      | false => exact .inl ⟨by rw [ha] at h; simpa using h, by simp [ha]; simpa using hall⟩
    · exact .inr h

variable {c : AssociativeCache tagWidth payloadWidth policy} {tag : BitVec tagWidth}

theorem hitWay?_cases (c : AssociativeCache tagWidth payloadWidth policy)
    (tag : BitVec tagWidth) :
    (c.hitWay? tag = none ∧ ∀ j, c.wayHit tag j = false) ∨
      ∃ j, c.hitWay? tag = some j ∧ c.wayHit tag j = true := by
  rcases foldl_hit (c.wayHit tag) (List.finRange ways) none with ⟨h, hall⟩ | h
  · exact .inl ⟨h, fun j => hall j (List.mem_finRange j)⟩
  · exact .inr h

theorem hit_eq_false_iff : c.hit tag = false ↔ ∀ j, c.wayHit tag j = false := by
  rcases hitWay?_cases c tag with ⟨h, hall⟩ | ⟨j, h, hj⟩
  · simp [hit, h, hall]
  · simp only [hit, h, Option.isSome_some, Bool.true_eq_false, false_iff]
    exact fun hall => by simp [hall j] at hj

/-- On a hit the payload is that of a way that hits. -/
theorem exists_wayHit (h : c.hit tag = true) :
    ∃ j, c.wayHit tag j = true ∧ c.payload tag = (c.way j).payloads (setIdx setWidth tag) := by
  rcases hitWay?_cases c tag with ⟨h', -⟩ | ⟨j, hj, hw⟩
  · simp [hit, h'] at h
  · refine ⟨j, hw, ?_⟩
    simp only [payload, hj, TagRam.payload]
    exact if_pos hw

/-- Lookups depend on the ways alone. -/
theorem hit_congr {c' : AssociativeCache tagWidth payloadWidth policy} (h : c'.way = c.way) :
    c'.hit tag = c.hit tag := by
  cases c
  cases c'
  cases h
  rfl

theorem payload_congr {c' : AssociativeCache tagWidth payloadWidth policy}
    (h : c'.way = c.way) : c'.payload tag = c.payload tag := by
  cases c
  cases c'
  cases h
  rfl

/-! ## One clock edge -/

variable {tag' : BitVec tagWidth} {we valid : Bool} {payloadI : BitVec payloadWidth}

/-- Without reset and write the ways stay. -/
theorem next_way_of_not_write (h : (we && valid) = false) :
    (c.next true tag we valid payloadI).way = c.way := by
  funext j
  simp [next, TagRam.next, h]

/-- After a reset nothing hits. -/
theorem hit_next_reset : (c.next false tag we valid payloadI).hit tag' = false := by
  rw [hit_eq_false_iff]
  intro j
  simp [wayHit, next, TagRam.next, TagRam.hit]

/-- An edge without write keeps a hit or, with the reset, removes it. -/
theorem hit_next_of_not_write (resetn : Bool) (h : (we && valid) = false) :
    (c.next resetn tag we valid payloadI).hit tag' = (resetn && c.hit tag') := by
  cases resetn with
  | true => rw [hit_congr (next_way_of_not_write h), Bool.true_and]
  | false => rw [hit_next_reset, Bool.false_and]

/-- A way hit after a write is the entry written or one that was there before. -/
theorem wayHit_next_write {j : Fin ways} (h : (c.next true tag true true payloadI).wayHit tag' j) :
    (tag' = tag ∧ ((c.next true tag true true payloadI).way j).payloads (setIdx setWidth tag')
        = payloadI) ∨
      (c.wayHit tag' j = true ∧
        ((c.next true tag true true payloadI).way j).payloads (setIdx setWidth tag')
          = (c.way j).payloads (setIdx setWidth tag')) := by
  by_cases hj : j = c.accessWay tag
  · by_cases hi : setIdx setWidth tag' = setIdx setWidth tag
    · left
      have ht : tagPortion setWidth tag' = tagPortion setWidth tag := by
        simpa [wayHit, TagRam.hit, next, TagRam.next, ← hj, hi] using h
      exact ⟨eq_of_setIdx_of_tagPortion hi ht, by simp [next, TagRam.next, ← hj, hi]⟩
    · right
      simpa [wayHit, TagRam.hit, next, TagRam.next, ← hj, hi] using h
  · right
    simpa [wayHit, TagRam.hit, next, TagRam.next, hj] using h

/-- A write after a miss is found by the next lookup. -/
theorem lookup_next_write (payloadI : BitVec payloadWidth) (hm : c.hit tag = false) :
    (c.next true tag true true payloadI).hit tag = true ∧
      (c.next true tag true true payloadI).payload tag = payloadI := by
  have hmiss := hit_eq_false_iff.1 hm
  have hother : ∀ j, (c.next true tag true true payloadI).wayHit tag j = true →
      j = c.accessWay tag := by
    intro j hj
    by_contra hne
    have : (c.next true tag true true payloadI).wayHit tag j = c.wayHit tag j := by
      simp [wayHit, next, TagRam.next, hne]
    rw [this, hmiss j] at hj
    exact absurd hj (by decide)
  have hown : (c.next true tag true true payloadI).wayHit tag (c.accessWay tag) = true := by
    simp [wayHit, TagRam.hit, next, TagRam.next]
  have hhit : (c.next true tag true true payloadI).hit tag = true := by
    by_contra hno
    rw [Bool.not_eq_true, hit_eq_false_iff] at hno
    rw [hno] at hown
    exact absurd hown (by decide)
  obtain ⟨j, hj, hp⟩ := exists_wayHit hhit
  refine ⟨hhit, ?_⟩
  rw [hp, hother j hj]
  simp [next, TagRam.next]

/-! ## Sound entries -/

/-- Every entry that can hit satisfies `good` for its tag. -/
def Sound (c : AssociativeCache tagWidth payloadWidth policy)
    (good : BitVec tagWidth → BitVec payloadWidth → Prop) : Prop :=
  ∀ tag j, c.wayHit tag j = true → good tag ((c.way j).payloads (setIdx setWidth tag))

variable {good : BitVec tagWidth → BitVec payloadWidth → Prop}

theorem Sound.payload (h : c.Sound good) (hh : c.hit tag = true) : good tag (c.payload tag) := by
  obtain ⟨j, hj, hp⟩ := exists_wayHit hh
  exact hp ▸ h tag j hj

theorem Sound.mono {good' : BitVec tagWidth → BitVec payloadWidth → Prop} (h : c.Sound good)
    (hg : ∀ t q, good t q → good' t q) : c.Sound good' :=
  fun t j hj => hg _ _ (h t j hj)

/-- Nothing that can hit, nothing to be sound about. -/
theorem sound_of_not_hit (h : ∀ tag, c.hit tag = false) : c.Sound good := by
  intro tag j hj
  simp [hit_eq_false_iff.1 (h tag) j] at hj

/-- Soundness is kept by every edge whose write, if any, is good. -/
theorem Sound.next (h : c.Sound good) (resetn : Bool)
    (hw : (we && valid) = true → good tag payloadI) :
    (c.next resetn tag we valid payloadI).Sound good := by
  cases resetn with
  | false => exact sound_of_not_hit fun t => hit_next_reset
  | true =>
    cases hwv : (we && valid) with
    | false =>
      intro t j hj
      have hway : (c.next true tag we valid payloadI).way = c.way := next_way_of_not_write hwv
      simp only [wayHit, hway] at hj ⊢
      exact h t j hj
    | true =>
      obtain ⟨rfl, rfl⟩ : we = true ∧ valid = true := by simpa using hwv
      intro t j hj
      rcases wayHit_next_write hj with ⟨rfl, hp⟩ | ⟨hold, hp⟩
      · rw [hp]; exact hw rfl
      · rw [hp]; exact h t j hold

/-- After a miss, a write may make an end of what was good for its own tag. -/
theorem Sound.next_miss {good' : BitVec tagWidth → BitVec payloadWidth → Prop} (h : c.Sound good)
    (hm : c.hit tag = false) (hold : ∀ t v, t ≠ tag → good t v → good' t v)
    (hnew : good' tag payloadI) : (c.next true tag true true payloadI).Sound good' := by
  intro t j hj
  rcases wayHit_next_write hj with ⟨rfl, hp⟩ | ⟨hh, hp⟩
  · rw [hp]
    exact hnew
  · rw [hp]
    refine hold t _ ?_ (h t j hh)
    rintro rfl
    rw [hit_eq_false_iff.1 hm j] at hh
    exact absurd hh (by decide)

/-! ## The lines held -/

/-- The split of a tag into set index and tag portion. -/
def keying (setWidth tagWidth : ℕ) :
    CacheLines.Keying (BitVec tagWidth) (BitVec setWidth) (BitVec tagWidth) where
  idx := setIdx setWidth
  tag := tagPortion setWidth
  inj := eq_of_setIdx_of_tagPortion

/-- The valid entries of all ways. -/
def lines (c : AssociativeCache tagWidth payloadWidth policy) :
    CacheLines.Lines (Fin ways) (BitVec setWidth) (BitVec tagWidth) (BitVec payloadWidth) :=
  fun j k => if (c.way j).v k then some ((c.way j).tags k, (c.way j).payloads k) else none

theorem lines_eq_some_iff {j : Fin ways} {k : BitVec setWidth} {t : BitVec tagWidth}
    {w : BitVec payloadWidth} :
    c.lines j k = some (t, w) ↔
      (c.way j).v k = true ∧ (c.way j).tags k = t ∧ (c.way j).payloads k = w := by
  unfold lines
  split <;> simp_all

theorem wayHit_iff_holds {j : Fin ways} :
    c.wayHit tag j = true ↔ CacheLines.Holds (keying setWidth tagWidth) c.lines tag j := by
  simp only [wayHit, TagRam.hit, CacheLines.Holds, lines_eq_some_iff, keying, Bool.and_eq_true,
    beq_iff_eq]
  constructor
  · rintro ⟨ht, hv⟩
    exact ⟨_, hv, ht.symm, rfl⟩
  · rintro ⟨w, hv, ht, -⟩
    exact ⟨ht.symm, hv⟩

theorem hit_eq_false_iff_holds :
    c.hit tag = false ↔ ∀ j, ¬ CacheLines.Holds (keying setWidth tagWidth) c.lines tag j := by
  rw [hit_eq_false_iff]
  apply forall_congr'
  intro j
  rw [← wayHit_iff_holds, Bool.not_eq_true]

/-- An access goes to the way that holds the line, or to any way if none does. -/
theorem target_accessWay (c : AssociativeCache tagWidth payloadWidth policy)
    (tag : BitVec tagWidth) :
    CacheLines.Target (keying setWidth tagWidth) c.lines tag (c.accessWay tag) := by
  rcases hitWay?_cases c tag with ⟨-, hall⟩ | ⟨j, hj, hw⟩
  · right
    intro i hi
    rw [← wayHit_iff_holds, hall i] at hi
    exact absurd hi (by decide)
  · left
    rw [accessWay, hj, Option.getD_some]
    exact wayHit_iff_holds.1 hw

/-- On a hit the payload is the word the line must agree with. -/
theorem payload_of_agrees {m : BitVec tagWidth → BitVec payloadWidth}
    (h : CacheLines.Agrees (keying setWidth tagWidth) c.lines m) (hh : c.hit tag = true) :
    c.payload tag = m tag := by
  obtain ⟨j, hj, hp⟩ := exists_wayHit hh
  rw [hp]
  obtain ⟨w, hw⟩ := wayHit_iff_holds.1 hj
  have hwm := h.eq hw
  obtain ⟨-, -, rfl⟩ := lines_eq_some_iff.1 hw
  exact hwm

/-- A write puts the line into the way accessed. -/
theorem lines_next_write :
    (c.next true tag true true payloadI).lines =
      CacheLines.put (keying setWidth tagWidth) c.lines (c.accessWay tag) tag payloadI := by
  funext j k
  by_cases hj : j = c.accessWay tag
  · subst hj
    by_cases hk : k = setIdx setWidth tag
    · simp [lines, next, TagRam.next, CacheLines.put, keying, hk]
    · simp [lines, next, TagRam.next, CacheLines.put, keying, hk]
  · simp [lines, next, TagRam.next, CacheLines.put, hj]

theorem lines_next_of_not_write (h : (we && valid) = false) :
    (c.next true tag we valid payloadI).lines = c.lines := by
  funext j k
  simp only [lines, next_way_of_not_write h]

theorem lines_next_reset : (c.next false tag we valid payloadI).lines = fun _ _ => none := by
  funext j k
  simp [lines, next, TagRam.next]

end AssociativeCache

end KianRiscV
