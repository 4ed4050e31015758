/-
# Which way is replaced

The `lru_replacement` of `associative_cache.v`, for two, four and in general `WAYS`
ways, against the recency of the accesses to a set.

* `lru_two_way_oldest` : with two ways the way replaced is the one used least recently;
* `lru_four_way_tree_iff` : with four ways the tree of the lower half is read for both
  halves, so the way replaced is right only when both halves stand alike;
* `lru_general_way_oldest` : in general the ages are counted modulo `2 * WAYS`, and the
  way replaced is the oldest until a count runs over.
-/
import KianRiscV.AssociativeCache
import KianRiscV.Recency

namespace KianRiscV

/-! ## Accesses -/

/-- What a replacement policy sees of a cycle. -/
structure PolicyInput (setWidth ways : ℕ) where
  setIdx : BitVec setWidth
  hit : Bool
  wr : Bool
  way : Fin ways

namespace ReplacementPolicy

variable {setWidth ways : ℕ} {policy : ReplacementPolicy setWidth ways}
  {inp : ℕ → PolicyInput setWidth ways} {i : BitVec setWidth} {n : ℕ}

/-- The way of set `i` accessed in a cycle, if any. -/
def accessed (inp : ℕ → PolicyInput setWidth ways) (i : BitVec setWidth) (n : ℕ) :
    Option (Fin ways) :=
  if ((inp n).hit || (inp n).wr) && (inp n).setIdx == i then some (inp n).way else none

/-- The registers of the policy `n` cycles after the reset. -/
def after (policy : ReplacementPolicy setWidth ways) (inp : ℕ → PolicyInput setWidth ways)
    (n : ℕ) : policy.State :=
  Sync.run (fun s p => policy.next s p.setIdx p.hit p.wr p.way) policy.reset inp n

/-- The way of set `i` to be replaced `n` cycles after the reset. -/
def wayAfter (policy : ReplacementPolicy setWidth ways) (inp : ℕ → PolicyInput setWidth ways)
    (n : ℕ) (i : BitVec setWidth) : Fin ways :=
  policy.replaceWay (policy.after inp n) i

/-- A policy that keeps something per set and updates it by the accesses to that set. -/
def PerSet {β : Type} (policy : ReplacementPolicy setWidth ways)
    (view : policy.State → BitVec setWidth → β) (update : β → Fin ways → β) : Prop :=
  ∀ s j hit wr way i, view (policy.next s j hit wr way) i
    = if hit || wr then (if i = j then update (view s j) way else view s i) else view s i

/-- What is kept of a set moves with the accesses to this set alone. -/
theorem PerSet.after_succ {β : Type} {view : policy.State → BitVec setWidth → β}
    {update : β → Fin ways → β} (h : PerSet policy view update)
    (inp : ℕ → PolicyInput setWidth ways) (i : BitVec setWidth) (n : ℕ) :
    view (policy.after inp (n + 1)) i
      = ((accessed inp i n).map (update (view (policy.after inp n) i))).getD
          (view (policy.after inp n) i) := by
  have hstep : policy.after inp (n + 1)
      = policy.next (policy.after inp n) (inp n).setIdx (inp n).hit (inp n).wr (inp n).way := rfl
  rw [hstep, h, accessed]
  by_cases hi : i = (inp n).setIdx
  · subst hi
    by_cases ha : ((inp n).hit || (inp n).wr) = true
    · rw [if_pos ha, if_pos rfl, if_pos (by simp [ha])]
      rfl
    · rw [if_neg ha, if_neg (by simp [ha])]
      rfl
  · rw [if_neg hi, ite_self, if_neg (by simp [Ne.symm hi])]
    rfl

end ReplacementPolicy

open ReplacementPolicy Recency

section

variable {setWidth : ℕ} {i : BitVec setWidth} {n : ℕ}

/-! ## Two ways -/

section TwoWay

variable {inp : ℕ → PolicyInput setWidth 2}

theorem lruTwoWay_perSet :
    PerSet (lruTwoWay setWidth) (fun s i => s i) fun _ way => decide (way = 1) := by
  intro s j hit wr way i
  cases ha : hit || wr with
  | false => simp [lruTwoWay, ha]
  | true => simp [lruTwoWay, ha]

/-- The bit of a set is up exactly when way 1 was used last. -/
theorem lruTwoWay_after (inp : ℕ → PolicyInput setWidth 2) (i : BitVec setWidth) (n : ℕ) :
    (lruTwoWay setWidth).after inp n i
      = decide (last (accessed inp i) 0 n < last (accessed inp i) 1 n) := by
  induction n with
  | zero => simp [after, lruTwoWay, last]
  | succ n ih =>
    rw [lruTwoWay_perSet.after_succ inp i n]
    cases hu : accessed inp i n with
    | none =>
      rw [last_succ_of_ne (by simp [hu]), last_succ_of_ne (by simp [hu])]
      exact ih
    | some w =>
      have h0 := last_le (accessed inp i) 0 n
      have h1 := last_le (accessed inp i) 1 n
      obtain rfl | rfl : w = 0 ∨ w = 1 := by omega
      · rw [last_succ_self hu, last_succ_of_ne (by simp [hu]), decide_eq_false (by omega)]
        rfl
      · rw [last_succ_self hu, last_succ_of_ne (by simp [hu]), decide_eq_true (by omega)]
        rfl

/-- With two ways the way to be replaced is the one used least recently. -/
theorem lru_two_way_oldest (inp : ℕ → PolicyInput setWidth 2) (i : BitVec setWidth) (n : ℕ) :
    Oldest (accessed inp i) n ((lruTwoWay setWidth).wayAfter inp n i) := by
  have hway : (lruTwoWay setWidth).wayAfter inp n i
      = if (lruTwoWay setWidth).after inp n i then 0 else 1 := rfl
  rw [hway, lruTwoWay_after]
  intro b
  obtain rfl | rfl : b = 0 ∨ b = 1 := by omega
  · split
    · exact le_rfl
    · simp_all
  · split
    · simp_all [Nat.le_of_lt]
    · exact le_rfl

end TwoWay

/-! ## Four ways -/

section FourWay

variable {inp : ℕ → PolicyInput setWidth 4}

/-- The other way of the same half: ways 0 and 1 form one half, ways 2 and 3 the other. -/
def sibling (w : Fin 4) : Fin 4 :=
  if w = 0 then 1 else if w = 1 then 0 else if w = 2 then 3 else 2

/-- What a tree of three bits is to answer: a way of the half that was not accessed last, and
of its two ways the one that was not accessed last. -/
def TreeVictim (used : ℕ → Option (Fin 4)) (n : ℕ) (w : Fin 4) : Prop :=
  max (last used w n) (last used (sibling w) n)
      < max (last used (w + 2) n) (last used (sibling (w + 2)) n) ∧
    last used w n < last used (sibling w) n

/-- The update of the three bits of a set. -/
def treeUpdate (t : BitVec 3) (way : Fin 4) : BitVec 3 :=
  if way = 0 then BitVec.ofBool true ++ BitVec.ofBool (t.getLsbD 1) ++ 1#1
  else if way = 1 then BitVec.ofBool true ++ BitVec.ofBool (t.getLsbD 1) ++ 0#1
  else if way = 2 then 0#1 ++ 1#1 ++ BitVec.ofBool (t.getLsbD 0)
  else 0#1 ++ 0#1 ++ BitVec.ofBool (t.getLsbD 0)

theorem lruFourWay_perSet : PerSet (lruFourWay setWidth) (fun s i => s i) treeUpdate := by
  intro s j hit wr way i
  cases ha : hit || wr with
  | false => simp [lruFourWay, ha]
  | true => simp [lruFourWay, ha, treeUpdate]

/-- The three bits of a set tell the history of its accesses: bit 2 which half was accessed
last, bit 1 the order within the upper half and bit 0 that within the lower. -/
structure TreeTells (used : ℕ → Option (Fin 4)) (n : ℕ) (t : BitVec 3) : Prop where
  half : t.getLsbD 2 = decide (max (last used 2 n) (last used 3 n)
    < max (last used 0 n) (last used 1 n))
  upper : t.getLsbD 1 = decide (last used 3 n < last used 2 n)
  lower : t.getLsbD 0 = decide (last used 1 n < last used 0 n)

theorem getLsbD_treeUpdate (t : BitVec 3) (way : Fin 4) :
    (treeUpdate t way).getLsbD 2 = decide (way = 0 ∨ way = 1) ∧
      (treeUpdate t way).getLsbD 1
        = (if way = 0 ∨ way = 1 then t.getLsbD 1 else decide (way = 2)) ∧
      (treeUpdate t way).getLsbD 0
        = (if way = 0 ∨ way = 1 then decide (way = 0) else t.getLsbD 0) := by
  revert t way
  decide

variable {used : ℕ → Option (Fin 4)} {t : BitVec 3}

theorem TreeTells.idle (h : TreeTells used n t) (hu : used n = none) :
    TreeTells used (n + 1) t := by
  have hlast : ∀ w, last used w (n + 1) = last used w n :=
    fun w => last_succ_of_ne (by simp [hu])
  constructor
  · rw [h.half, hlast, hlast, hlast, hlast]
  · rw [h.upper, hlast, hlast]
  · rw [h.lower, hlast, hlast]

theorem TreeTells.access (h : TreeTells used n t) {w : Fin 4} (hu : used n = some w) :
    TreeTells used (n + 1) (treeUpdate t w) := by
  have hlast : ∀ v, last used v (n + 1) = if w = v then n + 1 else last used v n :=
    fun v => last_succ hu
  have h0 := last_le used 0 n
  have h1 := last_le used 1 n
  have h2 := last_le used 2 n
  have h3 := last_le used 3 n
  obtain ⟨hhalf, hupper, hlower⟩ := getLsbD_treeUpdate t w
  have hw : w = 0 ∨ w = 1 ∨ w = 2 ∨ w = 3 := by omega
  constructor
  · rw [hhalf]
    rcases hw with rfl | rfl | rfl | rfl <;> simp [hlast] <;> omega
  · rw [hupper, h.upper]
    rcases hw with rfl | rfl | rfl | rfl <;> simp [hlast] <;> omega
  · rw [hlower, h.lower]
    rcases hw with rfl | rfl | rfl | rfl <;> simp [hlast] <;> omega

/-- The bits of a set keep telling the history. -/
theorem lruFourWay_after (inp : ℕ → PolicyInput setWidth 4) (i : BitVec setWidth) (n : ℕ) :
    TreeTells (accessed inp i) n ((lruFourWay setWidth).after inp n i) := by
  induction n with
  | zero => constructor <;> simp [after, lruFourWay, last]
  | succ n ih =>
    rw [lruFourWay_perSet.after_succ inp i n]
    cases hu : accessed inp i n with
    | none => exact ih.idle hu
    | some w => exact ih.access hu

/-- With four ways the half to replace in is the one not accessed last, but the way in it is
read off the order of the lower half in either case.  So the way replaced is right exactly when
the upper half was accessed last, or both halves were last accessed at their first way, or
both at their second. -/
theorem lru_four_way_tree_iff (inp : ℕ → PolicyInput setWidth 4) (i : BitVec setWidth) (n : ℕ)
    (hall : ∀ w, 0 < last (accessed inp i) w n) :
    TreeVictim (accessed inp i) n ((lruFourWay setWidth).wayAfter inp n i) ↔
      max (last (accessed inp i) 0 n) (last (accessed inp i) 1 n)
          < max (last (accessed inp i) 2 n) (last (accessed inp i) 3 n) ∨
        (last (accessed inp i) 1 n < last (accessed inp i) 0 n ↔
          last (accessed inp i) 3 n < last (accessed inp i) 2 n) := by
  have ht := lruFourWay_after inp i n
  have hne : ∀ v w, v ≠ w → last (accessed inp i) v n ≠ last (accessed inp i) w n :=
    fun v w hvw h => hvw (eq_of_last_eq (hall v) h)
  have h01 := hne 0 1 (by decide)
  have h02 := hne 0 2 (by decide)
  have h03 := hne 0 3 (by decide)
  have h12 := hne 1 2 (by decide)
  have h13 := hne 1 3 (by decide)
  have h23 := hne 2 3 (by decide)
  have hway : (lruFourWay setWidth).wayAfter inp n i
      = if ((lruFourWay setWidth).after inp n i).getLsbD 2 then
          (if ((lruFourWay setWidth).after inp n i).getLsbD 0 then 3 else 2)
        else (if ((lruFourWay setWidth).after inp n i).getLsbD 0 then 1 else 0) := rfl
  rw [hway, ht.half, ht.lower]
  -- The four ways the tree can answer.
  by_cases hhalf : max (last (accessed inp i) 2 n) (last (accessed inp i) 3 n)
      < max (last (accessed inp i) 0 n) (last (accessed inp i) 1 n)
  · by_cases hlow : last (accessed inp i) 1 n < last (accessed inp i) 0 n
    · rw [decide_eq_true hhalf, decide_eq_true hlow]
      change max (last (accessed inp i) 3 n) (last (accessed inp i) 2 n)
        < max (last (accessed inp i) 1 n) (last (accessed inp i) 0 n) ∧
          last (accessed inp i) 3 n < last (accessed inp i) 2 n ↔ _
      omega
    · rw [decide_eq_true hhalf, decide_eq_false hlow]
      change max (last (accessed inp i) 2 n) (last (accessed inp i) 3 n)
        < max (last (accessed inp i) 0 n) (last (accessed inp i) 1 n) ∧
          last (accessed inp i) 2 n < last (accessed inp i) 3 n ↔ _
      omega
  · by_cases hlow : last (accessed inp i) 1 n < last (accessed inp i) 0 n
    · rw [decide_eq_false hhalf, decide_eq_true hlow]
      change max (last (accessed inp i) 1 n) (last (accessed inp i) 0 n)
        < max (last (accessed inp i) 3 n) (last (accessed inp i) 2 n) ∧
          last (accessed inp i) 1 n < last (accessed inp i) 0 n ↔ _
      omega
    · rw [decide_eq_false hhalf, decide_eq_false hlow]
      change max (last (accessed inp i) 0 n) (last (accessed inp i) 1 n)
        < max (last (accessed inp i) 2 n) (last (accessed inp i) 3 n) ∧
          last (accessed inp i) 0 n < last (accessed inp i) 1 n ↔ _
      omega

/-- Ways 2, 3, 1 of set 0 and then way 0. -/
def upperThenLower (n : ℕ) : PolicyInput 4 4 where
  setIdx := 0
  hit := true
  wr := false
  way := [2, 3, 1].getD n 0

/-- After these four accesses way 3 is replaced, which was used after way 2. -/
theorem lru_four_way_tree_iff_upperThenLower :
    ¬ TreeVictim (accessed upperThenLower 0) 4 ((lruFourWay 4).wayAfter upperThenLower 4 0) := by
  rw [lru_four_way_tree_iff upperThenLower 0 4 (by decide +kernel)]
  decide +kernel

theorem four_way_replaces_later :
    ¬ ∀ (inp : ℕ → PolicyInput 4 4) (i : BitVec 4) (n : ℕ),
      (∀ w, 0 < last (accessed inp i) w n) →
        TreeVictim (accessed inp i) n ((lruFourWay 4).wayAfter inp n i) := by
  intro h
  have hvictim := h upperThenLower 0 4 (by decide +kernel)
  have hlast : ¬ last (accessed upperThenLower 0) ((lruFourWay 4).wayAfter upperThenLower 4 0) 4
      < last (accessed upperThenLower 0)
          (sibling ((lruFourWay 4).wayAfter upperThenLower 4 0)) 4 := by
    decide +kernel
  exact hlast hvictim.2

end FourWay

/-! ## Any number of ways -/

section GeneralWay

variable {wayWidth : ℕ} {inp : ℕ → PolicyInput setWidth (2 ^ wayWidth)}

/-- The search ends on a way of largest age. -/
theorem le_oldestWay {ways : ℕ} (age : Fin ways → ℕ) (start w : Fin ways) :
    age w ≤ age (oldestWay age start) := by
  have hfold : ∀ (l : List (Fin ways)) (best : Fin ways),
      age best ≤ age (l.foldl (fun best k => if age best < age k then k else best) best) ∧
        ∀ k ∈ l,
          age k ≤ age (l.foldl (fun best k => if age best < age k then k else best) best) := by
    intro l
    induction l with
    | nil =>
      intro best
      exact ⟨le_rfl, by simp⟩
    | cons a l ih =>
      intro best
      rw [List.foldl_cons]
      by_cases hlt : age best < age a
      · rw [if_pos hlt]
        obtain ⟨ha, hl⟩ := ih a
        refine ⟨by omega, ?_⟩
        intro k hk
        rcases List.mem_cons.1 hk with rfl | hk
        · exact ha
        · exact hl k hk
      · rw [if_neg hlt]
        obtain ⟨hb, hl⟩ := ih best
        refine ⟨hb, ?_⟩
        intro k hk
        rcases List.mem_cons.1 hk with rfl | hk
        · omega
        · exact hl k hk
  exact (hfold (List.finRange ways) start).2 w (List.mem_finRange w)

theorem lruGeneralWay_perSet :
    PerSet (lruGeneralWay setWidth wayWidth) (fun s i w => s w i)
      fun ages way w => if w = way then 0 else ages w + 1 := by
  intro s j hit wr way i
  funext w
  cases ha : hit || wr with
  | false => simp [lruGeneralWay, ha]
  | true =>
    by_cases hi : i = j
    · simp [lruGeneralWay, ha, hi]
    · simp [lruGeneralWay, ha, hi]

/-- The counter of a way holds its age, modulo twice the number of ways. -/
theorem lruGeneralWay_after (inp : ℕ → PolicyInput setWidth (2 ^ wayWidth))
    (i : BitVec setWidth) (n : ℕ) (w : Fin (2 ^ wayWidth)) :
    ((lruGeneralWay setWidth wayWidth).after inp n w i).toNat
      = age Fin.val (accessed inp i) w n % 2 ^ (wayWidth + 1) := by
  induction n with
  | zero => exact BitVec.toNat_ofNat _ _
  | succ n ih =>
    have hnext := congrFun (lruGeneralWay_perSet.after_succ inp i n) w
    cases hu : accessed inp i n with
    | none =>
      rw [hu] at hnext
      rw [age_succ_none hu, ← ih]
      exact congrArg BitVec.toNat hnext
    | some v =>
      rw [hu] at hnext
      have hcount : (lruGeneralWay setWidth wayWidth).after inp (n + 1) w i
          = if w = v then 0#_ else (lruGeneralWay setWidth wayWidth).after inp n w i + 1#_ := hnext
      rw [hcount]
      by_cases hv : w = v
      · subst hv
        rw [age_succ_self hu, if_pos rfl, BitVec.toNat_zero, Nat.zero_mod]
      · rw [age_succ_of_ne hu (Ne.symm hv), if_neg hv, BitVec.toNat_add, ih, Nat.mod_add_mod,
          BitVec.toNat_one (Nat.succ_pos wayWidth)]

/-- The way replaced has the largest counter. -/
theorem counter_le_wayAfter (inp : ℕ → PolicyInput setWidth (2 ^ wayWidth))
    (i : BitVec setWidth) (n : ℕ) (w : Fin (2 ^ wayWidth)) :
    age Fin.val (accessed inp i) w n % 2 ^ (wayWidth + 1)
      ≤ age Fin.val (accessed inp i) ((lruGeneralWay setWidth wayWidth).wayAfter inp n i) n
          % 2 ^ (wayWidth + 1) := by
  rw [← lruGeneralWay_after, ← lruGeneralWay_after]
  exact le_oldestWay (fun w => ((lruGeneralWay setWidth wayWidth).after inp n w i).toNat) _ w

/-- While no count has run over, the way replaced is one used least recently. -/
theorem oldest_wayAfter
    (hage : ∀ w, age Fin.val (accessed inp i) w n < 2 ^ (wayWidth + 1)) :
    Oldest (accessed inp i) n ((lruGeneralWay setWidth wayWidth).wayAfter inp n i) := by
  apply Oldest.of_age
  intro w
  have h := counter_le_wayAfter inp i n w
  rw [Nat.mod_eq_of_lt (hage w), Nat.mod_eq_of_lt (hage _)] at h
  exact h

/-- The first count to run over, once every way has been used, is that of the oldest way, and
makes it look like the youngest. -/
theorem not_oldest_wayAfter (hways : 2 ≤ wayWidth)
    (hage : ∀ w, age Fin.val (accessed inp i) w n < 2 ^ (wayWidth + 1))
    (hall : ∀ w, 0 < last (accessed inp i) w n) {w : Fin (2 ^ wayWidth)}
    (hw : age Fin.val (accessed inp i) w (n + 1) = 2 ^ (wayWidth + 1)) :
    ¬ Oldest (accessed inp i) (n + 1)
      ((lruGeneralWay setWidth wayWidth).wayAfter inp (n + 1) i) := by
  have hfour : 2 ^ 2 ≤ 2 ^ wayWidth := Nat.pow_le_pow_right (by decide) hways
  obtain ⟨a, hu, haw⟩ : ∃ a, accessed inp i n = some a ∧ a ≠ w := by
    cases hu : accessed inp i n with
    | none =>
      rw [age_succ_none hu] at hw
      exact absurd hw (hage w).ne
    | some a =>
      refine ⟨a, rfl, ?_⟩
      rintro rfl
      rw [age_succ_self hu] at hw
      exact absurd hw.symm (Nat.two_pow_pos _).ne'
  rw [age_succ_of_ne hu haw] at hw
  -- Everything else was used later and is younger.
  have hlater : ∀ v, v ≠ w → last (accessed inp i) w n < last (accessed inp i) v n := by
    intro v hv
    rcases Nat.lt_trichotomy (last (accessed inp i) w n) (last (accessed inp i) v n) with h | h | h
    · exact h
    · exact absurd (eq_of_last_eq (hall w) h).symm hv
    · have := age_lt_age_of_last_lt Fin.val h
      have := hage v
      omega
  obtain ⟨v, hva, hvw⟩ : ∃ v : Fin (2 ^ wayWidth), v ≠ a ∧ v ≠ w := by
    by_contra hno
    push Not at hno
    have h0 := hno ⟨0, by omega⟩
    have h1 := hno ⟨1, by omega⟩
    have h2 := hno ⟨2, by omega⟩
    simp only [ne_eq, Fin.ext_iff] at h0 h1 h2
    omega
  have hyoung := age_lt_age_of_last_lt Fin.val (hlater v hvw)
  intro hold
  have hle := counter_le_wayAfter inp i (n + 1) v
  rw [age_succ_of_ne hu hva.symm, Nat.mod_eq_of_lt (by omega)] at hle
  by_cases hx : (lruGeneralWay setWidth wayWidth).wayAfter inp (n + 1) i = w
  · rw [hx, age_succ_of_ne hu haw, hw, Nat.mod_self] at hle
    omega
  · have hw' := hold w
    have hlast : last (accessed inp i) w (n + 1) = last (accessed inp i) w n :=
      last_succ_of_ne (by simpa [hu] using haw)
    rw [hlast] at hw'
    by_cases hxa : (lruGeneralWay setWidth wayWidth).wayAfter inp (n + 1) i = a
    · rw [hxa, last_succ_self hu] at hw'
      have := last_le (accessed inp i) w n
      omega
    · rw [last_succ_of_ne (by simpa [hu] using Ne.symm hxa)] at hw'
      have := hlater _ hx
      omega

/-- With eight ways, the way replaced is one used least recently in every state in which no age
has reached sixteen.  The first age to reach it, once every way has been used, has another way
replaced. -/
theorem lru_general_way_oldest (inp : ℕ → PolicyInput setWidth (2 ^ 3)) (i : BitVec setWidth)
    (n : ℕ) (hage : ∀ w, age Fin.val (accessed inp i) w n < 16) :
    Oldest (accessed inp i) n ((lruGeneralWay setWidth 3).wayAfter inp n i) ∧
      ((∀ w, 0 < last (accessed inp i) w n) →
        (∃ w, age Fin.val (accessed inp i) w (n + 1) = 16) →
          ¬ Oldest (accessed inp i) (n + 1) ((lruGeneralWay setWidth 3).wayAfter inp (n + 1) i)) := by
  refine ⟨oldest_wayAfter hage, ?_⟩
  rintro hall ⟨w, hw⟩
  exact not_oldest_wayAfter (by decide) hage hall hw

/-- Ways 0 to 6 of set 0, in turn. -/
def sevenInTurn (n : ℕ) : PolicyInput 3 (2 ^ 3) where
  setIdx := 0
  hit := true
  wr := false
  way := ⟨n % 7, by have := Nat.mod_lt n (show 0 < 7 by decide); omega⟩

/-- Seven accesses leave way 7 to be replaced. -/
theorem lru_general_way_oldest_seven :
    Oldest (accessed sevenInTurn 0) 7 ((lruGeneralWay 3 3).wayAfter sevenInTurn 7 0) :=
  (lru_general_way_oldest sevenInTurn 0 7 (by decide +kernel)).1

/-- Set 0 is filled from way 7 down to way 0, which is then hit again and again. -/
def fillsThenHits (n : ℕ) : PolicyInput 3 (2 ^ 3) where
  setIdx := 0
  hit := decide (8 ≤ n)
  wr := decide (n < 8)
  way := ⟨7 - n, by omega⟩

/-- After nine hits the age of way 7, filled first, has run over, and way 6 is replaced. -/
theorem general_way_replaces_used :
    ¬ ∀ (inp : ℕ → PolicyInput 3 (2 ^ 3)) (i : BitVec 3) (n : ℕ),
      Oldest (accessed inp i) n ((lruGeneralWay 3 3).wayAfter inp n i) := by
  intro h
  have hlast : last (accessed fillsThenHits 0) 7 17
      < last (accessed fillsThenHits 0) ((lruGeneralWay 3 3).wayAfter fillsThenHits 17 0) 17 := by
    decide +kernel
  exact absurd (h fillsThenHits 0 17 7) (Nat.not_le.2 hlast)

end GeneralWay

end

end KianRiscV
