/-
# Lines of a set-associative store

A store of lines keyed by an index and a tag, in several ways.  Nothing is assumed about the
policy that chooses the way, only that a key already present is written in its own way.  Two
properties are kept by every such write:

* `Unique` : no key is present in two ways;
* `Agrees` : every line holds the word a memory has at the address of its key.
-/
import Mathlib.Logic.Function.Basic
import Mathlib.Tactic.Common

namespace CacheLines

variable {ι κ τ α ω : Type*}

/-- How addresses are split into an index and a tag, which together determine them. -/
structure Keying (α κ τ : Type*) where
  idx : α → κ
  tag : α → τ
  inj : ∀ {a b}, idx a = idx b → tag a = tag b → a = b

/-- The lines: in every way and at every index, a tag and a word, or nothing. -/
abbrev Lines (ι κ τ ω : Type*) := ι → κ → Option (τ × ω)

variable (K : Keying α κ τ)

/-- Way `j` holds the line of address `a`. -/
def Holds (L : Lines ι κ τ ω) (a : α) (j : ι) : Prop := ∃ v, L j (K.idx a) = some (K.tag a, v)

/-- No address is held in two ways. -/
def Unique (L : Lines ι κ τ ω) : Prop := ∀ a i j, Holds K L a i → Holds K L a j → i = j

/-- Every line is that of an address and holds the word of the memory `m` there. -/
def Agrees (L : Lines ι κ τ ω) (m : α → ω) : Prop :=
  ∀ j k t v, L j k = some (t, v) → ∃ a, K.idx a = k ∧ K.tag a = t ∧ v = m a

/-- Way `j` may be written for address `a`: it holds the line, or no way does. -/
def Target (L : Lines ι κ τ ω) (a : α) (j : ι) : Prop := Holds K L a j ∨ ∀ i, ¬ Holds K L a i

section

variable {K} {L : Lines ι κ τ ω} {m : α → ω} {a : α} {i j : ι} {v : ω}

theorem Target.eq (h : Target K L a j) (hu : Unique K L) (hi : Holds K L a i) : i = j := by
  rcases h with hj | hno
  · exact hu a i j hi hj
  · exact absurd hi (hno i)

/-- A line found for `a` holds the word of the memory at `a`. -/
theorem Agrees.eq (h : Agrees K L m) (hj : L j (K.idx a) = some (K.tag a, v)) : v = m a := by
  obtain ⟨b, hk, ht, rfl⟩ := h _ _ _ _ hj
  rw [K.inj hk ht]

/-- A word that no way holds changes in the memory alone. -/
theorem Agrees.update_of_miss [DecidableEq α] (h : Agrees K L m) (hm : ∀ i, ¬ Holds K L a i)
    (v : ω) : Agrees K L (Function.update m a v) := by
  intro i k t w hw
  obtain ⟨b, rfl, rfl, rfl⟩ := h i k t w hw
  refine ⟨b, rfl, rfl, ?_⟩
  have hba : b ≠ a := by
    rintro rfl
    exact hm i ⟨_, hw⟩
  rw [Function.update_of_ne hba]

end

variable [DecidableEq ι] [DecidableEq κ]

/-- The word `v` written for address `a` into way `j`. -/
def put (L : Lines ι κ τ ω) (j : ι) (a : α) (v : ω) : Lines ι κ τ ω :=
  Function.update L j (Function.update (L j) (K.idx a) (some (K.tag a, v)))

variable {K} {L : Lines ι κ τ ω} {m : α → ω} {a b : α} {i j : ι} {v : ω}

/-- A line after a write is the one written or one from before, in another place. -/
theorem put_cases {k : κ} {t : τ} {w : ω} (h : put K L j a v i k = some (t, w)) :
    (i = j ∧ k = K.idx a ∧ t = K.tag a ∧ w = v) ∨
      (¬ (i = j ∧ k = K.idx a) ∧ L i k = some (t, w)) := by
  by_cases hi : i = j
  · subst hi
    by_cases hk : k = K.idx a
    · subst hk
      left
      simp only [put, Function.update_self, Option.some.injEq, Prod.mk.injEq] at h
      exact ⟨rfl, rfl, h.1.symm, h.2.symm⟩
    · right
      rw [put, Function.update_self, Function.update_of_ne hk] at h
      exact ⟨fun hno => hk hno.2, h⟩
  · right
    rw [put, Function.update_of_ne hi] at h
    exact ⟨fun hno => hi hno.1, h⟩

/-- After a write for `a`, way `i` holds `b` if it is the address written or held it before. -/
theorem holds_put (h : Holds K (put K L j a v) b i) : (i = j ∧ b = a) ∨ Holds K L b i := by
  obtain ⟨w, hw⟩ := h
  rcases put_cases hw with ⟨hi, hk, ht, -⟩ | ⟨-, hold⟩
  · exact .inl ⟨hi, K.inj hk ht⟩
  · exact .inr ⟨w, hold⟩

theorem Unique.put (h : Unique K L) (ht : Target K L a j) : Unique K (put K L j a v) := by
  intro b i i' hi hi'
  rcases holds_put hi with ⟨rfl, rfl⟩ | hold
  · rcases holds_put hi' with ⟨rfl, -⟩ | hold'
    · rfl
    · exact (ht.eq h hold').symm
  · rcases holds_put hi' with ⟨rfl, rfl⟩ | hold'
    · exact ht.eq h hold
    · exact h b i i' hold hold'

/-- A word that changes in the memory and in the way that may hold it. -/
theorem Agrees.put [DecidableEq α] (h : Agrees K L m) (hu : Unique K L) (ht : Target K L a j) :
    Agrees K (put K L j a v) (Function.update m a v) := by
  intro i k t w hw
  rcases put_cases hw with ⟨-, rfl, rfl, rfl⟩ | ⟨hne, hold⟩
  · exact ⟨a, rfl, rfl, by rw [Function.update_self]⟩
  · obtain ⟨b, rfl, rfl, rfl⟩ := h i k t w hold
    refine ⟨b, rfl, rfl, ?_⟩
    have hba : b ≠ a := by
      rintro rfl
      exact hne ⟨ht.eq hu ⟨_, hold⟩, rfl⟩
    rw [Function.update_of_ne hba]

end CacheLines
