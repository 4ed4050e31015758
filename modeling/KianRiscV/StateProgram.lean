/-
# Programs over a state that may stop

A program over a state that may stop with an error is a function of `StateT σ (Except ε)`.
`Gives x s Q` says that `x`, run from `s`, comes to its end without an error, with a result and a
state in `Q`.  There is one rule for each way programs are put together, and one for loops: a
loop whose number of rounds is bounded by a decreasing measure needs no more rounds than that.
-/
import Mathlib.Logic.Basic
import Mathlib.Data.List.Range

namespace StateProgram

universe u v

variable {σ α β γ : Type u} {ε : Type v}

/-- Run from `s`, the program ends without an error and with `Q`. -/
def Gives (x : StateT σ (Except ε) α) (s : σ) (Q : α → σ → Prop) : Prop :=
  ∃ a t, x s = .ok (a, t) ∧ Q a t

section Rules

variable {x : StateT σ (Except ε) α} {f : α → StateT σ (Except ε) β} {s : σ} {a : α} {e : ε}
  {Q R : α → σ → Prop} {S : β → σ → Prop}

theorem Gives.mono (h : Gives x s Q) (hQR : ∀ a t, Q a t → R a t) : Gives x s R := by
  obtain ⟨a, t, hx, hQ⟩ := h
  exact ⟨a, t, hx, hQR a t hQ⟩

theorem Gives.of_eq {t : σ} (hx : x s = .ok (a, t)) (hQ : Q a t) : Gives x s Q := ⟨a, t, hx, hQ⟩

theorem gives_pure (h : Q a s) : Gives (pure a : StateT σ (Except ε) α) s Q := ⟨a, s, rfl, h⟩

theorem bind_eq {t : σ} (hx : x s = .ok (a, t)) : (x >>= f) s = f a t := by
  show x s >>= (fun p => f p.1 p.2) = f a t
  rw [hx]
  rfl

theorem bind_error (hx : x s = .error e) : (x >>= f) s = .error e := by
  show x s >>= (fun p => f p.1 p.2) = .error e
  rw [hx]
  rfl

theorem Gives.bind (hx : Gives x s Q) (hf : ∀ a t, Q a t → Gives (f a) t S) :
    Gives (x >>= f) s S := by
  obtain ⟨a, t, hx, hQ⟩ := hx
  obtain ⟨b, u, hb, hS⟩ := hf a t hQ
  exact ⟨b, u, (bind_eq hx).trans hb, hS⟩

/-- A first step whose result is known. -/
theorem Gives.bind_eq {t : σ} (hx : x s = .ok (a, t)) (hf : Gives (f a) t S) :
    Gives (x >>= f) s S := by
  obtain ⟨b, u, hb, hS⟩ := hf
  exact ⟨b, u, (StateProgram.bind_eq hx).trans hb, hS⟩

theorem gives_ite {c : Prop} [Decidable c] {y : StateT σ (Except ε) α} (hpos : c → Gives x s Q)
    (hneg : ¬ c → Gives y s Q) : Gives (if c then x else y) s Q := by
  by_cases hc : c
  · rw [if_pos hc]
    exact hpos hc
  · rw [if_neg hc]
    exact hneg hc

end Rules

/-! ## Loops -/

/-- Rounds of `body` until it gives a result; `e` when it takes more rounds than that. -/
def loop (e : ε) (body : β → StateT σ (Except ε) (β ⊕ γ)) : ℕ → β → StateT σ (Except ε) γ
  | 0, _ => throw e
  | n + 1, b => do
    match ← body b with
    | .inl b' => loop e body n b'
    | .inr c => pure c

/-- A loop with at most `n` rounds left before each of them. -/
theorem gives_loop {e : ε} {body : β → StateT σ (Except ε) (β ⊕ γ)} {Q : γ → σ → Prop}
    (I : ℕ → β → σ → Prop)
    (hbody : ∀ n b s, I n b s → Gives (body b) s fun r t => match r with
      | .inl b' => ∃ m < n, I m b' t
      | .inr c => Q c t) :
    ∀ (fuel n : ℕ) (b : β) (s : σ), I n b s → n < fuel → Gives (loop e body fuel b) s Q := by
  intro fuel
  induction fuel with
  | zero => exact fun n _ _ _ hn => absurd hn (Nat.not_lt_zero n)
  | succ fuel ih =>
    intro n b s hI hn
    rw [loop]
    refine (hbody n b s hI).bind fun r t hr => ?_
    cases r with
    | inl b' =>
      obtain ⟨m, hm, hI'⟩ := hr
      exact ih m b' t hI' (by omega)
    | inr c => exact gives_pure hr

/-- `f i` for all `i < n` in order. -/
def forRange {σ : Type} (n : ℕ) (f : ℕ → StateT σ (Except ε) Unit) : StateT σ (Except ε) Unit :=
  (List.range n).forM f

theorem gives_forM {σ α : Type} {f : α → StateT σ (Except ε) Unit} (I : List α → σ → Prop)
    (hstep : ∀ a l s, I (a :: l) s → Gives (f a) s fun _ t => I l t) :
    ∀ (l : List α) (s : σ), I l s → Gives (l.forM f) s fun _ t => I [] t := by
  intro l
  induction l with
  | nil => exact fun s hI => gives_pure hI
  | cons a l ih =>
    intro s hI
    exact (hstep a l s hI).bind fun _ t ht => ih t ht

theorem gives_forRange {σ : Type} {n : ℕ} {f : ℕ → StateT σ (Except ε) Unit} (I : ℕ → σ → Prop) {s : σ}
    (h0 : I 0 s) (hstep : ∀ i < n, ∀ s, I i s → Gives (f i) s fun _ t => I (i + 1) t) :
    Gives (forRange n f) s fun _ t => I n t := by
  have hrun := gives_forM (f := f) (fun l t => ∃ i ≤ n, l = List.range' i (n - i) ∧ I i t)
    (fun a l t ⟨i, hin, hl, hI⟩ => by
      have hpos : 0 < n - i := by
        by_contra hno
        rw [Nat.eq_zero_of_not_pos hno, List.range'_zero] at hl
        exact List.cons_ne_nil a l hl
      rw [show n - i = n - (i + 1) + 1 by omega, List.range'_succ] at hl
      obtain ⟨rfl, rfl⟩ := List.cons.inj hl
      exact (hstep a (by omega) t hI).mono fun _ u hu => ⟨a + 1, by omega, rfl, hu⟩)
    (List.range n) s ⟨0, Nat.zero_le n, by rw [List.range_eq_range', Nat.sub_zero], h0⟩
  refine hrun.mono fun _ t ⟨i, hin, hl, hI⟩ => ?_
  have hlen := congrArg List.length hl
  rw [List.length_nil, List.length_range'] at hlen
  obtain rfl : i = n := by omega
  exact hI

end StateProgram
