/-
# Redo logs

A disk with a redo log has a header, which names the blocks of a transaction, a slot for the new
contents of each of them, and the blocks themselves at home.  `Holds` says which contents a crash
leaves behind: those of the slots for the blocks the header names, and those at home for the others.

The lemmas are the writes of a commit and of a recovery in order: while the header is empty slots
are written freely; writing the header replaces all contents at once; blocks the header names are
written freely at home; and once they are up to date the header may be cleared.

`Store` says what the log is for: transactions of several writers become durable together, when
none of them is in the middle of its writes.
-/
import Mathlib.Data.Finset.Basic
import Mathlib.Data.List.Nodup
import Mathlib.Logic.Function.Basic

namespace RedoLog

variable {ι ν π : Type*}

/-! ## The disk -/

/-- The header, the slots and the blocks at home. -/
structure Disk (ι ν : Type*) where
  header : List ι
  slot : ℕ → ν
  home : ι → ν

/-- After a crash the blocks in `P` are found to have the contents `D`. -/
structure Holds (P : ι → Prop) (d : Disk ι ν) (D : ι → ν) : Prop where
  slots : ∀ t (h : t < d.header.length), d.slot t = D (d.header.get ⟨t, h⟩)
  rest : ∀ b, P b → b ∉ d.header → d.home b = D b

/-- The first `k` blocks of the header are up to date at home. -/
def Installed (d : Disk ι ν) (D : ι → ν) (k : ℕ) : Prop :=
  ∀ t (h : t < d.header.length), t < k → d.home (d.header.get ⟨t, h⟩) = D (d.header.get ⟨t, h⟩)

section Disk

variable {P : ι → Prop} {d : Disk ι ν} {D D' : ι → ν}

theorem holds_of_home (hd : d.header = []) (h : ∀ b, P b → d.home b = D b) : Holds P d D := by
  refine ⟨fun t ht => ?_, fun b hb _ => h b hb⟩
  rw [hd] at ht
  exact absurd ht (Nat.not_lt_zero t)

theorem Holds.home (h : Holds P d D) (hd : d.header = []) {b : ι} (hb : P b) : d.home b = D b :=
  h.rest b hb (by rw [hd]; exact List.not_mem_nil)

/-- Only the slots of the header and the blocks in `P` matter. -/
theorem Holds.congr {d' : Disk ι ν} (h : Holds P d D) (hh : d'.header = d.header)
    (hs : ∀ t < d.header.length, d'.slot t = d.slot t) (hr : ∀ b, P b → d'.home b = d.home b) :
    Holds P d' D := by
  obtain ⟨hslots, hrest⟩ := h
  cases d'
  subst hh
  exact ⟨fun t ht => (hs t ht).trans (hslots t ht), fun b hb hbl => (hr b hb).trans (hrest b hb hbl)⟩

theorem Installed.congr {d' : Disk ι ν} {k : ℕ} (h : Installed d D k)
    (hh : d'.header = d.header) (hr : ∀ b ∈ d.header, d'.home b = d.home b) : Installed d' D k := by
  cases d'
  subst hh
  exact fun t ht htk => (hr _ (List.get_mem _ _)).trans (h t ht htk)

/-- Writing the header replaces the contents of the blocks it names. -/
theorem Holds.commit (h : Holds P d D) (hd : d.header = []) {l : List ι}
    (hslots : ∀ t (ht : t < l.length), d.slot t = D' (l.get ⟨t, ht⟩))
    (hrest : ∀ b, P b → b ∉ l → D' b = D b) : Holds P { d with header := l } D' :=
  ⟨hslots, fun b hb hbl => (h.home hd hb).trans (hrest b hb hbl).symm⟩

variable [DecidableEq ι]

/-- A block the header names may be written at home. -/
theorem Holds.install (h : Holds P d D) {b : ι} (hb : b ∈ d.header) (v : ν) :
    Holds P { d with home := Function.update d.home b v } D := by
  refine ⟨h.slots, fun c hc hcl => ?_⟩
  have hne : c ≠ b := fun heq => hcl (heq ▸ hb)
  exact (Function.update_of_ne hne _ _).trans (h.rest c hc hcl)

omit [DecidableEq ι] in
theorem installed_zero (d : Disk ι ν) (D : ι → ν) : Installed d D 0 :=
  fun t _ ht => absurd ht (Nat.not_lt_zero t)

/-- Block `k` is brought up to date. -/
theorem Installed.succ {k : ℕ} (h : Installed d D k) (hk : k < d.header.length)
    (hslots : d.slot k = D (d.header.get ⟨k, hk⟩)) :
    Installed { d with home := Function.update d.home (d.header.get ⟨k, hk⟩) (d.slot k) } D
      (k + 1) := by
  intro t ht htk
  show Function.update d.home _ _ (d.header.get ⟨t, ht⟩) = D (d.header.get ⟨t, ht⟩)
  by_cases heq : d.header.get ⟨t, ht⟩ = d.header.get ⟨k, hk⟩
  · rw [heq, Function.update_self, hslots]
  · rw [Function.update_of_ne heq]
    have hne : t ≠ k := by
      rintro rfl
      exact heq rfl
    exact h t ht (by omega)

end Disk

/-! ## What it is for -/

/-- The contents that survive a crash, the contents that readers see, and the writers in the middle
of a transaction. -/
structure Store (ι ν π : Type*) where
  durable : ι → ν
  current : ι → ν
  active : Finset π

/-- What happens to a store. -/
inductive Event (ι ν π : Type*) where
  | begin (p : π)
  | write (p : π) (b : ι) (v : ν)
  | finish (p : π)
  | commit
  | crash

variable [DecidableEq ι] [DecidableEq π]

/-- Writes are made inside of transactions, and nothing is committed while there is one. -/
def Store.next (s : Store ι ν π) : Event ι ν π → Option (Store ι ν π)
  | .begin p => if p ∈ s.active then none else some { s with active := insert p s.active }
  | .write p b v =>
    if p ∈ s.active then some { s with current := Function.update s.current b v } else none
  | .finish p => if p ∈ s.active then some { s with active := s.active.erase p } else none
  | .commit => if s.active = ∅ then some { s with durable := s.current } else none
  | .crash => some ⟨s.durable, s.durable, ∅⟩

/-- A sequence of events. -/
def Store.run (s : Store ι ν π) (es : List (Event ι ν π)) : Option (Store ι ν π) :=
  es.foldlM Store.next s

theorem Store.run_append (s : Store ι ν π) (es fs : List (Event ι ν π)) :
    s.run (es ++ fs) = (s.run es).bind fun t => t.run fs := by
  simp only [Store.run, List.foldlM_append]
  rfl

@[simp] theorem Store.run_nil (s : Store ι ν π) : s.run [] = some s := rfl

theorem Store.run_singleton (s : Store ι ν π) (e : Event ι ν π) : s.run [e] = s.next e := by
  simp [Store.run]

end RedoLog
