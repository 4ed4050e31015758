/-
# Circular lists

A list that is linked both ways in a circle through a head, which is not one of its members.
`Ring` says which members there are, in order.  Taking a member out and putting a node in behind
the head change a few links each, and a walk from the head meets the members in order, forward or
backward.
-/
import Mathlib.Data.List.Nodup
import Mathlib.Logic.Function.Basic

namespace RingList

variable {α : Type*} {next prev next' prev' : α → α} {head x y : α} {l l₁ l₂ : List α}

/-! ## Links -/

/-- Neighbours in the list are linked in both directions. -/
def Links (next prev : α → α) : List α → Prop
  | x :: y :: l => next x = y ∧ prev y = x ∧ Links next prev (y :: l)
  | _ => True

theorem links_append : Links next prev (l₁ ++ x :: l₂) ↔
    Links next prev (l₁ ++ [x]) ∧ Links next prev (x :: l₂) := by
  induction l₁ with
  | nil => exact ⟨fun h => ⟨trivial, h⟩, fun h => h.2⟩
  | cons y l₁ ih =>
    cases l₁ with
    | nil =>
      constructor
      · rintro ⟨hn, hp, h⟩
        exact ⟨⟨hn, hp, trivial⟩, h⟩
      · rintro ⟨⟨hn, hp, -⟩, h⟩
        exact ⟨hn, hp, h⟩
    | cons z l₁ =>
      constructor
      · rintro ⟨hn, hp, h⟩
        obtain ⟨h₁, h₂⟩ := ih.1 h
        exact ⟨⟨hn, hp, h₁⟩, h₂⟩
      · rintro ⟨⟨hn, hp, h₁⟩, h₂⟩
        exact ⟨hn, hp, ih.2 ⟨h₁, h₂⟩⟩

/-- Only the links between the nodes matter. -/
theorem Links.congr (h : Links next prev (l ++ [x])) (hnext : ∀ y ∈ l, next' y = next y)
    (hprev : ∀ y ∈ (l ++ [x]).tail, prev' y = prev y) : Links next' prev' (l ++ [x]) := by
  induction l with
  | nil => trivial
  | cons y l ih =>
    have htail : ∀ l', Links next prev (y :: l') → l' = l ++ [x] → Links next' prev' (y :: l') := by
      rintro l' hl' heq
      cases l' with
      | nil => trivial
      | cons z l' =>
        obtain ⟨hn, hp, hrest⟩ := hl'
        have hz : z ∈ (y :: l ++ [x]).tail := by
          rw [List.cons_append, List.tail_cons, ← heq]
          exact List.mem_cons_self
        refine ⟨(hnext y List.mem_cons_self).trans hn, (hprev z hz).trans hp, ?_⟩
        rw [heq] at hrest ⊢
        refine ih hrest (fun w hw => hnext w (List.mem_cons_of_mem y hw)) fun w hw => hprev w ?_
        exact List.mem_of_mem_tail hw
    exact htail _ h rfl

theorem Links.reverse (h : Links next prev l) : Links prev next l.reverse := by
  induction l with
  | nil => trivial
  | cons x l ih =>
    cases l with
    | nil => trivial
    | cons y l =>
      obtain ⟨hn, hp, hl⟩ := h
      have hrev := ih hl
      rw [List.reverse_cons] at hrev
      rw [List.reverse_cons, List.reverse_cons, List.append_assoc]
      exact links_append.2 ⟨hrev, hp, hn, trivial⟩

/-! ## Rings -/

/-- The members of the circle through the head are those of the list, in order. -/
structure Ring (next prev : α → α) (head : α) (l : List α) : Prop where
  links : Links next prev (head :: l ++ [head])
  nodup : (head :: l).Nodup

theorem Ring.reverse (h : Ring next prev head l) : Ring prev next head l.reverse := by
  refine ⟨?_, ?_⟩
  · have hrev := h.links.reverse
    simp only [List.reverse_append, List.reverse_cons, List.reverse_nil, List.nil_append] at hrev
    exact hrev
  · obtain ⟨hno, hl⟩ := List.nodup_cons.1 h.nodup
    refine List.nodup_cons.2 ⟨fun hmem => hno (List.mem_reverse.1 hmem), List.nodup_reverse.2 hl⟩

theorem ring_nil : Ring next prev head [] ↔ next head = head ∧ prev head = head := by
  constructor
  · rintro ⟨⟨hn, hp, -⟩, -⟩
    exact ⟨hn, hp⟩
  · rintro ⟨hn, hp⟩
    exact ⟨⟨hn, hp, trivial⟩, List.nodup_singleton head⟩

variable [DecidableEq α]

/-- A member is taken out. -/
theorem Ring.unlink (h : Ring next prev head (l₁ ++ x :: l₂)) :
    Ring (Function.update next (prev x) (next x)) (Function.update prev (next x) (prev x)) head
      (l₁ ++ l₂) := by
  obtain ⟨hlinks, hnd⟩ := h
  -- the neighbours: `a` is the last of `head :: l₁` and `c` the first of `l₂ ++ [head]`
  obtain ⟨l₁', a, ha⟩ : ∃ l₁' a, head :: l₁ = l₁' ++ [a] :=
    ⟨_, _, (List.dropLast_append_getLast (List.cons_ne_nil head l₁)).symm⟩
  obtain ⟨c, l₂', hc⟩ : ∃ c l₂', l₂ ++ [head] = c :: l₂' := List.exists_cons_of_ne_nil (by simp)
  have hnd' : (l₁' ++ [a] ++ x :: l₂).Nodup := by
    rw [← ha]
    exact hnd
  have hmem₁ : ∀ y, y ∈ l₁' ++ [a] ↔ y = head ∨ y ∈ l₁ := fun y => by rw [← ha, List.mem_cons]
  have hmem₂ : ∀ y, y ∈ c :: l₂' ↔ y ∈ l₂ ∨ y = head := fun y => by
    rw [← hc, List.mem_append, List.mem_singleton]
  have hsplit : head :: (l₁ ++ x :: l₂) ++ [head] = l₁' ++ a :: x :: c :: l₂' := by
    calc head :: (l₁ ++ x :: l₂) ++ [head] = (head :: l₁) ++ x :: (l₂ ++ [head]) := by simp
      _ = l₁' ++ a :: x :: c :: l₂' := by rw [ha, hc, List.append_assoc]; rfl
  have hjoin : head :: (l₁ ++ l₂) ++ [head] = l₁' ++ a :: c :: l₂' := by
    calc head :: (l₁ ++ l₂) ++ [head] = (head :: l₁) ++ (l₂ ++ [head]) := by simp
      _ = l₁' ++ a :: c :: l₂' := by rw [ha, hc, List.append_assoc]; rfl
  obtain ⟨hd₁, hd₂, hdisj⟩ := List.nodup_append.1 hnd'
  obtain ⟨-, hnl₂⟩ := List.nodup_cons.1 hd₂
  have hhead₂ : head ∉ l₂ := fun hmem =>
    (List.nodup_cons.1 hnd).1 (List.mem_append_right _ (List.mem_cons_of_mem x hmem))
  have hhead₁ : head ∉ l₁ := fun hmem => (List.nodup_cons.1 hnd).1 (List.mem_append_left _ hmem)
  have hcross : ∀ y ∈ l₁' ++ [a], y ∉ l₂ := fun y hy hy' =>
    hdisj y hy y (List.mem_cons_of_mem x hy') rfl
  have haend : a ∉ l₁' := fun hmem => by
    rw [List.nodup_append] at hd₁
    exact hd₁.2.2 a hmem a (List.mem_singleton_self a) rfl
  have hcfirst : c ∉ l₂' := by
    have hndc : (c :: l₂').Nodup := by
      rw [← hc, List.nodup_append]
      refine ⟨hnl₂, List.nodup_singleton head, fun y hy z hz => ?_⟩
      rintro rfl
      rw [List.mem_singleton] at hz
      exact hhead₂ (hz ▸ hy)
    exact (List.nodup_cons.1 hndc).1
  rw [hsplit] at hlinks
  obtain ⟨hleft, hna, hpx, hnx, -, hright⟩ := links_append.1 hlinks
  rw [hpx, hnx]
  refine ⟨?_, hnd.sublist (by simp)⟩
  rw [hjoin]
  refine links_append.2 ⟨hleft.congr (fun y hy => ?_) fun y hy => ?_, Function.update_self a c next,
    Function.update_self c a prev, ?_⟩
  · refine Function.update_of_ne ?_ _ _
    rintro rfl
    exact haend hy
  · refine Function.update_of_ne ?_ _ _
    rintro rfl
    rw [← ha, List.tail_cons] at hy
    rcases (hmem₂ y).1 List.mem_cons_self with hl | rfl
    · exact hcross y ((hmem₁ y).2 (.inr hy)) hl
    · exact hhead₁ hy
  · rw [← hc] at hright ⊢
    refine hright.congr (fun y hy => ?_) fun y hy => ?_
    · refine Function.update_of_ne ?_ _ _
      rintro rfl
      exact hcross y (List.mem_append_right _ (List.mem_singleton_self y)) hy
    · refine Function.update_of_ne ?_ _ _
      rintro rfl
      rw [hc, List.tail_cons] at hy
      exact hcfirst hy

/-- A node is put in behind the head. -/
theorem Ring.link (h : Ring next prev head l) (hx : x ∉ head :: l) :
    Ring (Function.update (Function.update next x (next head)) head x)
      (Function.update (Function.update prev x head) (next head) x) head (x :: l) := by
  obtain ⟨hlinks, hnd⟩ := h
  obtain ⟨c, l', hc⟩ : ∃ c l', l ++ [head] = c :: l' := List.exists_cons_of_ne_nil (by simp)
  have hxhead : x ≠ head := fun heq => hx (heq ▸ List.mem_cons_self)
  have hxl : x ∉ l := fun hmem => hx (List.mem_cons_of_mem head hmem)
  obtain ⟨hno, hl⟩ := List.nodup_cons.1 hnd
  rw [List.cons_append, hc] at hlinks
  obtain ⟨hn, -, hrest⟩ := hlinks
  have hxc : x ≠ c := by
    rintro rfl
    have hmem : x ∈ l ++ [head] := by
      rw [hc]
      exact List.mem_cons_self
    rcases List.mem_append.1 hmem with hmem | hmem
    · exact hxl hmem
    · exact hxhead (List.mem_singleton.1 hmem)
  have hcfirst : c ∉ l' := by
    have hndc : (c :: l').Nodup := by
      rw [← hc, List.nodup_append]
      refine ⟨hl, List.nodup_singleton head, fun y hy z hz => ?_⟩
      rintro rfl
      rw [List.mem_singleton] at hz
      exact hno (hz ▸ hy)
    exact (List.nodup_cons.1 hndc).1
  rw [hn]
  refine ⟨?_, List.nodup_cons.2 ⟨?_, List.nodup_cons.2 ⟨hxl, hl⟩⟩⟩
  · rw [List.cons_append, List.cons_append, hc]
    refine ⟨by rw [Function.update_self], ?_, ?_, by rw [Function.update_self], ?_⟩
    · rw [Function.update_of_ne hxc, Function.update_self]
    · rw [Function.update_of_ne hxhead, Function.update_self]
    · rw [← hc] at hrest ⊢
      refine hrest.congr (fun y hy => ?_) fun y hy => ?_
      · rw [Function.update_of_ne, Function.update_of_ne]
        · rintro rfl
          exact hxl hy
        · rintro rfl
          exact hno hy
      · rw [hc, List.tail_cons] at hy
        rw [Function.update_of_ne, Function.update_of_ne]
        · rintro rfl
          have hmem : y ∈ l ++ [head] := by
            rw [hc]
            exact List.mem_cons_of_mem c hy
          rcases List.mem_append.1 hmem with hmem | hmem
          · exact hxl hmem
          · exact hxhead (List.mem_singleton.1 hmem)
        · rintro rfl
          exact hcfirst hy
  · intro hmem
    rcases List.mem_cons.1 hmem with rfl | hmem
    · exact hxhead rfl
    · exact hno hmem

/-! ## Walks -/

/-- The first node from `x` on that is as wanted, up to the head, in at most `n` rounds. -/
def walk (step : α → α) (head : α) (p : α → Bool) : ℕ → α → Option (Option α)
  | 0, _ => none
  | n + 1, x => if x = head then some none else if p x then some (some x) else walk step head p n (step x)

theorem walk_links (p : α → Bool) {n : ℕ} (h : Links next prev (x :: l ++ [head])) (hno : head ∉ l)
    (hn : l.length < n) : walk next head p n (next x) = some (l.find? p) := by
  induction l generalizing x n with
  | nil =>
    obtain ⟨m, rfl⟩ := Nat.exists_eq_add_of_lt hn
    obtain ⟨hx, -, -⟩ := h
    rw [hx]
    exact if_pos rfl
  | cons y l ih =>
    obtain ⟨m, rfl⟩ := Nat.exists_eq_add_of_lt hn
    obtain ⟨hx, -, hl⟩ := h
    have hy : y ≠ head := fun heq => hno (heq ▸ List.mem_cons_self)
    rw [hx, List.find?_cons, walk, if_neg hy]
    cases p y with
    | true => rfl
    | false =>
      refine ih hl (fun hmem => hno (List.mem_cons_of_mem y hmem)) ?_
      rw [List.length_cons]
      omega

/-- A walk from the head finds the first member that is as wanted. -/
theorem Ring.walk (h : Ring next prev head l) (p : α → Bool) {n : ℕ} (hn : l.length < n) :
    walk next head p n (next head) = some (l.find? p) :=
  walk_links p h.links (List.nodup_cons.1 h.nodup).1 hn

/-- A walk backward finds the last one. -/
theorem Ring.walk_back (h : Ring next prev head l) (p : α → Bool) {n : ℕ} (hn : l.length < n) :
    RingList.walk prev head p n (prev head) = some (l.reverse.find? p) :=
  h.reverse.walk p (by rw [List.length_reverse]; exact hn)

end RingList
