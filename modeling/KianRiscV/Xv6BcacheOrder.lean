/-
# The list of buffers

The links of `bcache` make a ring through all buffers, in the order in which they lost their last
references, the last one first.  So `bget` finds the buffer of a block if there is one, and
otherwise takes the unused one that was given up first, or there is none.
-/
import KianRiscV.Xv6Bcache

namespace KianRiscV

namespace Xv6Bio

open Xv6 (Block BlockNo)
open Xv6Mem (Stop)
open RingList (Ring Links walk)

/-- The links go through all buffers, in the order of `l`. -/
structure Bcache.Order (c : Bcache) (l : List (Fin nbuf)) : Prop where
  ring : Ring c.next c.prev none (l.map some)
  all : ∀ b, b ∈ l

variable {c : Bcache} {b b' : Fin nbuf} {l l₁ l₂ : List (Fin nbuf)} {dev : Word} {blockno : BlockNo}

/-! ## Changing the links -/

theorem Bcache.link_prev (c : Bcache) (b : Fin nbuf) : (c.link b).prev
    = Function.update (Function.update c.prev (some b) none) (c.next none) (some b) := by
  have hnone : (none : Node) ≠ some b := (Option.some_ne_none b).symm
  simp only [Bcache.link, Function.update_of_ne hnone]

/-- The pointer back is not the one that was changed, or it was not changed at all. -/
theorem Bcache.unlink_next (c : Bcache) (b : Fin nbuf) : (c.unlink b).next
    = Function.update c.next (c.prev (some b)) (c.next (some b)) := by
  have hprev : Function.update c.prev (c.next (some b)) (c.prev (some b)) (some b)
      = c.prev (some b) := by
    by_cases h : some b = c.next (some b)
    · rw [← h, Function.update_self]
    · rw [Function.update_of_ne h]
  simp only [Bcache.unlink, hprev]

theorem ring_link (h : Ring c.next c.prev none (l.map some)) (hb : b ∉ l) :
    Ring (c.link b).next (c.link b).prev none ((b :: l).map some) := by
  rw [Bcache.link_prev]
  refine h.link fun hmem => ?_
  rcases List.mem_cons.1 hmem with heq | hmem
  · exact Option.some_ne_none b heq
  · obtain ⟨x, hx, hxb⟩ := List.mem_map.1 hmem
    obtain rfl := Option.some.inj hxb
    exact hb hx

theorem ring_unlink (h : Ring c.next c.prev none ((l₁ ++ b :: l₂).map some)) :
    Ring (c.unlink b).next (c.unlink b).prev none ((l₁ ++ l₂).map some) := by
  rw [Bcache.unlink_next]
  rw [List.map_append, List.map_cons] at h
  rw [List.map_append]
  exact h.unlink

/-- `binit` puts in one buffer after the other. -/
theorem ring_foldl_link (bs : List (Fin nbuf)) (hbs : bs.Nodup)
    (h : Ring c.next c.prev none (l.map some)) (hdisj : ∀ x ∈ bs, x ∉ l) :
    Ring (bs.foldl Bcache.link c).next (bs.foldl Bcache.link c).prev none
      ((bs.reverse ++ l).map some) := by
  induction bs generalizing c l with
  | nil => exact h
  | cons x bs ih =>
    obtain ⟨hx, hnd⟩ := List.nodup_cons.1 hbs
    have hnext := ih hnd (ring_link h (hdisj x List.mem_cons_self)) fun y hy hmem => by
      rcases List.mem_cons.1 hmem with rfl | hmem
      · exact hx hy
      · exact hdisj y (List.mem_cons_of_mem x hy) hmem
    rw [List.reverse_cons, List.append_assoc]
    exact hnext

theorem order_binit : Bcache.binit.Order (List.finRange nbuf).reverse := by
  refine ⟨?_, fun b => List.mem_reverse.2 (List.mem_finRange b)⟩
  have hnil : Ring (fun _ => none) (fun _ => none) (none : Node)
      (([] : List (Fin nbuf)).map some) := RingList.ring_nil.2 ⟨rfl, rfl⟩
  have hring := ring_foldl_link (List.finRange nbuf) (List.nodup_finRange nbuf)
    (c := ⟨fun _ => ⟨false, 0#32, 0#32, 0#32, fun _ => 0#32⟩, fun _ => none, fun _ => none⟩) hnil
    fun _ _ => List.not_mem_nil
  rw [List.append_nil] at hring
  exact hring

theorem buf_foldl_link (bs : List (Fin nbuf)) : (bs.foldl Bcache.link c).buf = c.buf := by
  induction bs generalizing c with
  | nil => rfl
  | cons x bs ih => exact ih

theorem Bcache.Order.set (h : c.Order l) (b : Fin nbuf) (f : Buf → Buf) : (c.set b f).Order l :=
  ⟨h.ring, h.all⟩

theorem Bcache.Order.nodup (h : c.Order l) : l.Nodup :=
  List.Nodup.of_map some (List.nodup_cons.1 h.ring.nodup).2

/-- The buffer goes to the front. -/
theorem Bcache.Order.to_front (h : c.Order (l₁ ++ b :: l₂)) :
    ((c.unlink b).link b).Order (b :: (l₁ ++ l₂)) := by
  have hnd := h.nodup
  have hb : b ∉ l₁ ++ l₂ := by
    rw [List.nodup_middle, List.nodup_cons] at hnd
    exact hnd.1
  refine ⟨ring_link (ring_unlink h.ring) hb, fun x => ?_⟩
  rcases List.mem_append.1 (h.all x) with hx | hx
  · exact List.mem_cons_of_mem b (List.mem_append_left l₂ hx)
  · rcases List.mem_cons.1 hx with rfl | hx
    · exact List.mem_cons_self
    · exact List.mem_cons_of_mem b (List.mem_append_right l₁ hx)

/-! ## `bget` -/

theorem Bcache.Order.length (h : c.Order l) : (l.map some).length < nbuf + 1 := by
  rw [List.length_map]
  have hle := (h.nodup.subperm fun x _ => List.mem_finRange x).length_le
  rw [List.length_finRange] at hle
  omega

/-- The block is in the cache, or the buffer that comes first from the back is recycled, or all
buffers are in use. -/
theorem Bcache.Order.bget (h : c.Order l) (dev : Word) (blockno : BlockNo) :
    (∃ b, (c.buf b).dev = dev ∧ (c.buf b).blockno = blockno ∧
      c.bget dev blockno = .ok (c.set b fun x => { x with refcnt := x.refcnt + 1 }, b)) ∨
    ((∀ b, (c.buf b).dev = dev → (c.buf b).blockno ≠ blockno) ∧
      ((∃ b l₁ l₂, l = l₁ ++ b :: l₂ ∧ (c.buf b).refcnt = 0 ∧ (∀ x ∈ l₂, (c.buf x).refcnt ≠ 0) ∧
        c.bget dev blockno = .ok (c.set b fun x =>
          { x with dev := dev, blockno := blockno, valid := false, refcnt := 1 }, b)) ∨
      ((∀ b, (c.buf b).refcnt ≠ 0) ∧
        c.bget dev blockno = .error (.panic "bget: no buffers")))) := by
  rw [Bcache.bget, h.ring.walk _ h.length, h.ring.walk_back _ h.length, List.find?_map,
    ← List.map_reverse, List.find?_map]
  cases hhit : l.find? (c.isBlock dev blockno ∘ some) with
  | some b =>
    have hp := List.find?_some hhit
    simp only [Function.comp_apply, Bcache.isBlock, Bool.and_eq_true, beq_iff_eq] at hp
    exact .inl ⟨b, hp.1, hp.2, rfl⟩
  | none =>
    have hmiss : ∀ b, (c.buf b).dev = dev → (c.buf b).blockno ≠ blockno := fun b hdev hblock => by
      have hno := List.find?_eq_none.1 hhit b (h.all b)
      simp only [Function.comp_apply, Bcache.isBlock, hdev, hblock, beq_self_eq_true, Bool.and_self,
        not_true_eq_false] at hno
    refine .inr ⟨hmiss, ?_⟩
    cases hfree : l.reverse.find? (c.isUnused ∘ some) with
    | some b =>
      obtain ⟨hp, l₁, l₂, hl, hl₁⟩ := List.find?_eq_some_iff_append.1 hfree
      simp only [Function.comp_apply, Bcache.isUnused, beq_iff_eq] at hp
      refine .inl ⟨b, l₂.reverse, l₁.reverse, ?_, hp, fun x hx => ?_, rfl⟩
      · rw [← List.reverse_reverse l, hl]
        simp only [List.reverse_append, List.reverse_cons, List.append_assoc, List.singleton_append]
      · have hx' := hl₁ x (List.mem_reverse.1 hx)
        simp only [Function.comp_apply, Bcache.isUnused, Bool.not_eq_true', beq_eq_false_iff_ne] at hx'
        exact hx'
    | none =>
      refine .inr ⟨fun b => ?_, rfl⟩
      have hno := List.find?_eq_none.1 hfree b (List.mem_reverse.2 (h.all b))
      simp only [Function.comp_apply, Bcache.isUnused, beq_iff_eq] at hno
      exact hno

/-! ## The order -/

/-- Earlier in the list means given up later. -/
def Recent (ds : List (Fin nbuf)) (l : List (Fin nbuf)) : Prop :=
  l.Pairwise fun x y => ds.idxOf x < ds.idxOf y

theorem recent_binit : Recent (List.finRange nbuf).reverse (List.finRange nbuf).reverse := by
  have hnd : (List.finRange nbuf).reverse.Nodup := List.nodup_reverse.2 (List.nodup_finRange nbuf)
  refine List.pairwise_iff_getElem.2 fun i j hi hj hij => ?_
  rw [hnd.idxOf_getElem, hnd.idxOf_getElem]
  exact hij

/-- The buffer loses its last reference. -/
theorem Recent.to_front {ds : List (Fin nbuf)} (h : Recent ds (l₁ ++ b :: l₂))
    (hb : b ∉ l₁ ++ l₂) : Recent (b :: ds) (b :: (l₁ ++ l₂)) := by
  have hne : ∀ x ∈ l₁ ++ l₂, b ≠ x := by
    rintro x hx rfl
    exact hb hx
  refine List.pairwise_cons.2 ⟨fun x hx => ?_, ?_⟩
  · rw [List.idxOf_cons_self, List.idxOf_cons_ne _ (hne x hx)]
    exact Nat.succ_pos _
  · have hsub : Recent ds (l₁ ++ l₂) := List.Pairwise.sublist (by simp) h
    refine List.Pairwise.imp_of_mem (fun {x y} hx hy hlt => ?_) hsub
    rw [List.idxOf_cons_ne _ (hne x hx), List.idxOf_cons_ne _ (hne y hy)]
    exact Nat.succ_lt_succ hlt

/-- What is behind nothing unused was given up first. -/
theorem Recent.last {ds : List (Fin nbuf)} (h : Recent ds (l₁ ++ b :: l₂)) (hx : b' ∈ l₁ ++ b :: l₂)
    (hno : b' ∉ l₂) : b' = b ∨ ds.idxOf b' < ds.idxOf b := by
  rcases List.mem_append.1 hx with hx | hx
  · exact .inr ((List.pairwise_append.1 h).2.2 b' hx b List.mem_cons_self)
  · rcases List.mem_cons.1 hx with rfl | hx
    · exact .inl rfl
    · exact absurd hx hno

end Xv6Bio

end KianRiscV
