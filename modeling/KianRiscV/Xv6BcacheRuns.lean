/-
# Runs of the users of the buffer cache

In any order of steps the users of `bio.c` see a cache of blocks (`bcache_refines`), as long as no
buffer has more users and pins than its reference count can tell.  They read what was written last
when they are careful (`bread_latest`), and a buffer is recycled only when it is unused and was given
up before all other unused ones (`bget_recycles_oldest`).
-/
import KianRiscV.Xv6BcacheSteps

namespace KianRiscV

namespace Xv6Bio

open Xv6 (Block BlockNo)
open Xv6Mem (Stop)
open BlockCache (Event)
open BlockCache.Cache (Runs)

variable {π : Type} [DecidableEq π] {s t : State π} {a : Action π} {blockno : BlockNo}
  {disk : BlockNo → Block} {P : State π → Action π → Prop} {es : List (Event BlockNo Block π)}
  {ds : List (Fin nbuf)}

/-- Runs of the users are runs of the cache of blocks. -/
theorem Reachable.runs {Q : BlockCache.Cache BlockNo Block π → BlockCache.Action BlockNo Block π → Prop}
    (hQ : ∀ s a c a', P s a → (State.Careful s a → BlockCache.Cache.Careful c a') → Q c a')
    (h : Reachable P disk s es ds) : Inv s ds ∧ ∃ c, Runs Q (.init disk) es c ∧ Shows s c := by
  induction h with
  | init => exact ⟨inv_init disk, _, .nil _, shows_init disk⟩
  | step _ hallow hP hstep hbound ih =>
    obtain ⟨hinv, c, hruns, hshows⟩ := ih
    rcases hinv.step hshows hallow with ⟨t, ht, hinv', d, hruns', hshows'⟩ | ⟨_, _, _, herr, _⟩
    · obtain rfl := Except.ok.inj (hstep.symm.trans ht)
      exact ⟨hinv' hbound, d, hruns.trans (hruns'.mono fun c a' hc => hQ _ _ c a' hP hc), hshows'⟩
    · rw [herr] at hstep
      cases hstep

/-! ## A run -/

/-- The state behind a step that returns. -/
def State.after (s : State π) (a : Action π) : State π :=
  match s.step a with
  | .ok t => t
  | .error _ => s

theorem State.step_after (h : (s.step a).toBool = true) : s.step a = .ok (s.after a) := by
  rw [State.after]
  cases hstep : s.step a with
  | ok t => rfl
  | error e =>
    rw [hstep] at h
    cases h

/-- A single user reads the first block of an empty disk. -/
def bgetRun : State Unit := (State.init fun _ _ => 0#32).after (.bget () 1#32)

theorem step_bgetRun : (State.init fun _ _ => 0#32).step (.bget () 1#32) = .ok bgetRun :=
  State.step_after (by decide +kernel)

/-- **`bget` recycles the buffer that was given up first** among those without references, and only
when no buffer is for the block.  The other buffers stay as they are. -/
theorem bget_recycles_oldest (h : Reachable P disk s es ds)
    (hstep : s.step (.bget p blockno) = .ok t) :
    ∃ b, t.users p = .acquiring b ∧ (∀ x, x ≠ b → t.cache.buf x = s.cache.buf x) ∧
      ((s.cache.buf b).dev = rootDev ∧ (s.cache.buf b).blockno = blockno ∧
          t.cache.buf b = { s.cache.buf b with refcnt := (s.cache.buf b).refcnt + 1 } ∨
        (∀ x, (s.cache.buf x).dev = rootDev → (s.cache.buf x).blockno ≠ blockno) ∧
          (s.cache.buf b).refcnt = 0 ∧
          (∀ x, (s.cache.buf x).refcnt = 0 → x = b ∨ ds.idxOf x < ds.idxOf b) ∧
          t.cache.buf b = { s.cache.buf b with
            dev := rootDev, blockno := blockno, valid := false, refcnt := 1 }) := by
  obtain ⟨⟨⟨l, hl, hrec⟩, -⟩, -⟩ := h.runs (Q := fun _ _ => True) fun _ _ _ _ _ _ => trivial
  rcases hl.bget rootDev blockno with ⟨b, hdev, hblock, hrun⟩ |
    ⟨hmiss, ⟨b, l₁, l₂, rfl, hzero, hl₂, hrun⟩ | ⟨-, hrun⟩⟩
  · rw [State.step, hrun] at hstep
    obtain rfl := Except.ok.inj hstep
    exact ⟨b, Function.update_self _ _ _, fun x hx => Function.update_of_ne hx _ _,
      .inl ⟨hdev, hblock, Function.update_self _ _ _⟩⟩
  · rw [State.step, hrun] at hstep
    obtain rfl := Except.ok.inj hstep
    refine ⟨b, Function.update_self _ _ _, fun x hx => Function.update_of_ne hx _ _,
      .inr ⟨hmiss, hzero, fun x hx => ?_, Function.update_self _ _ _⟩⟩
    exact hrec.last (hl.all x) fun hmem => hl₂ x hmem hx
  · rw [State.step, hrun] at hstep
    cases hstep

theorem bget_recycles_oldest_init :
    ∃ b, bgetRun.users () = .acquiring b ∧
      (∀ x, x ≠ b → bgetRun.cache.buf x = Bcache.binit.buf x) ∧
      ((Bcache.binit.buf b).dev = rootDev ∧ (Bcache.binit.buf b).blockno = 1#32 ∧
          bgetRun.cache.buf b
            = { Bcache.binit.buf b with refcnt := (Bcache.binit.buf b).refcnt + 1 } ∨
        (∀ x, (Bcache.binit.buf x).dev = rootDev → (Bcache.binit.buf x).blockno ≠ 1#32) ∧
          (Bcache.binit.buf b).refcnt = 0 ∧
          (∀ x, (Bcache.binit.buf x).refcnt = 0 → x = b ∨
            (List.finRange nbuf).reverse.idxOf x < (List.finRange nbuf).reverse.idxOf b) ∧
          bgetRun.cache.buf b = { Bcache.binit.buf b with
            dev := rootDev, blockno := 1#32, valid := false, refcnt := 1 }) :=
  bget_recycles_oldest (P := State.Careful) .init step_bgetRun

end Xv6Bio

end KianRiscV
