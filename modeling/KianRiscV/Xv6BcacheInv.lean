/-
# The buffer cache is a cache of blocks

`bio.c` with its users does what `BlockCache` says, in any order of steps: a block is in one buffer
at most, references are counted, and what users do is an action on the cache of blocks at the
moment they have the lock.  Recycling a buffer is forgetting a block that nobody uses.
-/
import KianRiscV.Xv6BcacheOrder

namespace KianRiscV

namespace Xv6Bio

open Xv6 (Block BlockNo)
open Xv6Mem (Stop)
open BlockCache (Event)
open BlockCache.Cache (Runs)

variable {π : Type} [DecidableEq π] {s t : State π} {p q : π} {b b' : Fin nbuf} {blockno : BlockNo}
  {ds : List (Fin nbuf)} {c d : BlockCache.Cache BlockNo Block π} {n : ℕ} {pc : Pc} {users users' : π → Pc}

/-! ## Counting references -/

omit [DecidableEq π] in
theorem Counted.congr (h : Counted users b n)
    (hiff : ∀ p, (users' p).ref = some b ↔ (users p).ref = some b) : Counted users' b n := by
  obtain ⟨us, hus, hn⟩ := h
  exact ⟨us, fun p => (hus p).trans (hiff p).symm, hn⟩

theorem Counted.goto (h : Counted users b n)
    (hiff : pc.ref = some b ↔ (users p).ref = some b) :
    Counted (Function.update users p pc) b n := by
  refine h.congr fun q => ?_
  by_cases hq : q = p
  · subst hq
    rw [Function.update_self]
    exact hiff
  · rw [Function.update_of_ne hq]

theorem Counted.enter (h : Counted users b n) (hp : (users p).ref ≠ some b)
    (hpc : pc.ref = some b) : Counted (Function.update users p pc) b (n + 1) := by
  obtain ⟨us, hus, hn⟩ := h
  have hno : p ∉ us := fun hmem => hp ((hus p).1 hmem)
  refine ⟨insert p us, fun q => ?_, by rw [Finset.card_insert_of_notMem hno, hn]⟩
  rw [Finset.mem_insert]
  by_cases hq : q = p
  · subst hq
    simp only [Function.update_self, hpc, true_or]
  · rw [Function.update_of_ne hq, hus]
    exact or_iff_right hq

theorem Counted.leave (h : Counted users b n) (hp : (users p).ref = some b)
    (hpc : pc.ref ≠ some b) : 0 < n ∧ Counted (Function.update users p pc) b (n - 1) := by
  obtain ⟨us, hus, hn⟩ := h
  have hmem : p ∈ us := (hus p).2 hp
  refine ⟨hn ▸ Finset.card_pos.2 ⟨p, hmem⟩, us.erase p, fun q => ?_, ?_⟩
  · rw [Finset.mem_erase]
    by_cases hq : q = p
    · subst hq
      rw [Function.update_self]
      exact iff_of_false (fun hno => hno.1 rfl) hpc
    · rw [Function.update_of_ne hq, hus]
      exact and_iff_right hq
  · rw [Finset.card_erase_of_mem hmem, hn]

omit [DecidableEq π] in
theorem Counted.pos (h : Counted users b n) (hp : (users p).ref = some b) : 0 < n := by
  obtain ⟨us, hus, hn⟩ := h
  exact hn ▸ Finset.card_pos.2 ⟨p, (hus p).2 hp⟩

/-! ## The invariant -/

/-- The list is in order, blocks are in one buffer at most, references are counted and locks belong
to the users that have them. -/
structure Inv (s : State π) (ds : List (Fin nbuf)) : Prop where
  order : ∃ l, s.cache.Order l ∧ Recent ds l
  unique : ∀ b b', (s.cache.buf b).dev = rootDev → (s.cache.buf b').dev = rootDev →
    (s.cache.buf b).blockno = (s.cache.buf b').blockno → b = b'
  count : ∀ b, ∃ n, Counted s.users b n ∧ (s.cache.buf b).refcnt.toNat = n + s.pins b
  lock : ∀ b p, s.lock b = some p ↔ s.users p = .filling b ∨ s.users p = .holding b
  used : ∀ b, (s.cache.buf b).refcnt ≠ 0 → (s.cache.buf b).dev = rootDev
  valid : ∀ p b, s.users p = .holding b → (s.cache.buf b).valid = true

/-- The cache of blocks has of this buffer what is in it, and its user. -/
structure Cached (s : State π) (c : BlockCache.Cache BlockNo Block π) (b : Fin nbuf) : Prop where
  buf : c.buf (s.cache.buf b).blockno
    = if (s.cache.buf b).valid then some (s.cache.buf b).data else none
  holder : ∀ p, c.holder (s.cache.buf b).blockno = some p ↔ s.users p = .holding b
  refcnt : c.refcnt (s.cache.buf b).blockno
    = s.pins b + if (c.holder (s.cache.buf b).blockno).isSome then 1 else 0

/-- The cache of blocks that a state stands for. -/
structure Shows (s : State π) (c : BlockCache.Cache BlockNo Block π) : Prop where
  disk : c.disk = s.disk
  cached : ∀ b, (s.cache.buf b).dev = rootDev → Cached s c b
  absent : ∀ blockno, (∀ b, (s.cache.buf b).dev = rootDev → (s.cache.buf b).blockno ≠ blockno) →
    c.buf blockno = none ∧ c.refcnt blockno = 0 ∧ c.holder blockno = none

omit [DecidableEq π] in
/-- A user has a reference. -/
theorem Inv.refcnt_pos (h : Inv s ds) (hp : (s.users p).ref = some b) :
    0 < (s.cache.buf b).refcnt.toNat := by
  obtain ⟨n, hn, hcount⟩ := h.count b
  have := hn.pos hp
  omega

omit [DecidableEq π] in
theorem Inv.dev (h : Inv s ds) (hp : (s.users p).ref = some b) : (s.cache.buf b).dev = rootDev :=
  h.used b fun hzero => absurd (hzero ▸ h.refcnt_pos hp) (by decide)

omit [DecidableEq π] in
theorem inv_init (disk : BlockNo → Block) :
    Inv (State.init disk : State π) (List.finRange nbuf).reverse := by
  have hbuf : (State.init disk : State π).cache.buf = fun _ => ⟨false, 0#32, 0#32, 0#32, fun _ => 0#32⟩ :=
    buf_foldl_link (List.finRange nbuf)
  have hdev : ∀ b, ((State.init disk : State π).cache.buf b).dev ≠ rootDev := fun b => by
    rw [hbuf]
    show (0#32 : Word) ≠ rootDev
    decide
  refine ⟨⟨_, order_binit, recent_binit⟩, fun b _ hb => absurd hb (hdev b), fun b => ?_, fun b p => ?_,
    fun b hb => ?_, fun p b hp => ?_⟩
  · refine ⟨0, ⟨∅, fun p => ?_, rfl⟩, ?_⟩
    · exact iff_of_false (Finset.notMem_empty p) (Option.some_ne_none b).symm
    · rw [hbuf]
      rfl
  · refine iff_of_false (Option.some_ne_none p).symm ?_
    rintro (h | h)
    · cases h
    · cases h
  · rw [hbuf] at hb
    exact absurd rfl hb
  · cases hp

omit [DecidableEq π] in
theorem shows_init (disk : BlockNo → Block) : Shows (State.init disk : State π) (.init disk) := by
  have hbuf : (State.init disk : State π).cache.buf = fun _ => ⟨false, 0#32, 0#32, 0#32, fun _ => 0#32⟩ :=
    buf_foldl_link (List.finRange nbuf)
  refine ⟨rfl, fun b hb => ?_, fun _ _ => ⟨rfl, rfl, rfl⟩⟩
  rw [hbuf] at hb
  exact absurd hb (show (0#32 : Word) ≠ rootDev by decide)

/-! ## One buffer changes -/

theorem set_buf_of_ne (c : Bcache) (f : Buf → Buf) (h : b' ≠ b) : (c.set b f).buf b' = c.buf b' :=
  Function.update_of_ne h _ _

theorem set_buf_self (c : Bcache) (b : Fin nbuf) (f : Buf → Buf) : (c.set b f).buf b = f (c.buf b) :=
  Function.update_self b _ _

omit [DecidableEq π] in
/-- Only this buffer, its user and its block change. -/
theorem Shows.at (h : Shows s c) (hinv : Inv s ds) (hdev : (s.cache.buf b).dev = rootDev)
    (hblock : (t.cache.buf b).blockno = (s.cache.buf b).blockno)
    (hdevt : (t.cache.buf b).dev = rootDev)
    (hbuf : ∀ b', b' ≠ b → t.cache.buf b' = s.cache.buf b' ∧ t.pins b' = s.pins b')
    (husers : ∀ b', b' ≠ b → ∀ p, t.users p = .holding b' ↔ s.users p = .holding b')
    (hdisk : d.disk = t.disk)
    (hother : ∀ x, x ≠ (s.cache.buf b).blockno →
      d.buf x = c.buf x ∧ d.refcnt x = c.refcnt x ∧ d.holder x = c.holder x)
    (hb : Cached t d b) : Shows t d := by
  refine ⟨hdisk, fun b' hb' => ?_, fun x hx => ?_⟩
  · by_cases hbb : b' = b
    · subst hbb
      exact hb
    · obtain ⟨hbuf', hpins⟩ := hbuf b' hbb
      rw [hbuf'] at hb'
      have hne : (s.cache.buf b').blockno ≠ (s.cache.buf b).blockno :=
        fun heq => hbb (hinv.unique b' b hb' hdev heq)
      obtain ⟨h₁, h₂, h₃⟩ := hother _ hne
      obtain ⟨hcb, hch, hcr⟩ := h.cached b' hb'
      refine ⟨?_, fun p => ?_, ?_⟩
      · rw [hbuf', h₁, hcb]
      · rw [hbuf', h₃, hch, husers b' hbb]
      · rw [hbuf', h₂, h₃, hcr, hpins]
  · have hne : x ≠ (s.cache.buf b).blockno := fun heq => hx b hdevt (hblock.trans heq.symm)
    obtain ⟨h₁, h₂, h₃⟩ := hother x hne
    rw [h₁, h₂, h₃]
    refine h.absent x fun b' hb' => ?_
    by_cases hbb : b' = b
    · subst hbb
      exact hne.symm
    · rw [← (hbuf b' hbb).1] at hb' ⊢
      exact hx b' hb'

omit [DecidableEq π] in
/-- Nothing changes for the cache of blocks. -/
theorem Shows.same (h : Shows s c) (hbuf : ∀ b, (t.cache.buf b).dev = (s.cache.buf b).dev ∧
      (t.cache.buf b).blockno = (s.cache.buf b).blockno ∧
      (t.cache.buf b).valid = (s.cache.buf b).valid ∧ (t.cache.buf b).data = (s.cache.buf b).data)
    (hdisk : t.disk = s.disk) (hpins : t.pins = s.pins)
    (husers : ∀ b p, t.users p = .holding b ↔ s.users p = .holding b) : Shows t c := by
  refine ⟨h.disk.trans hdisk.symm, fun b hb => ?_, fun x hx => h.absent x fun b hb => ?_⟩
  · obtain ⟨hdev, hblock, hvalid, hdata⟩ := hbuf b
    rw [hdev] at hb
    obtain ⟨hcb, hch, hcr⟩ := h.cached b hb
    refine ⟨?_, fun p => ?_, ?_⟩
    · rw [hblock, hvalid, hdata, hcb]
    · rw [hblock, hch, husers]
    · rw [hblock, hpins, hcr]
  · obtain ⟨hdev, hblock, -, -⟩ := hbuf b
    rw [← hblock]
    exact hx b (hdev.trans hb)

end Xv6Bio

end KianRiscV
