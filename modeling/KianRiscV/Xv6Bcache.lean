/-
# The buffer cache of xv6

`bio.c` as a system of users, each of them on the way from `bread` to `brelse`, who take steps in
any order.  A step holds `bcache.lock`, or is made under the lock of a buffer: `bget` up to
`acquiresleep`, `acquiresleep` when the lock is free, the rest of `bread`, and the two halves of
`brelse`, before and after the lock of the buffer is given up.

* `refcnt` counts modulo `2 ^ 32`.  Runs in which as many users and pins refer to one buffer are left
  out (`State.Bounded`).
* `pins` counts what `bpin` did and `bunpin` did not undo; the code keeps it in the reference count
  only.
* All blocks are on `ROOTDEV`; `spi_rb` and `spi_wb` know of one device only.
-/
import KianRiscV.BlockCache
import KianRiscV.RingList
import KianRiscV.Xv6Log
import KianRiscV.Xv6Memory

namespace KianRiscV

namespace Xv6Bio

open Xv6 (Block BlockNo)
open Xv6Mem (Stop)
open BlockCache (Event)
open RingList (walk)

/-- `NBUF`. -/
def nbuf : ℕ := 30

/-- `ROOTDEV`. -/
def rootDev : Word := 1#32

/-- `&bcache.head` or a buffer. -/
abbrev Node := Option (Fin nbuf)

/-- `struct buf` without its lock and links. -/
structure Buf where
  valid : Bool
  dev : Word
  blockno : BlockNo
  refcnt : Word
  data : Block

/-- `bcache`. -/
structure Bcache where
  buf : Fin nbuf → Buf
  next : Node → Node
  prev : Node → Node

namespace Bcache

/-- A buffer changes. -/
def set (c : Bcache) (b : Fin nbuf) (f : Buf → Buf) : Bcache :=
  { c with buf := Function.update c.buf b (f (c.buf b)) }

/-- The buffer is put in behind the head. -/
def link (c : Bcache) (b : Fin nbuf) : Bcache :=
  let next := Function.update c.next (some b) (c.next none)
  let prev := Function.update c.prev (some b) none
  let prev := Function.update prev (next none) (some b)
  { c with next := Function.update next none (some b), prev := prev }

/-- The buffer is taken out of the list. -/
def unlink (c : Bcache) (b : Fin nbuf) : Bcache :=
  let prev := Function.update c.prev (c.next (some b)) (c.prev (some b))
  { c with next := Function.update c.next (prev (some b)) (c.next (some b)), prev := prev }

/-- `binit`, on memory that is zero. -/
def binit : Bcache :=
  (List.finRange nbuf).foldl link
    ⟨fun _ => ⟨false, 0#32, 0#32, 0#32, fun _ => 0#32⟩, fun _ => none, fun _ => none⟩

/-- The buffer is for the block. -/
def isBlock (c : Bcache) (dev : Word) (blockno : BlockNo) : Node → Bool
  | none => false
  | some b => (c.buf b).dev == dev && (c.buf b).blockno == blockno

def isUnused (c : Bcache) : Node → Bool
  | none => false
  | some b => (c.buf b).refcnt == 0

/-- `bget` up to `acquiresleep`. -/
def bget (c : Bcache) (dev : Word) (blockno : BlockNo) : Except Stop (Bcache × Fin nbuf) :=
  -- Is the block already cached?
  match walk c.next none (c.isBlock dev blockno) (nbuf + 1) (c.next none) with
  | none => .error .unfinished
  | some (some (some b)) => .ok (c.set b fun x => { x with refcnt := x.refcnt + 1 }, b)
  | some _ =>
    -- Recycle the least recently used (LRU) unused buffer.
    match walk c.prev none c.isUnused (nbuf + 1) (c.prev none) with
    | none => .error .unfinished
    | some (some (some b)) =>
      .ok (c.set b fun x =>
        { x with dev := dev, blockno := blockno, valid := false, refcnt := 1 }, b)
    | some _ => .error (.panic "bget: no buffers")

/-- `brelse` after `releasesleep`. -/
def unref (c : Bcache) (b : Fin nbuf) : Bcache :=
  let c := c.set b fun x => { x with refcnt := x.refcnt - 1 }
  if (c.buf b).refcnt = 0 then (c.unlink b).link b else c

end Bcache

/-! ## Users -/

/-- Where a user is: outside, in `acquiresleep`, in the rest of `bread`, between `bread` and
`brelse`, or in the second half of `brelse`. -/
inductive Pc where
  | idle
  | acquiring (b : Fin nbuf)
  | filling (b : Fin nbuf)
  | holding (b : Fin nbuf)
  | releasing (b : Fin nbuf)
  deriving DecidableEq

/-- The buffer that the user has a reference to. -/
def Pc.ref : Pc → Option (Fin nbuf)
  | .idle => none
  | .acquiring b | .filling b | .holding b | .releasing b => some b

/-- The cache, the locks of the buffers, the disk, the pins and the users. -/
structure State (π : Type) where
  cache : Bcache
  lock : Fin nbuf → Option π
  disk : BlockNo → Block
  pins : Fin nbuf → ℕ
  users : π → Pc

inductive Action (π : Type) where
  | bget (p : π) (blockno : BlockNo)
  | acquiresleep (p : π)
  | fill (p : π)
  | write (p : π) (data : Block)
  | bwrite (p : π)
  | releasesleep (p : π)
  | unref (p : π)
  | bpin (p : π)
  | bunpin (p : π)

namespace State

variable {π : Type} [DecidableEq π]

/-- The cache before its first use. -/
def init (disk : BlockNo → Block) : State π where
  cache := Bcache.binit
  lock := fun _ => none
  disk := disk
  pins := fun _ => 0
  users := fun _ => .idle

/-- Users do one thing after the other, wait for locks and undo only pins that are there. -/
def Allows (s : State π) : Action π → Prop
  | .bget p _ => s.users p = .idle
  | .acquiresleep p => ∃ b, s.users p = .acquiring b ∧ s.lock b = none
  | .fill p => ∃ b, s.users p = .filling b
  | .write p _ | .bwrite p | .releasesleep p | .bpin p => ∃ b, s.users p = .holding b
  | .unref p => ∃ b, s.users p = .releasing b
  | .bunpin p => ∃ b, s.users p = .holding b ∧ 0 < s.pins b

/-- The user goes on at `pc`. -/
def goto (s : State π) (p : π) (pc : Pc) : State π :=
  { s with users := Function.update s.users p pc }

/-- A buffer changes. -/
def set (s : State π) (b : Fin nbuf) (f : Buf → Buf) : State π :=
  { s with cache := s.cache.set b f }

/-- `bread` after `bget`. -/
def fill (s : State π) (b : Fin nbuf) : State π :=
  if (s.cache.buf b).valid then s
  else s.set b fun x => { x with data := s.disk x.blockno, valid := true }

/-- One step of a user. -/
def step (s : State π) : Action π → Except Stop (State π)
  | .bget p blockno => do
    let (c, b) ← s.cache.bget rootDev blockno
    pure ({ s with cache := c }.goto p (.acquiring b))
  | .acquiresleep p =>
    match s.users p with
    | .acquiring b => pure ({ s with lock := Function.update s.lock b (some p) }.goto p (.filling b))
    | _ => pure s
  | .fill p =>
    match s.users p with
    | .filling b => pure ((s.fill b).goto p (.holding b))
    | _ => pure s
  | .write p data =>
    match s.users p with
    | .holding b => pure (s.set b fun x => { x with data := data })
    | _ => pure s
  | .bwrite p =>
    match s.users p with
    | .holding b =>
      if s.lock b = some p then
        pure { s with
          disk := Function.update s.disk (s.cache.buf b).blockno (s.cache.buf b).data }
      else throw (.panic "bwrite")
    | _ => pure s
  | .releasesleep p =>
    match s.users p with
    | .holding b =>
      if s.lock b = some p then
        pure ({ s with lock := Function.update s.lock b none }.goto p (.releasing b))
      else throw (.panic "brelse")
    | _ => pure s
  | .unref p =>
    match s.users p with
    | .releasing b => pure ({ s with cache := s.cache.unref b }.goto p .idle)
    | _ => pure s
  | .bpin p =>
    match s.users p with
    | .holding b =>
      pure { s.set b fun x => { x with refcnt := x.refcnt + 1 } with
        pins := Function.update s.pins b (s.pins b + 1) }
    | _ => pure s
  | .bunpin p =>
    match s.users p with
    | .holding b =>
      pure { s.set b fun x => { x with refcnt := x.refcnt - 1 } with
        pins := Function.update s.pins b (s.pins b - 1) }
    | _ => pure s

/-- What a step is for the users: `bread` gives the contents of a block, and the others are about
the block that is used. -/
def event (s : State π) : Action π → List (Event BlockNo Block π)
  | .bget _ _ | .acquiresleep _ | .unref _ => []
  | .fill p =>
    match s.users p with
    | .filling b => [.read p (s.cache.buf b).blockno ((s.fill b).cache.buf b).data]
    | _ => []
  | .write p data =>
    match s.users p with
    | .holding b => [.write p (s.cache.buf b).blockno data]
    | _ => []
  | .bwrite p =>
    match s.users p with
    | .holding b => [.bwrite p (s.cache.buf b).blockno]
    | _ => []
  | .releasesleep p =>
    match s.users p with
    | .holding b => [.brelse p (s.cache.buf b).blockno]
    | _ => []
  | .bpin p =>
    match s.users p with
    | .holding b => [.bpin p (s.cache.buf b).blockno]
    | _ => []
  | .bunpin p =>
    match s.users p with
    | .holding b => [.bunpin p (s.cache.buf b).blockno]
    | _ => []

/-- The buffer that loses its last reference in `brelse`. -/
def drops (s : State π) : Action π → List (Fin nbuf)
  | .unref p =>
    match s.users p with
    | .releasing b => if (s.cache.buf b).refcnt = 1 then [b] else []
    | _ => []
  | _ => []

/-- A buffer is written back or pinned before it is given up. -/
def Careful (s : State π) : Action π → Prop
  | .releasesleep p => ∀ b, s.users p = .holding b →
      0 < s.pins b ∨ (s.cache.buf b).data = s.disk (s.cache.buf b).blockno
  | _ => True

end State

/-- The buffer is referenced by `n` users. -/
def Counted {π : Type} (users : π → Pc) (b : Fin nbuf) (n : ℕ) : Prop :=
  ∃ us : Finset π, (∀ p, p ∈ us ↔ (users p).ref = some b) ∧ us.card = n

/-- The users and pins of a buffer can be counted in 32 bits. -/
def State.Bounded {π : Type} (s : State π) : Prop :=
  ∀ b n, Counted s.users b n → n + s.pins b < 2 ^ 32

/-- The states after runs whose steps are as `P` wants them and whose references are bounded, with
what the users saw and the buffers in the order in which they lost their last references, the last
one first.  At first that is the order of `binit`. -/
inductive Reachable {π : Type} [DecidableEq π] (P : State π → Action π → Prop)
    (disk : BlockNo → Block) :
    State π → List (Event BlockNo Block π) → List (Fin nbuf) → Prop
  | init : Reachable P disk (.init disk) [] (List.finRange nbuf).reverse
  | step {s t : State π} {a : Action π} {es : List (Event BlockNo Block π)}
      {ds : List (Fin nbuf)} (h : Reachable P disk s es ds) (hallow : s.Allows a) (hP : P s a)
      (hstep : s.step a = .ok t) (hbound : t.Bounded) :
      Reachable P disk t (es ++ s.event a) (s.drops a ++ ds)

end Xv6Bio

end KianRiscV
