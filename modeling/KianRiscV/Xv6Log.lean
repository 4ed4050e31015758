/-
# The log of xv6

`log.c` with the parts of `bio.c` that it rests on, as a system of processes that take steps in any
order, lose power in any state and recover.  A step is what a process does between two points where
others can come in: `begin_op`, `log_write` and `end_op` hold `log.lock`; one round of the loops of
`write_log` and `install_trans` holds its two buffers and writes one block to the disk.

* The buffers are kept by block number, and `evict` stands for `bget` recycling a buffer without
  references; which one it takes is the business of `bio.c`.
* `State.bread` is not blocked by a reference, only by the lock of the buffer, and always finds a
  buffer: that `bget` panics when all of the `NBUF` buffers are referenced, `commit` included, is
  left out here.  Of the panics only those of `log.c` itself are modelled.
* A process that would sleep does not take its step, and may take it in any later state in which it
  would not sleep.  Whether `wakeup` reaches it is left out.
* A write is made in a transaction, under the lock of the buffer, to a block outside of the log, and
  `log_write` follows before the lock is given up; a transaction writes at most `MAXOPBLOCKS`
  different blocks.  This is what the callers in `fs.c` do.
-/
import Mathlib.Data.Finset.Card
import KianRiscV.RedoLog
import KianRiscV.Instruction

namespace KianRiscV

namespace Xv6

/-- `MAXOPBLOCKS`. -/
def maxOpBlocks : ℕ := 10

/-- `LOGBLOCKS`. -/
def logBlocks : ℕ := maxOpBlocks * 3

/-- A block number. -/
abbrev BlockNo := BitVec 32

/-- The `BSIZE` bytes of a block, as the integers of a `struct logheader`. -/
abbrev Block := Fin 128 → Word

/-! ## The log in memory -/

/-- `struct log`, with `lh.block[0..lh.n-1]` as a list. -/
structure Log where
  outstanding : ℤ
  committing : Bool
  lh : List BlockNo
  deriving DecidableEq

/-- The log before `initlog`. -/
def Log.zero : Log := ⟨0, false, []⟩

/-- One round of `begin_op`; without result the process sleeps. -/
def Log.beginOp (l : Log) : Option Log :=
  if l.committing then none
  else if (l.lh.length : ℤ) + (l.outstanding + 1) * maxOpBlocks > logBlocks then none
  else some { l with outstanding := l.outstanding + 1 }

/-- `end_op` up to `commit`, and `do_commit`; without result it panics (`log.committing`). -/
def Log.endOp (l : Log) : Option (Log × Bool) :=
  if l.committing then none
  else if l.outstanding - 1 = 0 then some (⟨l.outstanding - 1, true, l.lh⟩, true)
  else some (⟨l.outstanding - 1, false, l.lh⟩, false)

/-- `log_write`, and whether it pins the buffer; without result it panics. -/
def Log.logWrite (l : Log) (blockno : BlockNo) : Option (Log × Bool) :=
  if l.lh.length ≥ logBlocks then none
  else if l.outstanding < 1 then none
  else
    let i := l.lh.findIdx (· == blockno)
    if i = l.lh.length then some ({ l with lh := l.lh ++ [blockno] }, true)
    else some ({ l with lh := l.lh.set i blockno }, false)

/-! ## The header block -/

/-- What `write_head` makes of the buffer. -/
def putHead (lh : List BlockNo) (data : Block) : Block := fun i =>
  if i.val = 0 then BitVec.ofNat 32 lh.length
  else (lh[i.val - 1]?).getD (data i)

/-- What `read_head` makes of it. -/
def readHead (data : Block) : List BlockNo :=
  (List.range (data 0).toInt.toNat).map fun i => if h : i + 1 < 128 then data ⟨i + 1, h⟩ else 0#32

/-! ## Processes, buffers and the disk -/

/-- Where a process is in `commit`. -/
inductive CommitPc where
  | check
  | writeLog (tail : ℕ)
  | writeHead
  | install (tail : ℕ)
  | clear
  | finish
  deriving DecidableEq

/-- A process outside of the file system, in a transaction that has written some blocks, or in the
commit of one. -/
inductive Proc where
  | idle
  | op (blocks : Finset BlockNo)
  | commit (pc : CommitPc)
  deriving DecidableEq

/-- Where `initlog` is in `recover_from_log`. -/
inductive BootPc where
  | readHead
  | install (tail : ℕ)
  | clear
  deriving DecidableEq

/-- The disk, the buffers with their references and locks, the log and the processes; `boot` until
`initlog` is through. -/
structure State (π : Type) where
  disk : BlockNo → Block
  buf : BlockNo → Option Block
  refcnt : BlockNo → ℕ
  holder : BlockNo → Option π
  log : Log
  procs : π → Proc
  boot : Option BootPc

/-- The block of the log for the `tail`-th block of the header. -/
def logBlock (start : BlockNo) (tail : ℕ) : BlockNo := start + BitVec.ofNat 32 (tail + 1)

/-- The blocks that do not belong to the log. -/
def IsHome (start b : BlockNo) : Prop := b ≠ start ∧ ∀ tail < logBlocks, b ≠ logBlock start tail

instance (start b : BlockNo) : Decidable (IsHome start b) := by
  unfold IsHome
  infer_instance

/-- What a process does next; `crash` is done to all of them. -/
inductive Action (π : Type) where
  | evict (b : BlockNo)
  | bread (p : π) (b : BlockNo)
  | brelse (p : π) (b : BlockNo)
  | beginOp (p : π)
  | write (p : π) (b : BlockNo) (v : Block)
  | endOp (p : π)
  | commit (p : π)
  | boot
  | crash

namespace State

variable {π : Type} [DecidableEq π]

/-- The data `bread` finds: those of the buffer, or of the disk if it is not valid. -/
def view (s : State π) (b : BlockNo) : Block := (s.buf b).getD (s.disk b)

/-- `bread` leaves a valid buffer. -/
def load (s : State π) (b : BlockNo) : State π :=
  { s with buf := Function.update s.buf b (some (s.view b)) }

/-- `memmove` to a buffer and `bwrite`. -/
def bwrite (s : State π) (b : BlockNo) (v : Block) : State π :=
  { s with buf := Function.update s.buf b (some v), disk := Function.update s.disk b v }

/-- `bunpin`. -/
def bunpin (s : State π) (b : BlockNo) : State π :=
  { s with refcnt := Function.update s.refcnt b (s.refcnt b - 1) }

/-- One round of `write_log`. -/
def writeLog (start : BlockNo) (s : State π) (tail : ℕ) (b : BlockNo) : State π :=
  (s.load b).bwrite (logBlock start tail) (s.view b)

/-- One round of `install_trans`. -/
def installTrans (start : BlockNo) (recovering : Bool) (s : State π) (tail : ℕ) (b : BlockNo) :
    State π :=
  let t := (s.load (logBlock start tail)).bwrite b (s.view (logBlock start tail))
  if recovering then t else t.bunpin b

/-- `write_head`. -/
def writeHead (start : BlockNo) (s : State π) : State π :=
  s.bwrite start (putHead s.log.lh (s.view start))

/-- The process goes on at `pc`. -/
def goto (s : State π) (p : π) (q : Proc) : State π :=
  { s with procs := Function.update s.procs p q }

/-- No process has the lock of the buffer. -/
def Free (s : State π) (b : BlockNo) : Prop := s.holder b = none

instance (s : State π) (b : BlockNo) : Decidable (s.Free b) := by
  unfold Free
  infer_instance

/-- The next piece of `commit`, and the end of `end_op` behind it. -/
def commitStep (start : BlockNo) (s : State π) (p : π) (pc : CommitPc) : Option (State π) :=
  match pc with
  | .check =>
    some (s.goto p (.commit (if s.log.lh.length > 0 then .writeLog 0 else .finish)))
  | .writeLog tail =>
    match s.log.lh[tail]? with
    | none => some (s.goto p (.commit .writeHead))
    | some b =>
      if s.Free b ∧ s.Free (logBlock start tail) then
        some ((s.writeLog start tail b).goto p (.commit (.writeLog (tail + 1))))
      else none
  | .writeHead =>
    if s.Free start then some ((s.writeHead start).goto p (.commit (.install 0))) else none
  | .install tail =>
    match s.log.lh[tail]? with
    | none => some (s.goto p (.commit .clear))
    | some b =>
      if s.Free b ∧ s.Free (logBlock start tail) then
        some ((s.installTrans start false tail b).goto p (.commit (.install (tail + 1))))
      else none
  | .clear =>
    if s.Free start then
      some (({ s with log := { s.log with lh := [] } }.writeHead start).goto p (.commit .finish))
    else none
  | .finish => some ({ s with log := { s.log with committing := false } }.goto p .idle)

/-- The next piece of `recover_from_log`. -/
def bootStep (start : BlockNo) (s : State π) (pc : BootPc) : State π :=
  match pc with
  | .readHead =>
    { s.load start with
      log := { s.log with lh := readHead (s.view start) }
      boot := some (.install 0) }
  | .install tail =>
    match s.log.lh[tail]? with
    | none => { s with boot := some .clear }
    | some b => { s.installTrans start true tail b with boot := some (.install (tail + 1)) }
  | .clear =>
    { { s with log := { s.log with lh := [] } }.writeHead start with boot := none }

/-- The power fails: only the disk is left. -/
def crashed (s : State π) : State π where
  disk := s.disk
  buf := fun _ => none
  refcnt := fun _ => 0
  holder := fun _ => none
  log := Log.zero
  procs := fun _ => .idle
  boot := some .readHead

/-- One step; without result the process is blocked, panics or does not act so. -/
def step (start : BlockNo) (s : State π) : Action π → Option (State π)
  | .crash => some s.crashed
  | .evict b =>
    if s.refcnt b = 0 then some { s with buf := Function.update s.buf b none } else none
  | .boot => s.boot.map (s.bootStep start)
  | .bread p b =>
    if s.boot = none ∧ s.Free b then
      some { s.load b with
        refcnt := Function.update s.refcnt b (s.refcnt b + 1)
        holder := Function.update s.holder b (some p) }
    else none
  | .brelse p b =>
    if s.holder b = some p then
      some { s with
        refcnt := Function.update s.refcnt b (s.refcnt b - 1)
        holder := Function.update s.holder b none }
    else none
  | .beginOp p =>
    if s.boot = none ∧ s.procs p = .idle then
      s.log.beginOp.map fun l => { s with log := l }.goto p (.op ∅)
    else none
  | .write p b v =>
    match s.procs p with
    | .op blocks =>
      if s.holder b = some p ∧ IsHome start b ∧ (b ∈ blocks ∨ blocks.card < maxOpBlocks) then
        (s.log.logWrite b).map fun r =>
          { s with
            log := r.1
            buf := Function.update s.buf b (some v)
            refcnt := if r.2 then Function.update s.refcnt b (s.refcnt b + 1) else s.refcnt }.goto p
            (.op (insert b blocks))
      else none
    | _ => none
  | .endOp p =>
    match s.procs p with
    | .op _ =>
      s.log.endOp.map fun r =>
        { s with log := r.1 }.goto p (if r.2 then .commit .check else .idle)
    | _ => none
  | .commit p =>
    match s.procs p with
    | .commit pc => s.commitStep start p pc
    | _ => none

/-- What a step is for the users of the file system; the transaction commits when `write_head` has
written its header. -/
def event (s : State π) : Action π → List (RedoLog.Event BlockNo Block π)
  | .crash => [.crash]
  | .beginOp p => [.begin p]
  | .write p b v => [.write p b v]
  | .endOp p => [.finish p]
  | .commit p => if s.procs p = .commit .writeHead then [.commit] else []
  | .evict _ | .boot | .bread _ _ | .brelse _ _ => []

/-- A run and its events. -/
def run (start : BlockNo) (s : State π) :
    List (Action π) → Option (State π × List (RedoLog.Event BlockNo Block π))
  | [] => some (s, [])
  | a :: as => do
    let t ← s.step start a
    let r ← t.run start as
    return (r.1, s.event a ++ r.2)

/-- The machine is switched on. -/
def init (disk : BlockNo → Block) : State π where
  disk := disk
  buf := fun _ => none
  refcnt := fun _ => 0
  holder := fun _ => none
  log := Log.zero
  procs := fun _ => .idle
  boot := some .readHead

end State

end Xv6

end KianRiscV
