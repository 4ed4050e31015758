/-
# The blocks of the log of xv6

The disk of xv6 as a disk with a redo log, and the invariants of its blocks and buffers: `Stored`
says that the disk recovers to the durable contents and that the buffers have the current ones,
`Phase` what holds besides at each place in `commit` and in `recover_from_log`.
-/
import KianRiscV.Xv6LogSpace

namespace KianRiscV

namespace Xv6

open RedoLog (Holds Installed Store)

/-! ## The header block -/

theorem readHead_putHead {lh : List BlockNo} (h : lh.length ≤ logBlocks) (data : Block) :
    readHead (putHead lh data) = lh := by
  have hn : (putHead lh data 0).toInt.toNat = lh.length := by
    have hlt : lh.length ≤ 30 := h
    simp only [putHead, Fin.val_zero, if_true]
    rw [BitVec.toInt_eq_toNat_of_lt (by rw [BitVec.toNat_ofNat]; omega), BitVec.toNat_ofNat]
    omega
  apply List.ext_getElem
  · rw [readHead, List.length_map, List.length_range, hn]
  · intro i hi hi'
    have hlt : i + 1 < 128 := by
      have h30 : lh.length ≤ 30 := h
      omega
    simp only [readHead, List.getElem_map, List.getElem_range, dif_pos hlt, putHead,
      Nat.add_one_ne_zero, if_false, Nat.add_sub_cancel, List.getElem?_eq_getElem hi',
      Option.getD_some]

/-! ## The blocks of the log -/

section Blocks

variable {start b : BlockNo} {tail t : ℕ}

theorem logBlock_ne_start (h : tail < logBlocks) : logBlock start tail ≠ start := by
  intro heq
  have hlt : tail < 30 := h
  have hn := congrArg BitVec.toNat heq
  rw [logBlock, BitVec.toNat_add, BitVec.toNat_ofNat] at hn
  have := start.isLt
  omega

theorem logBlock_inj (h : tail < logBlocks) (ht : t < logBlocks)
    (heq : logBlock start tail = logBlock start t) : tail = t := by
  have hlt : tail < 30 := h
  have hlt' : t < 30 := ht
  have hn := congrArg BitVec.toNat heq
  rw [logBlock, logBlock, BitVec.toNat_add, BitVec.toNat_add, BitVec.toNat_ofNat,
    BitVec.toNat_ofNat] at hn
  have := start.isLt
  omega

theorem not_isHome_start : ¬ IsHome start start := fun h => h.1 rfl

theorem not_isHome_logBlock (h : tail < logBlocks) : ¬ IsHome start (logBlock start tail) :=
  fun hno => hno.2 tail h rfl

end Blocks

/-! ## The disk -/

/-- The disk as header, slots and home. -/
def diskOf (start : BlockNo) (disk : BlockNo → Block) : RedoLog.Disk BlockNo Block :=
  ⟨readHead (disk start), fun t => disk (logBlock start t), disk⟩

/-- The header fits the log and names blocks outside of it. -/
structure Sound (start : BlockNo) (disk : BlockNo → Block) : Prop where
  length : (readHead (disk start)).length ≤ logBlocks
  home : ∀ b ∈ readHead (disk start), IsHome start b

section Disk

variable {start b : BlockNo} {disk : BlockNo → Block} {D D' : BlockNo → Block} {v : Block} {tail : ℕ}

theorem Sound.of_head (h : Sound start disk) {disk' : BlockNo → Block}
    (heq : disk' start = disk start) : Sound start disk' := by
  obtain ⟨hl, hh⟩ := h
  rw [← heq] at hl hh
  exact ⟨hl, hh⟩

/-- A write outside of the log. -/
theorem holds_home (hs : Sound start disk) (h : Holds (IsHome start) (diskOf start disk) D)
    (hb : b ∈ readHead (disk start)) :
    Holds (IsHome start) (diskOf start (Function.update disk b v)) D := by
  have hhome := hs.home b hb
  refine (h.install hb v).congr ?_ (fun t ht => ?_) fun _ _ => rfl
  · exact congrArg readHead (Function.update_of_ne hhome.1.symm _ _)
  · exact Function.update_of_ne (hhome.2 t (Nat.lt_of_lt_of_le ht hs.length)).symm _ _

theorem installed_home (hs : Sound start disk)
    (h : Holds (IsHome start) (diskOf start disk) D) (hi : Installed (diskOf start disk) D tail)
    (ht : tail < (readHead (disk start)).length)
    (hb : (readHead (disk start)).get ⟨tail, ht⟩ = b) (hv : disk (logBlock start tail) = v) :
    Installed (diskOf start (Function.update disk b v)) D (tail + 1) := by
  subst hb hv
  have hhome := hs.home _ (List.get_mem _ ⟨tail, ht⟩)
  refine (hi.succ ht (h.slots tail ht)).congr ?_ fun _ _ => rfl
  exact congrArg readHead (Function.update_of_ne hhome.1.symm _ _)

/-- A write to a slot, with an empty header. -/
theorem holds_slot (h : Holds (IsHome start) (diskOf start disk) D)
    (hd : readHead (disk start) = []) (ht : tail < logBlocks) :
    Holds (IsHome start) (diskOf start (Function.update disk (logBlock start tail) v)) D := by
  refine RedoLog.holds_of_home ?_ fun c hc => ?_
  · rw [← hd]
    exact congrArg readHead (Function.update_of_ne (logBlock_ne_start ht).symm _ _)
  · exact (Function.update_of_ne (hc.2 tail ht) _ _).trans (h.home hd hc)

/-- The header is written over an empty one. -/
theorem holds_head (h : Holds (IsHome start) (diskOf start disk) D)
    (hd : readHead (disk start) = []) {lh : List BlockNo} (hl : lh.length ≤ logBlocks)
    (hv : readHead v = lh)
    (hslots : ∀ t (ht : t < lh.length), disk (logBlock start t) = D' (lh.get ⟨t, ht⟩))
    (hrest : ∀ c, IsHome start c → c ∉ lh → D' c = D c) :
    Holds (IsHome start) (diskOf start (Function.update disk start v)) D' := by
  refine (h.commit hd hslots hrest).congr ?_ (fun t ht => ?_) fun c hc => ?_
  · exact (congrArg readHead (Function.update_self _ _ _)).trans hv
  · exact Function.update_of_ne (logBlock_ne_start (Nat.lt_of_lt_of_le ht hl)) _ _
  · exact Function.update_of_ne hc.1 _ _

/-- It is cleared when the blocks are up to date. -/
theorem holds_clear (h : ∀ c, IsHome start c → disk c = D c) (hv : readHead v = []) :
    Holds (IsHome start) (diskOf start (Function.update disk start v)) D := by
  refine RedoLog.holds_of_home ?_ fun c hc => ?_
  · exact (congrArg readHead (Function.update_self _ _ _)).trans hv
  · exact (Function.update_of_ne hc.1 _ _).trans (h c hc)

end Disk

/-! ## Buffers and disk -/

/-- The processes, the blocks and their contents as a store. -/
abbrev Contents (π : Type) := Store BlockNo Block π

section Blocks

variable {π : Type} {start b : BlockNo} {s t : State π} {T : Contents π} {pins : List BlockNo}

/-- Buffers have the current contents, and those of the log are as on the disk. -/
structure Cached (start : BlockNo) (s : State π) (T : Contents π) : Prop where
  home : ∀ b v, IsHome start b → s.buf b = some v → v = T.current b
  log : ∀ b v, ¬ IsHome start b → s.buf b = some v → v = s.disk b

/-- A buffer that is locked or pinned is referenced, and the pinned ones are valid. -/
structure Referenced (s : State π) (pins : List BlockNo) : Prop where
  refs : ∀ b, (if (s.holder b).isSome then 1 else 0) + (if b ∈ pins then 1 else 0) ≤ s.refcnt b
  valid : ∀ b ∈ pins, (s.buf b).isSome = true

/-- The disk is one that recovers to the durable contents. -/
structure Stored (start : BlockNo) (s : State π) (T : Contents π) (pins : List BlockNo) : Prop where
  holds : Holds (IsHome start) (diskOf start s.disk) T.durable
  sound : Sound start s.disk
  cached : Cached start s T
  referenced : Referenced s pins

/-- The log in memory collects the blocks of a transaction. -/
structure Collecting (start : BlockNo) (disk : BlockNo → Block) (lh : List BlockNo)
    (T : Contents π) : Prop where
  empty : readHead (disk start) = []
  nodup : lh.Nodup
  home : ∀ b ∈ lh, IsHome start b
  rest : ∀ b, IsHome start b → b ∉ lh → T.current b = T.durable b

/-- The slots of the first `k` blocks are written. -/
def Logged (start : BlockNo) (disk : BlockNo → Block) (lh : List BlockNo) (T : Contents π) (k : ℕ) :
    Prop :=
  ∀ t (ht : t < lh.length), t < k → disk (logBlock start t) = T.current (lh.get ⟨t, ht⟩)

/-- The header is written, and the first `k` blocks are installed. -/
structure Installing (start : BlockNo) (disk : BlockNo → Block) (lh : List BlockNo)
    (T : Contents π) (k : ℕ) : Prop where
  header : readHead (disk start) = lh
  current : ∀ b, IsHome start b → T.current b = T.durable b
  installed : Installed (diskOf start disk) T.durable k

/-- Where the system is, with the blocks that are pinned there. -/
inductive Phase (start : BlockNo) (s : State π) (T : Contents π) : List BlockNo → Prop
  | readHead (hb : s.boot = some .readHead)
      (hc : ∀ b, IsHome start b → T.current b = T.durable b) : Phase start s T []
  | recover (k : ℕ) (hb : s.boot = some (.install k))
      (h : Installing start s.disk s.log.lh T k) : Phase start s T []
  | recovered (hb : s.boot = some .clear)
      (h : Installing start s.disk s.log.lh T s.log.lh.length) : Phase start s T []
  | opened (hb : s.boot = none) (hc : s.log.committing = false)
      (h : Collecting start s.disk s.log.lh T) (he : T.active = ∅ → s.log.lh = []) :
      Phase start s T s.log.lh
  | check (p : π) (hb : s.boot = none) (hp : s.procs p = .commit .check)
      (h : Collecting start s.disk s.log.lh T) : Phase start s T s.log.lh
  | writeLog (p : π) (k : ℕ) (hb : s.boot = none) (hp : s.procs p = .commit (.writeLog k))
      (h : Collecting start s.disk s.log.lh T) (hl : Logged start s.disk s.log.lh T k) :
      Phase start s T s.log.lh
  | writeHead (p : π) (hb : s.boot = none) (hp : s.procs p = .commit .writeHead)
      (h : Collecting start s.disk s.log.lh T)
      (hl : Logged start s.disk s.log.lh T s.log.lh.length) : Phase start s T s.log.lh
  | install (p : π) (k : ℕ) (hb : s.boot = none) (hp : s.procs p = .commit (.install k))
      (h : Installing start s.disk s.log.lh T k) (hn : s.log.lh.Nodup) :
      Phase start s T (s.log.lh.drop k)
  | clear (p : π) (hb : s.boot = none) (hp : s.procs p = .commit .clear)
      (h : Installing start s.disk s.log.lh T s.log.lh.length) : Phase start s T []
  | finish (p : π) (hb : s.boot = none) (hp : s.procs p = .commit .finish) (hl : s.log.lh = [])
      (h : Collecting start s.disk [] T) : Phase start s T []

/-- Buffers, references and locks do not matter. -/
theorem Phase.congr (h : Phase start s T pins) (hd : t.disk = s.disk) (hl : t.log = s.log)
    (hp : t.procs = s.procs) (hb : t.boot = s.boot) : Phase start t T pins := by
  cases s
  cases t
  subst hd hl hp hb
  cases h with
  | readHead hb hc => exact .readHead hb hc
  | recover k hb h => exact .recover k hb h
  | recovered hb h => exact .recovered hb h
  | opened hb hc h he => exact .opened hb hc h he
  | check p hb hp h => exact .check p hb hp h
  | writeLog p k hb hp h hl => exact .writeLog p k hb hp h hl
  | writeHead p hb hp h hl => exact .writeHead p hb hp h hl
  | install p k hb hp h hn => exact .install p k hb hp h hn
  | clear p hb hp h => exact .clear p hb hp h
  | finish p hb hp hl h => exact .finish p hb hp hl h

/-- Only blocks of the log are pinned. -/
theorem Phase.pins_subset (h : Phase start s T pins) : ∀ b ∈ pins, b ∈ s.log.lh := by
  cases h with
  | opened => exact fun _ hb => hb
  | check => exact fun _ hb => hb
  | writeLog => exact fun _ hb => hb
  | writeHead => exact fun _ hb => hb
  | install => exact fun _ hb => List.mem_of_mem_drop hb
  | _ => exact fun b hb => absurd hb List.not_mem_nil

theorem Collecting.disk_eq {disk : BlockNo → Block} {lh : List BlockNo}
    (h : Collecting start disk lh T) (hh : Holds (IsHome start) (diskOf start disk) T.durable)
    (hb : IsHome start b) (hbl : b ∉ lh) : disk b = T.current b :=
  (hh.home h.empty hb).trans (h.rest b hb hbl).symm

theorem Installing.disk_eq {disk : BlockNo → Block} {lh : List BlockNo} {k : ℕ}
    (h : Installing start disk lh T k) (hh : Holds (IsHome start) (diskOf start disk) T.durable)
    (hb : IsHome start b) (hbl : b ∉ lh.drop k) : disk b = T.durable b := by
  by_cases hmem : b ∈ lh
  · obtain ⟨⟨t, ht⟩, hget⟩ := List.get_of_mem hmem
    have htk : t < k := by
      by_contra hno
      refine hbl (List.mem_iff_getElem.2 ⟨t - k, ?_, ?_⟩)
      · rw [List.length_drop]
        omega
      · rw [List.getElem_drop]
        simp only [show k + (t - k) = t by omega]
        exact hget
    obtain ⟨hheader, -, hins⟩ := h
    subst hheader
    rw [← hget]
    exact hins t ht htk
  · have hhead := h.header
    exact hh.rest b hb (by rw [diskOf, hhead]; exact hmem)

/-- Blocks that are not pinned are up to date on the disk. -/
theorem Phase.disk_eq (h : Phase start s T pins) (hs : Stored start s T pins) (hboot : s.boot = none)
    (hb : IsHome start b) (hbl : b ∉ pins) : s.disk b = T.current b := by
  cases h with
  | readHead hb' hc => exact absurd (hb'.symm.trans hboot) (by simp)
  | recover k hb' h => exact absurd (hb'.symm.trans hboot) (by simp)
  | recovered hb' h => exact absurd (hb'.symm.trans hboot) (by simp)
  | opened _ hc h he => exact h.disk_eq hs.holds hb hbl
  | check p _ hp h => exact h.disk_eq hs.holds hb hbl
  | writeLog p k _ hp h hl => exact h.disk_eq hs.holds hb hbl
  | writeHead p _ hp h hl => exact h.disk_eq hs.holds hb hbl
  | install p k _ hp h hn => exact (h.disk_eq hs.holds hb hbl).trans (h.current b hb).symm
  | clear p _ hp h =>
    exact (h.disk_eq hs.holds hb (by simp)).trans (h.current b hb).symm
  | finish p _ hp hl h => exact h.disk_eq hs.holds hb hbl

/-- Readers see the current contents. -/
theorem Phase.view_eq (h : Phase start s T pins) (hs : Stored start s T pins)
    (hboot : s.boot = none) (hb : IsHome start b) : s.view b = T.current b := by
  unfold State.view
  cases hbuf : s.buf b with
  | some v => exact hs.cached.home b v hb hbuf
  | none =>
    refine h.disk_eq hs hboot hb fun hmem => ?_
    have hv := hs.referenced.valid b hmem
    rw [hbuf] at hv
    exact absurd hv (by decide)

/-- The blocks of the log are read as they are on the disk. -/
theorem Stored.view_log (h : Stored start s T pins) (hb : ¬ IsHome start b) :
    s.view b = s.disk b := by
  unfold State.view
  cases hbuf : s.buf b with
  | some v => exact h.cached.log b v hb hbuf
  | none => rfl

/-! ## Single writes -/

/-- `memmove` to a buffer and `bwrite`, of the current contents. -/
theorem Cached.bwrite (h : Cached start s T) {v : Block} (hv : IsHome start b → v = T.current b)
    (hbuf : t.buf = Function.update s.buf b (some v)) (hdisk : t.disk = Function.update s.disk b v) :
    Cached start t T := by
  constructor
  · intro c w hc hw
    rw [hbuf] at hw
    by_cases hcb : c = b
    · subst hcb
      rw [Function.update_self] at hw
      exact (Option.some.inj hw).symm.trans (hv hc)
    · rw [Function.update_of_ne hcb] at hw
      exact h.home c w hc hw
  · intro c w hc hw
    rw [hbuf] at hw
    rw [hdisk]
    by_cases hcb : c = b
    · subst hcb
      rw [Function.update_self] at hw ⊢
      exact (Option.some.inj hw).symm
    · rw [Function.update_of_ne hcb] at hw ⊢
      exact h.log c w hc hw

/-- A buffer is filled. -/
theorem Cached.load (h : Cached start s T) (hv : IsHome start b → s.view b = T.current b)
    (hbuf : t.buf = Function.update s.buf b (some (s.view b))) (hdisk : t.disk = s.disk) :
    Cached start t T := by
  constructor
  · intro c w hc hw
    rw [hbuf] at hw
    by_cases hcb : c = b
    · subst hcb
      rw [Function.update_self] at hw
      exact (Option.some.inj hw).symm.trans (hv hc)
    · rw [Function.update_of_ne hcb] at hw
      exact h.home c w hc hw
  · intro c w hc hw
    rw [hbuf] at hw
    rw [hdisk]
    by_cases hcb : c = b
    · subst hcb
      rw [Function.update_self] at hw
      rw [← Option.some.inj hw]
      unfold State.view
      cases hcbuf : s.buf c with
      | some u => exact h.log c u hc hcbuf
      | none => rfl
    · rw [Function.update_of_ne hcb] at hw
      exact h.log c w hc hw

theorem isSome_update (f : BlockNo → Option Block) (b : BlockNo) (v : Block) {c : BlockNo}
    (h : (f c).isSome = true) : (Function.update f b (some v) c).isSome = true := by
  by_cases hcb : c = b
  · rw [hcb, Function.update_self]
    rfl
  · rw [Function.update_of_ne hcb]
    exact h

/-- Fewer pins. -/
theorem Referenced.of_subset (h : Referenced s pins) {pins' : List BlockNo}
    (hsub : ∀ b ∈ pins', b ∈ pins) (hr : t.refcnt = s.refcnt) (hh : t.holder = s.holder)
    (hv : ∀ b, (s.buf b).isSome = true → (t.buf b).isSome = true) : Referenced t pins' := by
  refine ⟨fun b => ?_, fun b hb => hv b (h.valid b (hsub b hb))⟩
  rw [hr, hh]
  have hle := h.refs b
  by_cases hb : b ∈ pins'
  · rw [if_pos (hsub b hb)] at hle
    rw [if_pos hb]
    exact hle
  · rw [if_neg hb]
    omega

/-- The last use of a pin. -/
theorem Referenced.unpin (h : Referenced s (b :: pins)) (hb : b ∉ pins)
    (hr : t.refcnt = Function.update s.refcnt b (s.refcnt b - 1)) (hh : t.holder = s.holder)
    (hv : ∀ b, (s.buf b).isSome = true → (t.buf b).isSome = true) : Referenced t pins := by
  refine ⟨fun c => ?_, fun c hc => hv c (h.valid c (List.mem_cons_of_mem _ hc))⟩
  rw [hr, hh]
  have hle := h.refs c
  by_cases hcb : c = b
  · subst hcb
    rw [if_pos List.mem_cons_self] at hle
    rw [if_neg hb, Function.update_self]
    omega
  · rw [Function.update_of_ne hcb]
    simp only [List.mem_cons, hcb, false_or] at hle
    exact hle

end Blocks

end Xv6

end KianRiscV
