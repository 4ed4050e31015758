/-
# Page-table updates behind the caches

The processor with `cache.v` and the SDRAM, from reset.  A store has reached the SDRAM when it
is answered, and `SFENCE.VMA` empties both TLBs.  What is left is where the walker reads: a walk
for a data access reads the SDRAM, a walk for a fetch reads through the instruction cache, which
only `FENCE.I` clears.  So a page-table update takes effect with `SFENCE.VMA` as long as no walk
for a fetch finds an old line there.

The invariant before the fence does not know what the walker has read: `InStep` says that the
unit is in some phase over some memory.  After the fence it is in a phase over the SDRAM.
-/
import KianRiscV.BusIntegrity
import KianRiscV.CachedSystem
import KianRiscV.CacheView

namespace KianRiscV

/-- How the walker comes to be on level 0: it was there before and has had no answer, or it has
just read a pointer on level 1. -/
theorem TableWalk.level_zero_cases {iw dw : ℕ} {w : TableWalk iw dw} {i : WalkIn}
    (hs : (w.next i).state ≠ .s0) (hl : (w.next i).level = 0#2) :
    (w.state = .s1 ∧ w.level = 0#2) ∨ (w.state = .s2 ∧ w.level = 0#2 ∧ i.memReady = false) ∨
      (w.state = .s2 ∧ w.level = 1#2 ∧ i.memReady = true) := by
  change w.stateNxt i ≠ .s0 at hs
  change w.levelNxt i = 0#2 at hl
  cases hw : w.state with
  | s0 =>
    simp only [stateNxt, levelNxt, hw] at hs hl
    cases hm : satpModeOf i.satp <;> cases hv : i.valid <;> cases hr : w.ready <;>
      simp [hm, hv, hr] at hs hl
  | s1 =>
    simp only [levelNxt, hw] at hl
    exact .inl ⟨rfl, hl⟩
  | s2 =>
    simp only [levelNxt, hw] at hl
    cases hr : i.memReady with
    | false => exact .inr (.inl ⟨rfl, by simpa [hr] using hl, rfl⟩)
    | true =>
      cases hv : pteV i.memRdata with
      | false => simp [stateNxt, readyNxt, hw, hr, hv] at hs
      | true =>
        cases hp : pteIsPointer i.memRdata with
        | false => simp [hr, hv, hp] at hl
        | true =>
          have hsub : ∀ l : BitVec 2, l - 1#2 = 0#2 → l = 1#2 := by decide
          simp only [hr, hv, hp, Bool.and_true, if_true] at hl
          exact .inr (.inr ⟨rfl, hsub _ hl, rfl⟩)

namespace CachedSystem

variable {iset iways dset dways iw dw : ℕ} {ipolicy : ReplacementPolicy iset iways}
  {dpolicy : ReplacementPolicy dset dways}

/-! ## What the sides of the bus see -/

section

variable (cfg : SocConfig) (s : CachedSystem iw dw ipolicy dpolicy)

/-- The request to the caches, as long as it is not answered. -/
def sdramReq : CacheReq := s.cacheReq (s.busReq.valid && BusAccess.inSdram cfg s.memAddr)

/-- The request on the bus that has been seen unanswered in the previous cycle. -/
def held : Option BusReq := if s.cache.busy then some s.busReq else s.deviceHeld

/-- The words of the SDRAM at the word addresses of the bus. -/
def content : BitVec 32 → Word := fun a => s.ram.content (a.setWidth 30)

/-- The words as the access on the bus sees them. -/
def view : BitVec 32 → Word := fun a => s.cache.view s.isInstruction s.ram.content (a.setWidth 30)

/-- The walker waits for a page-table entry. -/
def readsTable : Bool := s.cpu.mmu.state == .translate && s.cpu.mmu.ptw.state == .s2

/-- What every cycle of the run is asked for: no fetch is presented at a misaligned address, the
walker is not past level 0, and page tables are read from the SDRAM. -/
structure Orderly : Prop where
  aligned : s.cpu.FetchAligned
  level : s.cpu.mmu.ptw.level ≠ 3#2
  tables : s.readsTable = true → BusAccess.inSdram cfg s.memAddr = true

/-- No page-table read made for a fetch finds a line of the instruction cache that differs from
the SDRAM. -/
def FreshRead : Prop :=
  s.readsTable = true → s.isInstruction = true →
    s.cache.icache.cacheInst.hit (Dcache.fullTag s.memAddr) = true →
      s.cache.icache.cacheInst.payload (Dcache.fullTag s.memAddr) =
        s.ram.content (Dcache.fullTag s.memAddr)

/-- What has been read of the path of the request is what the access still sees. -/
def Seen (rd : BitVec 32 → Word) : Prop :=
  s.cpu.mmu.ptw.state ≠ .s0 → s.cpu.mmu.ptw.level = 0#2 →
    pathPte1 rd s.cpu.req.satp s.cpu.req.addr = pathPte1 s.view s.cpu.req.satp s.cpu.req.addr

/-- The memory management unit, the caches and the other slaves work on one request, the one the
core presents. -/
structure InStep : Prop where
  waits : s.cpu.mmu.state ≠ .idle → waitsForBus s.cpu.core.state = true
  serves : s.cache.Serves s.ram s.isInstruction (s.sdramReq cfg)
  device : s.deviceHeld = none ∨
    (s.deviceHeld = some s.busReq ∧ BusAccess.inSdram cfg s.memAddr = false)
  phase : ∃ rd, s.cpu.mmu.Phase false rd s.held s.cpu.req ∧ s.Seen rd

end

variable {cfg : SocConfig} {p : Params} {s : CachedSystem iw dw ipolicy dpolicy} {i : CachedIn}

theorem fullTag_memAddr : Dcache.fullTag s.memAddr = (wordAddr s.busReq.addr).setWidth 30 := by
  apply BitVec.eq_of_getLsbD_eq
  intro k hk
  simp only [Dcache.fullTag, memAddr, wordAddr, BitVec.getLsbD_extractLsb', BitVec.getLsbD_setWidth,
    hk, show 2 + k < 32 by omega, show k < 32 by omega, decide_true, Bool.true_and]

/-- On a word the walker waits for, the view is the SDRAM exactly if the read is fresh. -/
theorem view_eq_content_iff (hr : s.readsTable = true) :
    s.view (wordAddr s.busReq.addr) = s.content (wordAddr s.busReq.addr) ↔ s.FreshRead := by
  unfold FreshRead
  rw [view, content, ← fullTag_memAddr, Cache.view]
  cases hi : s.isInstruction with
  | false => simp [hr]
  | true =>
    cases hh : s.cache.icache.cacheInst.hit (Dcache.fullTag s.memAddr) with
    | false => simp [hr, Icache.view_of_miss hh]
    | true => simp [hr, Icache.view_of_hit hh]

/-! ## One cycle -/

/-- The address the caches show is that of the request. -/
theorem InStep.isSdram (h : s.InStep cfg) : s.isSdram cfg i = BusAccess.inSdram cfg s.memAddr := by
  rw [CachedSystem.isSdram, h.serves.ramRequest_addr (s.cacheReq false) rfl]
  rfl

/-- The caches see the request until it is answered. -/
theorem InStep.cacheReq_eq (h : s.InStep cfg) :
    s.cacheReq (s.memSdramValid cfg i) =
      ⟨(s.sdramReq cfg).valid && !s.cache.cpuReady s.isInstruction (s.ramReady i),
        (s.sdramReq cfg).addr, (s.sdramReq cfg).mask, (s.sdramReq cfg).data⟩ := by
  rw [memSdramValid, h.isSdram, memSdramReady]
  simp only [cacheReq, sdramReq]
  congr 1
  rw [Bool.and_assoc, Bool.and_comm]

theorem InStep.next_cache (h : s.InStep cfg) :
    (s.next cfg i p).cache = s.cache.next s.isInstruction (s.sdramReq cfg) (s.ramReady i)
      (s.ramRdata i) (!icacheFlush s.cpu.core.state s.cpu.core.instr) := by
  show s.cache.next _ _ _ _ _ = _
  rw [h.cacheReq_eq, Cache.next_guard]

theorem next_ram :
    (s.next cfg i p).ram = s.ram.next wordPort i.sdram
      (s.cache.ramRequest s.isInstruction (s.sdramReq cfg) (s.ramReady i)) := rfl

/-- The caches answer a request to the SDRAM that they have seen. -/
theorem InStep.of_sdramReady (h : s.InStep cfg) (hr : s.memSdramReady i = true) :
    (s.busReq.valid = true ∧ s.held = some s.busReq) ∧
      BusAccess.inSdram cfg s.memAddr = true := by
  have hb := Cache.busy_of_ready hr
  have hv := h.serves.valid hb
  simp only [sdramReq, cacheReq, Bool.and_eq_true] at hv
  exact ⟨⟨hv.1, by rw [held, hb]; rfl⟩, hv.2⟩

/-- So do the other slaves. -/
theorem InStep.of_deviceReady (h : s.InStep cfg) (hr : s.deviceReady cfg i = true) :
    (s.busReq.valid = true ∧ s.held = some s.busReq) ∧
      BusAccess.inSdram cfg s.memAddr = false := by
  simp only [deviceReady, Bool.and_eq_true, Bool.not_eq_true', beq_iff_eq] at hr
  obtain ⟨⟨⟨-, hv⟩, hd⟩, hheld⟩ := hr
  have hb : s.cache.busy = false := by
    by_contra hne
    have hvalid := h.serves.valid (by simpa using hne)
    simp [sdramReq, cacheReq, hd] at hvalid
  exact ⟨⟨hv, by rw [held, hb]; exact hheld⟩, hd⟩

theorem InStep.of_ready (h : s.InStep cfg) (hr : (s.cpuIn cfg i).memReady = true) :
    s.busReq.valid = true ∧ s.held = some s.busReq := by
  rcases Bool.or_eq_true_iff.1 hr with hr | hr
  · exact (h.of_sdramReady hr).1
  · exact (h.of_deviceReady hr).1

/-- A request on the bus is one the core presents, and no flush of the caches comes with it. -/
theorem InStep.busy (h : s.InStep cfg) (hv : s.busReq.valid = true) :
    s.cpu.req.valid = true ∧ s.cpu.mmu.pageFault = false ∧
      icacheFlush s.cpu.core.state s.cpu.core.instr = false := by
  have hne : s.cpu.mmu.state ≠ .idle := by
    intro hs
    simp [busReq, Sv32.busReq, hs] at hv
  obtain ⟨rd, hphase, -⟩ := h.phase
  obtain ⟨hl, hf⟩ := hphase.latched_of_busy hne
  refine ⟨hl.reqValid, hf, ?_⟩
  have hd : s.cpu.core.state ≠ .decode := by
    intro hd
    have hw := h.waits hne
    rw [hd] at hw
    exact absurd hw (by decide)
  simp [icacheFlush, hd]

theorem InStep.holds (h : s.InStep cfg) (ho : s.Orderly cfg) :
    s.cpu.mmu.Holds (s.cpuIn cfg i).memReady (s.cpu.core.tlbFlush (s.coreIn cfg i)) s.cpu.req
      (s.next cfg i p).cpu.req :=
  Cpu.holds (i := s.cpuIn cfg i) h.waits ho.aligned

/-- A request that is not answered stays on the bus, and of its kind. -/
theorem InStep.busReq_next (h : s.InStep cfg) (ho : s.Orderly cfg) (hv : s.busReq.valid = true)
    (hr : (s.cpuIn cfg i).memReady = false) :
    (s.next cfg i p).busReq = s.busReq ∧ s.cpu.req.SameAs (s.next cfg i p).cpu.req := by
  obtain ⟨rd, hphase, -⟩ := h.phase
  obtain ⟨hvalid, hfault, -⟩ := h.busy hv
  have hhold := h.holds (i := i) (p := p) ho
  have hc : s.cpu.mmu.cpuReady (s.cpuIn cfg i).memReady = false := by simp [Sv32.cpuReady, hr]
  refine ⟨?_, (hhold hvalid hc hfault).1⟩
  rw [hr] at hhold
  have hnext : (s.next cfg i p).cpu.mmu = s.cpu.mmu.next s.cpu.req
      (s.cpu.core.tlbFlush (s.coreIn cfg i)) false (s.cpuIn cfg i).memRdata := by
    rw [← hr]; rfl
  rw [busReq, hnext]
  exact hphase.busReq_next _ hhold hv fun _ => ho.level

/-! ## The edge of the bus -/

/-- The caches follow the processor. -/
theorem InStep.serves_next (h : s.InStep cfg) (ho : s.Orderly cfg) :
    (s.next cfg i p).cache.Serves (s.next cfg i p).ram (s.next cfg i p).isInstruction
        ((s.next cfg i p).sdramReq cfg) ∧
      (s.next cfg i p).cache.busy = ((s.sdramReq cfg).valid && !s.memSdramReady i) := by
  rw [h.next_cache, next_ram]
  cases hfl : icacheFlush s.cpu.core.state s.cpu.core.instr with
  | true =>
    have hv : (s.sdramReq cfg).valid = false := by
      by_contra hne
      simp only [sdramReq, cacheReq, Bool.not_eq_false, Bool.and_eq_true] at hne
      rw [(h.busy hne.1).2.2] at hfl
      exact absurd hfl (by decide)
    obtain ⟨hserves, hbusy⟩ := h.serves.next_reset (a := i.sdram) (x := s.ramRdata i) hv
    exact ⟨hserves, by rw [hv]; exact hbusy⟩
  | false =>
    refine ⟨h.serves.next fun hv hr => ?_, h.serves.busy_next⟩
    obtain ⟨hvalid, hsdram⟩ :
        s.busReq.valid = true ∧ BusAccess.inSdram cfg s.memAddr = true := by
      simpa [sdramReq, cacheReq] using hv
    have hnr : (s.cpuIn cfg i).memReady = false := by
      have hdev : s.deviceReady cfg i = false := by simp [deviceReady, hsdram]
      show (s.memSdramReady i || s.deviceReady cfg i) = false
      rw [hdev, Bool.or_false]
      exact hr
    obtain ⟨hbus, hsame⟩ := h.busReq_next (p := p) ho hvalid hnr
    refine ⟨?_, hsame.isInstruction⟩
    rw [sdramReq, cacheReq, memAddr, hbus]
    rfl

/-- The request seen unanswered, for the next cycle. -/
theorem InStep.held_next (h : s.InStep cfg) (ho : s.Orderly cfg) :
    (s.next cfg i p).held = heldNext s.busReq (s.cpuIn cfg i).memReady ∧
      ((s.next cfg i p).deviceHeld = none ∨
        ((s.next cfg i p).deviceHeld = some (s.next cfg i p).busReq ∧
          BusAccess.inSdram cfg (s.next cfg i p).memAddr = false)) := by
  have hbusy := (h.serves_next (i := i) (p := p) ho).2
  have hdev : (s.next cfg i p).deviceHeld =
      if s.busReq.valid && !BusAccess.inSdram cfg s.memAddr && !s.deviceReady cfg i then
        some s.busReq else none := rfl
  have hready : (s.cpuIn cfg i).memReady = (s.memSdramReady i || s.deviceReady cfg i) := rfl
  rw [held, hbusy, hdev, heldNext]
  simp only [sdramReq, cacheReq]
  rcases Bool.eq_false_or_eq_true s.busReq.valid with hv | hv
  · rcases Bool.eq_false_or_eq_true (BusAccess.inSdram cfg s.memAddr) with hs | hs
    · have hd : s.deviceReady cfg i = false := by simp [deviceReady, hs]
      rcases Bool.eq_false_or_eq_true (s.memSdramReady i) with hr | hr
      · simp [hv, hs, hready, hr]
      · have hbus := (h.busReq_next (i := i) (p := p) ho hv (by rw [hready, hr, hd]; rfl)).1
        simp [hv, hs, hready, hr, hd, hbus]
    · have hr : s.memSdramReady i = false := by
        by_contra hne
        have hin := (h.of_sdramReady (by simpa using hne)).2
        rw [hs] at hin
        exact absurd hin (by decide)
      rcases Bool.eq_false_or_eq_true (s.deviceReady cfg i) with hd | hd
      · simp [hv, hs, hready, hd]
      · have hbus := (h.busReq_next (i := i) (p := p) ho hv (by rw [hready, hr, hd]; rfl)).1
        have haddr : (s.next cfg i p).memAddr = s.memAddr := by rw [memAddr, hbus]; rfl
        simp [hv, hs, hready, hr, hd, hbus, haddr]
  · simp [hv]

/-- **Stores reach the SDRAM with their answer**, and nothing else changes it. -/
theorem InStep.next_content (h : s.InStep cfg) :
    (s.next cfg i p).ram.content =
      if !s.isInstruction && s.memSdramReady i then
        wordPort.write s.ram.content (s.sdramReq cfg)
      else s.ram.content :=
  h.serves.next_content _

/-- The contents change only with an answer to the processor. -/
theorem InStep.content_next (h : s.InStep cfg)
    (hc : s.cpu.mmu.cpuReady (s.cpuIn cfg i).memReady = false) :
    (s.next cfg i p).content = s.content := by
  suffices hram : (s.next cfg i p).ram.content = s.ram.content by
    funext a
    rw [content, hram]
    rfl
  rw [h.next_content]
  split_ifs with hw
  · have hr : (s.cpuIn cfg i).memReady = true := by
      rw [Bool.and_eq_true] at hw
      simp [cpuIn, hw.2]
    have ha : s.cpu.mmu.answers = false := by simpa [Sv32.cpuReady, hr] using hc
    exact MemoryPort.Format.write_of_read (Sv32.busReq_wstrb ha)
  · rfl

/-- What the walker reads is what the access sees. -/
theorem InStep.table_read (h : s.InStep cfg) (ho : s.Orderly cfg)
    (hr : (s.cpuIn cfg i).memReady = true) (hs : s.cpu.mmu.state = .translate) :
    s.readsTable = true ∧ s.memSdramReady i = true ∧
      (s.cpuIn cfg i).memRdata = s.view (wordAddr s.busReq.addr) := by
  obtain ⟨rd, hphase, -⟩ := h.phase
  have hread := hphase.read_of_ready hs (h.of_ready hr)
  have htable : s.readsTable = true := by simp [readsTable, hs, hread.walk]
  have hready : s.memSdramReady i = true := by
    rcases Bool.or_eq_true_iff.1 hr with hr | hr
    · exact hr
    · have hno := (h.of_deviceReady hr).2
      rw [ho.tables htable] at hno
      exact absurd hno (by decide)
  have hmask : (s.sdramReq cfg).mask = 0#4 := by
    show s.busReq.wstrb = 0#4
    rw [busReq, hread.busReq]
    rfl
  refine ⟨htable, hready, ?_⟩
  have hdata : (s.cpuIn cfg i).memRdata =
      s.cache.cpuDout s.isInstruction (s.sdramReq cfg) (s.ramRdata i) := by
    show (if s.memSdramReady i then _ else _) = _
    rw [hready]
    rfl
  rw [hdata, view, ← fullTag_memAddr]
  exact h.serves.read hready hmask

/-- The view of a waiting access stays where the path has been read. -/
theorem InStep.view_next (h : s.InStep cfg) (hv : s.busReq.valid = true)
    (hsame : s.cpu.req.SameAs (s.next cfg i p).cpu.req) {a : BitVec 32}
    (ha : s.memSdramReady i = false ∨
      (s.busReq.wstrb = 0#4 ∧ a.setWidth 30 = Dcache.fullTag s.memAddr)) :
    (s.next cfg i p).view a = s.view a := by
  have hi : (s.next cfg i p).isInstruction = s.isInstruction := hsame.isInstruction
  rw [view, hi, h.next_cache, (h.busy hv).2.2, next_ram]
  cases hr : s.memSdramReady i with
  | false => exact h.serves.view_next hr _
  | true =>
    obtain ⟨hm, htag⟩ := ha.resolve_left (by simp [hr])
    rw [view, htag]
    exact h.serves.view_next_read hr hm _

/-- A walk that goes on is one of the same request. -/
theorem InStep.same_of_walk {rd : BitVec 32 → Word} (h : s.InStep cfg) (ho : s.Orderly cfg)
    (hphase : s.cpu.mmu.Phase false rd s.held s.cpu.req) (hs : s.cpu.mmu.ptw.state ≠ .s0) :
    s.cpu.req.SameAs (s.next cfg i p).cpu.req := by
  have keep : s.cpu.mmu.Translating s.cpu.req → s.cpu.mmu.sel.ready = false →
      s.cpu.req.SameAs (s.next cfg i p).cpu.req := by
    intro ht hd
    exact (h.holds ho ht.reqValid (Sv32.cpuReady_of_translating ht hd _) ht.pageFault).1
  cases hw : s.cpu.mmu.ptw.state with
  | s0 => exact absurd hw hs
  | s1 =>
    have hlook := hphase.lookup_of_s1 hw
    exact keep hlook.toTranslating hlook.sel.ready
  | s2 =>
    have hread := hphase.read_of_s2 hw
    exact keep hread.toTranslating hread.sel.ready

/-- On level 0 the walker has its read on the bus. -/
theorem busReq_valid_of_level {rd : BitVec 32 → Word}
    (hphase : s.cpu.mmu.Phase false rd s.held s.cpu.req) (hs : s.cpu.mmu.ptw.state ≠ .s0)
    (hl : s.cpu.mmu.ptw.level = 0#2) : s.busReq.valid = true := by
  cases hw : s.cpu.mmu.ptw.state with
  | s0 => exact absurd hw hs
  | s1 =>
    have hlook := hphase.lookup_of_s1 hw
    rw [busReq, hlook.busReq_valid]
    rcases hlook.path with ⟨h1, -⟩ | ⟨-, hm, -⟩ | ⟨h3, -⟩
    · exact absurd (hl.symm.trans h1) (by decide)
    · rw [hm]
      rfl
    · exact absurd (hl.symm.trans h3) (by decide)
  | s2 => rw [busReq, (hphase.read_of_s2 hw).busReq]

/-- What has been read of the path stays in view over an edge. -/
theorem InStep.seen_next {rd : BitVec 32 → Word} (h : s.InStep cfg) (ho : s.Orderly cfg)
    (hphase : s.cpu.mmu.Phase false rd s.held s.cpu.req) (hseen : s.Seen rd)
    (hread : (s.cpuIn cfg i).memReady = true → s.cpu.mmu.state = .translate →
      rd (wordAddr s.busReq.addr) = s.view (wordAddr s.busReq.addr)) :
    (s.next cfg i p).Seen rd := by
  intro hs hl
  have hwalk := TableWalk.level_zero_cases (w := s.cpu.mmu.ptw) hs hl
  have hs0 : s.cpu.mmu.ptw.state ≠ .s0 := by
    rcases hwalk with ⟨hw, -⟩ | ⟨hw, -⟩ | ⟨hw, -⟩ <;> rw [hw] <;> decide
  have hsame := h.same_of_walk (i := i) (p := p) ho hphase hs0
  rw [hsame.satp, hsame.addr]
  -- on level 0 before and without an answer, the view has not changed
  have hwait : s.cpu.mmu.ptw.level = 0#2 → (s.cpuIn cfg i).memReady = false →
      pathPte1 rd s.cpu.req.satp s.cpu.req.addr =
        pathPte1 (s.next cfg i p).view s.cpu.req.satp s.cpu.req.addr := by
    intro hl0 hr
    have hv := busReq_valid_of_level hphase hs0 hl0
    rw [hseen hs0 hl0]
    exact (h.view_next hv hsame (.inl (Bool.or_eq_false_iff.1 hr).1)).symm
  rcases hwalk with ⟨hw, hl0⟩ | ⟨hw, hl0, hr⟩ | ⟨hw, hl1, hr⟩
  · apply hwait hl0
    by_contra hne
    have hheld := (h.of_ready (by simpa using hne)).2
    rw [(hphase.lookup_of_s1 hw).held] at hheld
    exact absurd hheld (by simp)
  · have hst := (hphase.read_of_s2 hw).state
    exact hwait hl0 (by simpa [Sv32.walkIn, hst] using hr)
  · -- the pointer read just now
    have hrp := hphase.read_of_s2 hw
    have hready : (s.cpuIn cfg i).memReady = true := by simpa [Sv32.walkIn, hrp.state] using hr
    have hv := (h.of_ready hready).1
    have haddr : pathPte1 rd s.cpu.req.satp s.cpu.req.addr = rd (wordAddr s.busReq.addr) := by
      rcases hrp.currentPte_cases with ⟨-, hc, -⟩ | ⟨h0, -⟩
      · rw [← hc, busReq, hrp.busReq]
        rfl
      · exact absurd (hl1.symm.trans h0) (by decide)
    have haddr' : pathPte1 (s.next cfg i p).view s.cpu.req.satp s.cpu.req.addr =
        (s.next cfg i p).view (wordAddr s.busReq.addr) := by
      have hre : s.cpu.mmu.ReadPhase (s.next cfg i p).view s.held s.cpu.req :=
        hrp.reread fun h0 => absurd (hl1.symm.trans h0) (by decide)
      rcases hre.currentPte_cases with ⟨-, hc, -⟩ | ⟨h0, -⟩
      · rw [← hc, busReq, hrp.busReq]
        rfl
      · exact absurd (hl1.symm.trans h0) (by decide)
    have hmask : s.busReq.wstrb = 0#4 := by rw [busReq, hrp.busReq]; rfl
    rw [haddr, haddr', hread hready hrp.state]
    exact (h.view_next hv hsame (.inr ⟨hmask, fullTag_memAddr.symm⟩)).symm

/-- **The invariant is kept** by every edge of an orderly run. -/
theorem InStep.next (h : s.InStep cfg) (ho : s.Orderly cfg) : (s.next cfg i p).InStep cfg := by
  obtain ⟨rd, hphase, hseen⟩ := h.phase
  obtain ⟨hserves, -⟩ := h.serves_next (i := i) (p := p) ho
  obtain ⟨hheld, hdevice⟩ := h.held_next (i := i) (p := p) ho
  have hwaits : (s.next cfg i p).cpu.mmu.state ≠ .idle →
      waitsForBus (s.next cfg i p).cpu.core.state = true := by
    refine Cpu.waits_next (i := s.cpuIn cfg i) h.waits ho.aligned (fun hb => ?_) fun hc => ?_
    · obtain ⟨hl, hf⟩ := hphase.latched_of_busy hb
      exact ⟨hl.reqValid, hf⟩
    · exact (hphase.access_of_cpuReady (fun hr => (h.of_ready hr).2) hc).state
  refine ⟨hwaits, hserves, hdevice, ?_⟩
  rw [hheld]
  by_cases hread : (s.cpuIn cfg i).memReady = true ∧ s.cpu.mmu.state = .translate
  · -- an entry is read: take the memory in which it stands
    obtain ⟨hr, hs⟩ := hread
    have hrp := hphase.read_of_ready hs (h.of_ready hr)
    let rd' := Function.update rd (wordAddr s.busReq.addr) (s.view (wordAddr s.busReq.addr))
    have hword : rd' (wordAddr s.busReq.addr) = s.view (wordAddr s.busReq.addr) :=
      Function.update_self _ _ _
    have hpath : s.cpu.mmu.ptw.level = 0#2 →
        pathPte1 rd' s.cpu.req.satp s.cpu.req.addr =
          pathPte1 rd s.cpu.req.satp s.cpu.req.addr := by
      intro hl0
      have hsn := hseen (by rw [hrp.walk]; decide) hl0
      simp only [pathPte1, pteWord] at hsn ⊢
      by_cases ha : wordAddr ((walkMemAddr (satpBase s.cpu.req.satp) s.cpu.req.addr
          1#2).setWidth 34) = wordAddr s.busReq.addr
      · rw [ha, hword, ← ha, hsn]
      · exact Function.update_of_ne ha _ _
    have hphase' : s.cpu.mmu.Phase false rd' s.held s.cpu.req := .read (hrp.reread hpath)
    have hseen' : s.Seen rd' := fun hs0 hl0 => (hpath hl0).trans (hseen hs0 hl0)
    have hdata := (h.table_read ho hr hs).2.2
    refine ⟨rd', ?_, h.seen_next ho hphase' hseen' fun _ _ => hword⟩
    exact hphase'.next h.of_ready (fun _ _ => .inl (hdata.trans hword.symm)) (h.holds ho)
      fun _ => rfl
  · refine ⟨rd, ?_, h.seen_next ho hphase hseen fun hr hs => absurd ⟨hr, hs⟩ hread⟩
    exact hphase.next h.of_ready (fun hr hs => absurd ⟨hr, hs⟩ hread) (h.holds ho) fun _ => rfl

/-! ## Runs -/

theorem IsReset.inStep (h : s.IsReset p) : s.InStep cfg := by
  have hi : s.cache.icache.state = .s0 := by
    obtain ⟨c, q, v, b, x, hc⟩ := h.icache
    rw [hc]
    rfl
  have hd : s.cache.dcache.state = .s0 := by
    obtain ⟨d, q, b, x, hc⟩ := h.dcache
    rw [hc]
    rfl
  have hheld : s.held = none := by
    rw [held, Cache.busy, hi, hd]
    exact h.device
  refine ⟨fun hne => absurd h.cpu.2.1 hne, ?_, .inl h.device, ?_⟩
  · exact Cache.serves_of_rest hi hd h.ram (Dcache.IsReset.coherent h.dcache _)
  · refine ⟨fun _ => 0#32, ?_, fun hs => ?_⟩
    · rw [hheld]
      exact h.cpu.2.phase
    · obtain ⟨-, -, -, -, -, -, -, -, -, -, -, -, -, -, -, -, hw⟩ := h.cpu.2
      exact absurd hw.1 hs

section Run

variable {inp : ℕ → CachedIn}

theorem run_succ (n : ℕ) : run cfg p s inp (n + 1) = (run cfg p s inp n).next cfg (inp n) p := rfl

theorem inStep_run (hs : s.IsReset p) (n : ℕ)
    (ho : ∀ k, k < n → (run cfg p s inp k).Orderly cfg) : (run cfg p s inp n).InStep cfg := by
  induction n with
  | zero => exact hs.inStep
  | succ n ih => exact (ih fun k hk => ho k (by omega)).next (ho n (by omega))

end Run

/-! ## After the fence -/

/-- A flush happens between requests: after it the TLBs are empty, and whatever is read from
then on is read of the SDRAM as it is. -/
theorem InStep.after_flush (h : s.InStep cfg) (ho : s.Orderly cfg)
    (hfl : s.cpu.core.tlbFlush (s.coreIn cfg i) = true) :
    (s.next cfg i p).cpu.mmu.Phase false (s.next cfg i p).content (s.next cfg i p).held
        (s.next cfg i p).cpu.req ∧
      TlbsEmpty (s.next cfg i p).cpu.mmu.ptw := by
  refine ⟨?_, tlbsEmpty_of_flush hfl⟩
  obtain ⟨rd, hphase, -⟩ := h.phase
  -- a state that flushes presents no access, so the unit is idle and nothing is on the bus
  have hv : s.cpu.req.valid = false := by
    by_contra hne
    rw [Bool.not_eq_false] at hne
    have hno := Core.tlbFlush_of_memValid hne (s.coreIn cfg i)
    rw [hno] at hfl
    exact absurd hfl (by decide)
  have hidle : s.cpu.mmu.state = .idle := by
    by_contra hne
    have hreq := (hphase.latched_of_busy hne).1.reqValid
    rw [hv] at hreq
    exact absurd hreq (by decide)
  have hbus : s.busReq.valid = false := by simp [busReq, Sv32.busReq, hidle]
  have hr : (s.cpuIn cfg i).memReady = false := by
    by_contra hne
    have hvalid := (h.of_ready (by simpa using hne)).1
    rw [hbus] at hvalid
    exact absurd hvalid (by decide)
  rw [(h.held_next ho).1, Sv32.heldNext_of_not_valid hbus]
  have hmmu : (s.next cfg i p).cpu.mmu = s.cpu.mmu.next s.cpu.req
      (s.cpu.core.tlbFlush (s.coreIn cfg i)) false (s.cpuIn cfg i).memRdata := by
    rw [← hr]; rfl
  rw [hmmu]
  -- an idle unit has read nothing: any memory will do for its phase
  cases hphase with
  | idle hp => exact .idle (hp.next_rest (.inl hv) _ _ _ _).1
  | request hp => exact absurd (hp.state.symm.trans hidle) (by decide)
  | lookup hp => exact absurd (hp.state.symm.trans hidle) (by decide)
  | read hp => exact absurd (hp.state.symm.trans hidle) (by decide)
  | answered hp => exact absurd (hp.state.symm.trans hidle) (by decide)
  | check hp => exact absurd (hp.state.symm.trans hidle) (by decide)
  | done hp => exact absurd (hp.state.symm.trans hidle) (by decide)
  | access hp => exact absurd (hp.state.symm.trans hidle) (by decide)

/-- A fresh read is one of the SDRAM. -/
theorem InStep.table_read_iff (h : s.InStep cfg) (ho : s.Orderly cfg)
    (hr : (s.cpuIn cfg i).memReady = true) (hs : s.cpu.mmu.state = .translate) :
    (s.cpuIn cfg i).memRdata = s.content (wordAddr s.busReq.addr) ↔ s.FreshRead := by
  obtain ⟨htable, -, hdata⟩ := h.table_read ho hr hs
  rw [hdata]
  exact view_eq_content_iff htable

/-- The instruction cache has no other word for `w` than the SDRAM. -/
def IcacheFresh (s : CachedSystem iw dw ipolicy dpolicy) (w : BitVec 30) : Prop :=
  s.cache.icache.cacheInst.Sound fun t v => t = w → v = s.ram.content w

theorem IcacheFresh.freshRead (h : s.IcacheFresh (Dcache.fullTag s.memAddr)) : s.FreshRead :=
  fun _ _ hhit => AssociativeCache.Sound.payload h hhit rfl

/-- `FENCE.I` empties the instruction cache. -/
theorem InStep.icacheFresh_of_flush (h : s.InStep cfg)
    (hfl : icacheFlush s.cpu.core.state s.cpu.core.instr = true) (w : BitVec 30) :
    (s.next cfg i p).IcacheFresh w := by
  unfold IcacheFresh
  rw [h.next_cache, hfl]
  exact AssociativeCache.sound_of_not_hit fun _ => AssociativeCache.hit_next_reset

/-- It is filled with words of the SDRAM, so it stays so until the word is stored to. -/
theorem InStep.icacheFresh_next (h : s.InStep cfg) {w : BitVec 30}
    (hw : (s.next cfg i p).ram.content w = s.ram.content w) (hf : s.IcacheFresh w) :
    (s.next cfg i p).IcacheFresh w := by
  unfold IcacheFresh
  rw [hw, h.next_cache]
  exact h.serves.icache_sound (by rintro rfl; rfl) hf

/-- With fresh reads the phases go on over the SDRAM. -/
theorem InStep.phase_next (h : s.InStep cfg) (ho : s.Orderly cfg) (hf : s.FreshRead)
    (hphase : s.cpu.mmu.Phase false s.content s.held s.cpu.req) :
    (s.next cfg i p).cpu.mmu.Phase false (s.next cfg i p).content (s.next cfg i p).held
      (s.next cfg i p).cpu.req := by
  rw [(h.held_next ho).1]
  exact hphase.next h.of_ready (fun hr hs => .inl ((h.table_read_iff ho hr hs).2 hf))
    (h.holds ho) h.content_next

/-- With fresh reads the TLBs stay sound for an address whose walk does not change. -/
theorem InStep.tlbsFor_next {satp address : Word} (h : s.InStep cfg) (ho : s.Orderly cfg)
    (hf : s.FreshRead) (hphase : s.cpu.mmu.Phase false s.content s.held s.cpu.req)
    (hroot : s.cpu.req.valid = true → satpModeOf s.cpu.req.satp = true →
      tlbTag s.cpu.req.satp s.cpu.req.addr = tlbTag satp address →
        satpBase s.cpu.req.satp = satpBase satp)
    (hpath : walkPte (s.next cfg i p).content satp address = walkPte s.content satp address)
    (htlb : TlbsFor s.content satp address s.cpu.mmu.ptw) :
    TlbsFor (s.next cfg i p).content satp address (s.next cfg i p).cpu.mmu.ptw := by
  refine TlbsFor.mono ?_ hpath
  exact hphase.tlbsFor_next (fun hr hs => .inl ((h.table_read_iff ho hr hs).2 hf)) hroot htlb

/-- A request that ends in this cycle ends as the walk of the SDRAM says: with an access at the
address it gives, or with a page fault. -/
structure TranslatesBySdram (cfg : SocConfig) (s : CachedSystem iw dw ipolicy dpolicy)
    (i : CachedIn) : Prop where
  answer : s.cpu.mmu.cpuReady (s.cpuIn cfg i).memReady = true →
    s.cpu.req.walkOutcome s.content = some (.physical s.busReq.addr)
  fault : s.cpu.mmu.pageFault = true → s.cpu.req.walkOutcome s.content = some .pageFault

theorem InStep.translatesBySdram (h : s.InStep cfg)
    (hphase : s.cpu.mmu.Phase false s.content s.held s.cpu.req)
    (htlb : TlbsFor s.content s.cpu.req.satp s.cpu.req.addr s.cpu.mmu.ptw) :
    TranslatesBySdram cfg s i := by
  have hout := TlbsFor.outcome (r := s.cpu.req) fun _ => htlb
  constructor
  · intro hc
    have hacc := hphase.access_of_cpuReady (fun hr => (h.of_ready hr).2) hc
    rw [← hout, hacc.result, busReq, hacc.busReq]
    rfl
  · intro hf
    rw [← hout]
    cases hphase with
    | idle hp => exact (hp.fault hf).2.2.resolve_right (by decide)
    | request hp => simp [hp.pageFault] at hf
    | lookup hp => simp [hp.pageFault] at hf
    | read hp => simp [hp.pageFault] at hf
    | answered hp => simp [hp.pageFault] at hf
    | check hp => simp [hp.pageFault] at hf
    | done hp => simp [hp.pageFault] at hf
    | access hp => simp [hp.pageFault] at hf

section Run

variable {inp : ℕ → CachedIn}

/-- After cycle `n₀` and up to cycle `n` nothing is done that would again need a fence for the
address requested in cycle `n`: no other root is used with its ASID, and the entries on its path
stay as they are. -/
structure Undisturbed (cfg : SocConfig) (p : Params) (s : CachedSystem iw dw ipolicy dpolicy)
    (inp : ℕ → CachedIn) (n₀ n : ℕ) : Prop where
  root : ∀ k, n₀ < k → k < n →
    (run cfg p s inp k).cpu.req.valid = true →
    satpModeOf (run cfg p s inp k).cpu.req.satp = true →
    tlbTag (run cfg p s inp k).cpu.req.satp (run cfg p s inp k).cpu.req.addr =
      tlbTag (run cfg p s inp n).cpu.req.satp (run cfg p s inp n).cpu.req.addr →
    satpBase (run cfg p s inp k).cpu.req.satp = satpBase (run cfg p s inp n).cpu.req.satp
  path : ∀ k, n₀ < k → k < n →
    walkPte (run cfg p s inp (k + 1)).content (run cfg p s inp n).cpu.req.satp
        (run cfg p s inp n).cpu.req.addr =
      walkPte (run cfg p s inp k).content (run cfg p s inp n).cpu.req.satp
        (run cfg p s inp n).cpu.req.addr

/-- Cycle `n` flushes the TLBs: `SFENCE.VMA`, or a write that changes the mode of `satp`. -/
def flushesAt (cfg : SocConfig) (p : Params) (s : CachedSystem iw dw ipolicy dpolicy)
    (inp : ℕ → CachedIn) (n : ℕ) : Bool :=
  (run cfg p s inp n).cpu.core.tlbFlush ((run cfg p s inp n).coreIn cfg (inp n))

/-- If all page-table reads since a flush were fresh, a request ends as the walk of the SDRAM says. -/
theorem translates_of_fresh {n₀ n : ℕ} (hin : ∀ k, k ≤ n → (run cfg p s inp k).InStep cfg)
    (ho : ∀ k, k ≤ n → (run cfg p s inp k).Orderly cfg) (hn : n₀ < n)
    (hfl : flushesAt cfg p s inp n₀ = true)
    (hfresh : ∀ k, n₀ < k → k < n → (run cfg p s inp k).FreshRead)
    (hund : Undisturbed cfg p s inp n₀ n) :
    TranslatesBySdram cfg (run cfg p s inp n) (inp n) := by
  -- from the cycle after the flush on, the unit works over the SDRAM
  have hinv : ∀ k, n₀ < k → k ≤ n →
      (run cfg p s inp k).cpu.mmu.Phase false (run cfg p s inp k).content
          (run cfg p s inp k).held (run cfg p s inp k).cpu.req ∧
        TlbsFor (run cfg p s inp k).content (run cfg p s inp n).cpu.req.satp
          (run cfg p s inp n).cpu.req.addr (run cfg p s inp k).cpu.mmu.ptw := by
    intro k hk
    induction k, hk using Nat.le_induction with
    | base =>
      intro hle
      obtain ⟨hphase, hempty⟩ := (hin n₀ (by omega)).after_flush (p := p) (ho n₀ (by omega)) hfl
      exact ⟨hphase, hempty.tlbsFor⟩
    | succ k hk ih =>
      intro hle
      obtain ⟨hphase, htlb⟩ := ih (by omega)
      have hf := hfresh k hk (by omega)
      exact ⟨(hin k (by omega)).phase_next (ho k (by omega)) hf hphase,
        (hin k (by omega)).tlbsFor_next (ho k (by omega)) hf hphase
          (hund.root k hk (by omega)) (hund.path k hk (by omega)) htlb⟩
  obtain ⟨hphase, htlb⟩ := hinv n hn le_rfl
  exact (hin n le_rfl).translatesBySdram hphase htlb

/-- **Page-table updates take effect with `SFENCE.VMA`.**  In a run from reset without
misaligned fetches, walks past level 0 and page tables outside the SDRAM:
* a store is in the SDRAM when it is answered, and nothing else changes the SDRAM;
* a page-table read returns the word of the SDRAM exactly if it is not a read for a fetch that
  finds another word in the instruction cache;
* if since a flush all page-table reads were of the first kind, a request that ends does so as
  the walk of the SDRAM says. -/
theorem sfence_takes_effect (hreset : s.IsReset p) (n : ℕ)
    (ho : ∀ k, k ≤ n → (run cfg p s inp k).Orderly cfg) :
    (∀ k, k ≤ n → (run cfg p s inp (k + 1)).ram.content =
      if !(run cfg p s inp k).isInstruction && (run cfg p s inp k).memSdramReady (inp k) then
        wordPort.write (run cfg p s inp k).ram.content ((run cfg p s inp k).sdramReq cfg)
      else (run cfg p s inp k).ram.content) ∧
    (∀ k, k ≤ n → ((run cfg p s inp k).cpuIn cfg (inp k)).memReady = true →
      (run cfg p s inp k).cpu.mmu.state = .translate →
      (((run cfg p s inp k).cpuIn cfg (inp k)).memRdata =
        (run cfg p s inp k).content (wordAddr (run cfg p s inp k).busReq.addr) ↔
          (run cfg p s inp k).FreshRead)) ∧
    ∀ n₀, n₀ < n → flushesAt cfg p s inp n₀ = true →
      (∀ k, n₀ < k → k < n → (run cfg p s inp k).FreshRead) → Undisturbed cfg p s inp n₀ n →
      TranslatesBySdram cfg (run cfg p s inp n) (inp n) := by
  have hin : ∀ k, k ≤ n → (run cfg p s inp k).InStep cfg :=
    fun k hk => inStep_run hreset k fun j hj => ho j (by omega)
  refine ⟨fun k hk => (hin k hk).next_content, fun k hk hr hs =>
    (hin k hk).table_read_iff (ho k hk) hr hs,
    fun n₀ hn hfl hfresh hund => translates_of_fresh hin ho hn hfl hfresh hund⟩


/-- After `FENCE.I` the instruction cache is fresh for a word until that is stored to. -/
theorem icacheFresh_of_fence_i (hreset : s.IsReset p) {n₁ : ℕ} {w : BitVec 30}
    (hfl : icacheFlush (run cfg p s inp n₁).cpu.core.state (run cfg p s inp n₁).cpu.core.instr
      = true) (k : ℕ) (hk : n₁ < k) (ho : ∀ j, j < k → (run cfg p s inp j).Orderly cfg)
    (hkeep : ∀ j, n₁ < j → j < k →
      (run cfg p s inp (j + 1)).ram.content w = (run cfg p s inp j).ram.content w) :
    (run cfg p s inp k).IcacheFresh w := by
  induction k, hk using Nat.le_induction with
  | base => exact (inStep_run hreset n₁ fun j hj => ho j (by omega)).icacheFresh_of_flush hfl w
  | succ k hk ih =>
    exact (inStep_run hreset k fun j hj => ho j (by omega)).icacheFresh_next
      (hkeep k hk (by omega)) (ih (fun j hj => ho j (by omega)) fun j hj hjk => hkeep j hj (by omega))

/-- With `FENCE.I` before `SFENCE.VMA` a request ends as the walk of the SDRAM says, unless the walks
of fetches after the flush read a word that was stored to since the `FENCE.I`. -/
theorem fence_i_takes_effect (hreset : s.IsReset p) {n₁ n₀ n : ℕ}
    (ho : ∀ k, k ≤ n → (run cfg p s inp k).Orderly cfg)
    (hi : icacheFlush (run cfg p s inp n₁).cpu.core.state (run cfg p s inp n₁).cpu.core.instr = true)
    (hn₁ : n₁ < n₀) (hn : n₀ < n) (hfl : flushesAt cfg p s inp n₀ = true)
    (hkeep : ∀ k, n₀ < k → k < n → (run cfg p s inp k).readsTable = true →
      (run cfg p s inp k).isInstruction = true → ∀ j, n₁ < j → j < k →
        (run cfg p s inp (j + 1)).ram.content (Dcache.fullTag (run cfg p s inp k).memAddr)
          = (run cfg p s inp j).ram.content (Dcache.fullTag (run cfg p s inp k).memAddr))
    (hund : Undisturbed cfg p s inp n₀ n) :
    TranslatesBySdram cfg (run cfg p s inp n) (inp n) := by
  refine translates_of_fresh (fun k hk => inStep_run hreset k fun j hj => ho j (by omega)) ho hn hfl
    (fun k hk hkn hread hinstr => ?_) hund
  exact (icacheFresh_of_fence_i hreset hi k (by omega) (fun j hj => ho j (by omega))
    (hkeep k hk hkn hread hinstr)).freshRead hread hinstr

end Run

/-! ## A page unmapped under its own feet -/

instance (s : CachedSystem iw dw ipolicy dpolicy) : Decidable (s.Orderly cfg) :=
  have : Decidable s.cpu.FetchAligned := inferInstanceAs (Decidable (_ → _ → _))
  decidable_of_iff (s.cpu.FetchAligned ∧ s.cpu.mmu.ptw.level ≠ 3#2 ∧
      (s.readsTable = true → BusAccess.inSdram cfg s.memAddr = true))
    ⟨fun h => ⟨h.1, h.2.1, h.2.2⟩, fun h => ⟨h.aligned, h.level, h.tables⟩⟩

instance (s : CachedSystem iw dw ipolicy dpolicy) : Decidable s.FreshRead :=
  inferInstanceAs (Decidable (_ → _ → _ → _))

instance {s : CachedSystem iw dw ipolicy dpolicy} {inp : ℕ → CachedIn} {n₀ n : ℕ} :
    Decidable (Undisturbed cfg p s inp n₀ n) :=
  decidable_of_iff
    ((∀ k, k < n → n₀ < k →
        (run cfg p s inp k).cpu.req.valid = true →
        satpModeOf (run cfg p s inp k).cpu.req.satp = true →
        tlbTag (run cfg p s inp k).cpu.req.satp (run cfg p s inp k).cpu.req.addr =
          tlbTag (run cfg p s inp n).cpu.req.satp (run cfg p s inp n).cpu.req.addr →
        satpBase (run cfg p s inp k).cpu.req.satp = satpBase (run cfg p s inp n).cpu.req.satp) ∧
      ∀ k, k < n → n₀ < k →
        walkPte (run cfg p s inp (k + 1)).content (run cfg p s inp n).cpu.req.satp
            (run cfg p s inp n).cpu.req.addr =
          walkPte (run cfg p s inp k).content (run cfg p s inp n).cpu.req.satp
            (run cfg p s inp n).cpu.req.addr)
    ⟨fun h => ⟨fun k hk hk' => h.1 k hk' hk, fun k hk hk' => h.2 k hk' hk⟩,
      fun h => ⟨fun k hk hk' => h.root k hk' hk, fun k hk hk' => h.path k hk' hk⟩⟩

/-- A board with 32 MiB of SDRAM that boots from its start. -/
def sdramBoard : SocConfig := ⟨true, true, true, true, true, 0x2000000#32⟩

def sdramBoot : Params := ⟨0x80000000#32, 50000000, true⟩

/-- The start of the SDRAM and a root table at `0x81000000`.  The machine code sets `satp` to the
root, enters supervisor mode at virtual address `0x18`, where the first megapage maps the code
and the second one the root table, and there `lui x6, 0x400; sw x0, 0(x6)` clears the entry of
the first megapage.  What follows is `code`. -/
def unmapsItself (code : List Word) : BitVec 30 → Word := fun a =>
  if a = 0x20400000#30 then 0x200000CF#32
  else if a = 0x20400001#30 then 0x204000CF#32
  else if a.extractLsb' 4 26 = 0x2000000#26 then
    ([0x80081137#32, 0x18011073#32, 0x00115093#32, 0x30009073#32, 0x341C5073#32, 0x30200073#32,
      0x00400337#32, 0x00032023#32] ++ code).getD (a.extractLsb' 0 4).toNat 0#32
  else 0#32

/-- Two sets of two ways in every cache, all empty. -/
def emptyCaches : Cache (lruTwoWay 1) (lruTwoWay 1) :=
  let lines : AssociativeCache 30 32 (lruTwoWay 1) :=
    ⟨fun _ => ⟨fun _ => false, fun _ => 0, fun _ => 0⟩, fun _ => false⟩
  ⟨Icache.next ⟨.s0, lines⟩ 0 false false 0 false,
    Dcache.next ⟨.s0, 0, 0, 0, false, false, lines⟩ ⟨false, 0, 0, 0⟩ false 0 false⟩

def bootState (code : List Word) : CachedSystem 1 1 (lruTwoWay 1) (lruTwoWay 1) :=
  ⟨⟨Core.reset sdramBoot, Sv32.reset 1 1⟩, emptyCaches, ⟨unmapsItself code, none, 0⟩, none⟩

theorem bootState_isReset (code : List Word) : (bootState code).IsReset sdramBoot :=
  ⟨⟨Core.reset_isReset sdramBoot, Sv32.reset_isReset 1 1⟩, ⟨_, _, _, _, _, rfl⟩,
    ⟨_, _, _, _, rfl⟩, rfl, rfl⟩

/-- An SDRAM that is ready in the cycle after it accepts a request. -/
def promptSdram : ℕ → CachedIn := fun _ =>
  ⟨⟨true, 0#32⟩, false, 0#32, false, false, false, false, false⟩

/-- With `fence.i; sfence.vma` the next fetch faults. -/
theorem sfence_takes_effect_fence_i :
    let s := run sdramBoard sdramBoot (bootState [0x0000100F#32, 0x12000073#32]) promptSdram 101
    s.cpu.mmu.pageFault = true ∧ TranslatesBySdram sdramBoard s (promptSdram 101) := by
  -- the run is evaluated once, for all that is asked of it
  have hrun : (∀ k, k ≤ 101 → (run sdramBoard sdramBoot
        (bootState [0x0000100F#32, 0x12000073#32]) promptSdram k).Orderly sdramBoard) ∧
      (∀ k, k < 101 → 92 < k → (run sdramBoard sdramBoot
        (bootState [0x0000100F#32, 0x12000073#32]) promptSdram k).FreshRead) ∧
      (run sdramBoard sdramBoot
        (bootState [0x0000100F#32, 0x12000073#32]) promptSdram 101).cpu.mmu.pageFault = true ∧
      flushesAt sdramBoard sdramBoot (bootState [0x0000100F#32, 0x12000073#32]) promptSdram 92
        = true ∧
      Undisturbed sdramBoard sdramBoot (bootState [0x0000100F#32, 0x12000073#32]) promptSdram 92
        101 := by
    decide +kernel
  obtain ⟨ho, hf, hfault, hflush, hun⟩ := hrun
  exact ⟨hfault, (sfence_takes_effect (bootState_isReset _) 101 ho).2.2 92 (by decide) hflush
    (fun k hk hk' => hf k hk' hk) hun⟩

/-- With `sfence.vma` alone the next fetch is translated by the entry that the store has
cleared: the walk finds it in the instruction cache, where the first fetch has put it. -/
theorem unmapped_page_still_fetched :
    ¬ ∀ (s : CachedSystem 1 1 (lruTwoWay 1) (lruTwoWay 1)) (inp : ℕ → CachedIn) (n₀ n : ℕ),
      s.IsReset sdramBoot →
      (∀ k, k ≤ n → (run sdramBoard sdramBoot s inp k).Orderly sdramBoard) →
      n₀ < n → flushesAt sdramBoard sdramBoot s inp n₀ = true →
      Undisturbed sdramBoard sdramBoot s inp n₀ n →
      TranslatesBySdram sdramBoard (run sdramBoard sdramBoot s inp n) (inp n) := by
  intro h
  have hrun : (∀ k, k ≤ 92 → (run sdramBoard sdramBoot
        (bootState [0x12000073#32]) promptSdram k).Orderly sdramBoard) ∧
      flushesAt sdramBoard sdramBoot (bootState [0x12000073#32]) promptSdram 83 = true ∧
      Undisturbed sdramBoard sdramBoot (bootState [0x12000073#32]) promptSdram 83 92 ∧
      (run sdramBoard sdramBoot (bootState [0x12000073#32]) promptSdram 92).cpu.mmu.cpuReady
        ((run sdramBoard sdramBoot (bootState [0x12000073#32]) promptSdram 92).cpuIn sdramBoard
          (promptSdram 92)).memReady = true ∧
      (run sdramBoard sdramBoot (bootState [0x12000073#32]) promptSdram 92).cpu.req.walkOutcome
        (run sdramBoard sdramBoot (bootState [0x12000073#32]) promptSdram 92).content
        = some .pageFault := by
    decide +kernel
  obtain ⟨ho, hflush, hun, hready, hwalk⟩ := hrun
  have hanswer := (h (bootState [0x12000073#32]) promptSdram 83 92 (bootState_isReset _) ho
    (by decide) hflush hun).answer hready
  rw [hwalk] at hanswer
  exact absurd hanswer (by simp)

end CachedSystem

end KianRiscV
