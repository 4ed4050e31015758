/-
# The boot image arrives as it was packed

What the load loops leave in SDRAM when the card holds the packed image of a byte string.  The
packed image is a list of runs (`RunLength`); a sector holds 256 of them, so a run never lies over
two sectors, and the first count of zero comes right after the last run.

The loops are followed pair by pair.  `Boot.Holds` says what has been written after some of the
runs, and `LoadOutcome` what the loops can end in; the stores of a loader enter only through
`Bootloader.Within`: they go through while the image stays below the memory the loader runs from,
and overwrite the loader when it reaches it.
-/
import KianRiscV.Bootloader
import Mathlib.Data.List.GetD
import Mathlib.Tactic.NormNum

namespace KianRiscV

/-! ## The packed image as a list of runs -/

/-- The runs that `rle_encode` cuts a file into. -/
def imageRuns : List (BitVec 8) → List (BitVec 8 × ℕ)
  | [] => []
  | lastValue :: rest => cutRuns 255 lastValue 1 rest

/-- The bytes of a list of runs on the card. -/
def packRuns (runs : List (BitVec 8 × ℕ)) : List (BitVec 8) :=
  runs.flatMap fun r => [r.1, BitVec.ofNat 8 r.2]

theorem rleEncodeLoop_eq (lastValue : BitVec 8) (count : ℕ) (rest : List (BitVec 8)) :
    rleEncodeLoop lastValue count rest = packRuns (cutRuns 255 lastValue count rest) := by
  induction rest generalizing lastValue count with
  | nil => rfl
  | cons value rest ih =>
      unfold rleEncodeLoop cutRuns
      split
      · exact ih lastValue (count + 1)
      · rw [ih value 1]
        rfl

theorem rleEncode_eq (s : List (BitVec 8)) : rleEncode s = packRuns (imageRuns s) := by
  cases s with
  | nil => rfl
  | cons lastValue rest => exact rleEncodeLoop_eq lastValue 1 rest

theorem expand_imageRuns (s : List (BitVec 8)) : expand (imageRuns s) = s := by
  cases s with
  | nil => rfl
  | cons lastValue rest => exact expand_cutRuns 255 lastValue 1 rest

theorem count_of_mem_imageRuns {s : List (BitVec 8)} {r : BitVec 8 × ℕ} (hr : r ∈ imageRuns s) :
    0 < r.2 ∧ r.2 ≤ 255 := by
  cases s with
  | nil => simp [imageRuns] at hr
  | cons lastValue rest =>
      exact count_of_mem_cutRuns (by decide) one_pos (by decide) hr

theorem length_packRuns (runs : List (BitVec 8 × ℕ)) : (packRuns runs).length = 2 * runs.length := by
  induction runs with
  | nil => rfl
  | cons r rs ih =>
      have h : packRuns (r :: rs) = r.1 :: BitVec.ofNat 8 r.2 :: packRuns rs := rfl
      rw [h, List.length_cons, List.length_cons, ih, List.length_cons]
      ring

/-- The packed form of a file of one byte. -/
theorem length_rleEncode_replicate (value : BitVec 8) (n : ℕ) :
    (rleEncode (List.replicate (n + 1) value)).length = 2 * (n / 255 + 1) := by
  rw [rleEncode_eq, length_packRuns, List.replicate_succ]
  show 2 * (cutRuns 255 value 1 (List.replicate n value)).length = _
  rw [length_cutRuns_replicate value one_pos (by decide), Nat.add_sub_cancel_left]

/-- The two bytes of run `n`, and zeros behind the last one. -/
theorem packRuns_getD (runs : List (BitVec 8 × ℕ)) (n : ℕ) :
    (packRuns runs).getD (2 * n) 0 = (runs.getD n (0, 0)).1 ∧
      (packRuns runs).getD (2 * n + 1) 0 = BitVec.ofNat 8 (runs.getD n (0, 0)).2 := by
  induction runs generalizing n with
  | nil => simp [packRuns]
  | cons r rs ih =>
      have h : packRuns (r :: rs) = r.1 :: BitVec.ofNat 8 r.2 :: packRuns rs := rfl
      rw [h]
      cases n with
      | zero => simp
      | succ n =>
          have he : 2 * (n + 1) = 2 * n + 1 + 1 := by ring
          rw [he]
          simpa using ih n

/-! ## Stores -/

/-- Memory with a byte string written to SDRAM from its start on. -/
def blit (mem : BitVec 32 → BitVec 8) (l : List (BitVec 8)) : BitVec 32 → BitVec 8 :=
  fun a => l.getD (a - sdramStart).toNat (mem a)

theorem blit_nil (mem : BitVec 32 → BitVec 8) : blit mem [] = mem := by
  funext a
  simp [blit]

/-- One more byte of the image. -/
theorem blit_concat (mem : BitVec 32 → BitVec 8) {l : List (BitVec 8)} (hl : l.length < 2 ^ 32)
    (value : BitVec 8) :
    Function.update (blit mem l) (sdramStart + BitVec.ofNat 32 l.length) value =
      blit mem (l ++ [value]) := by
  funext a
  have hn : (BitVec.ofNat 32 l.length).toNat = l.length := by
    rw [BitVec.toNat_ofNat]
    exact Nat.mod_eq_of_lt hl
  by_cases ha : a = sdramStart + BitVec.ofNat 32 l.length
  · have hsub : a - sdramStart = BitVec.ofNat 32 l.length := by
      rw [ha, BitVec.add_comm, BitVec.add_sub_cancel]
    rw [ha, Function.update_self, ← ha, blit, hsub, hn]
    simp
  · have hne : (a - sdramStart).toNat ≠ l.length := by
      intro h
      have hsub : a - sdramStart = BitVec.ofNat 32 l.length := BitVec.eq_of_toNat_eq (h.trans hn.symm)
      apply ha
      rw [← hsub, BitVec.add_comm, BitVec.sub_add_cancel]
    rw [Function.update_of_ne ha, blit, blit]
    rcases Nat.lt_or_gt_of_ne hne with hlt | hgt
    · rw [List.getD_append _ _ _ _ hlt]
    · rw [List.getD_append_right _ _ _ _ (by omega), List.getD_eq_default _ _ (by omega),
        List.getD_eq_default _ _ (by rw [List.length_singleton]; omega)]

/-- A byte string has been written, and the offset stands behind it. -/
structure Boot.Holds (mem : BitVec 32 → BitVec 8) (l : List (BitVec 8)) (b : Boot) : Prop where
  mem_eq : b.mem = blit mem l
  offset_eq : b.sdramOffset = BitVec.ofNat 32 l.length

variable {mem : BitVec 32 → BitVec 8} {l : List (BitVec 8)} {b : Boot}

theorem Boot.Holds.say (h : b.Holds mem l) (m : BootMessage) : (b.say m).Holds mem l :=
  ⟨h.mem_eq, h.offset_eq⟩

theorem Boot.Holds.progress (h : b.Holds mem l) (loaded : ℕ) :
    (Bootloader.progress loaded b).Holds mem l := by
  unfold Bootloader.progress
  split
  · exact h.say _
  · exact h

/-- A store outside the loader's memory appends a byte. -/
theorem Boot.Holds.store {own : BitVec 32 → Bool} (h : b.Holds mem l) (hl : l.length < 2 ^ 32)
    (hown : own (sdramStart + BitVec.ofNat 32 l.length) = false) (value : BitVec 8) :
    ∃ b', b.store own value = .ok b' ∧ b'.Holds mem (l ++ [value]) := by
  refine ⟨⟨Function.update b.mem (sdramStart + b.sdramOffset) value, b.sdramOffset + 1, b.log⟩,
    ?_, ?_, ?_⟩
  · unfold Boot.store
    rw [h.offset_eq, hown]
    rfl
  · show Function.update b.mem (sdramStart + b.sdramOffset) value = _
    rw [h.mem_eq, h.offset_eq, blit_concat mem hl]
  · show b.sdramOffset + 1 = _
    rw [h.offset_eq, List.length_append, List.length_singleton, BitVec.ofNat_add]
    rfl

theorem Boot.Holds.store_own {own : BitVec 32 → Bool} (h : b.Holds mem l)
    (hown : own (sdramStart + BitVec.ofNat 32 l.length) = true) (value : BitVec 8) :
    b.store own value = .error .overwritten := by
  unfold Boot.store
  rw [h.offset_eq, hown]
  rfl

/-- The runs of a loader are stored as long as the image ends within `room` bytes, and overwrite
the loader when it does not. -/
structure Bootloader.Within (p : Bootloader) (room : ℕ) : Prop where
  slack_le : p.slack ≤ 1
  run : ∀ {mem l b} (value : BitVec 8) (k : ℕ), Boot.Holds mem l b → l.length + k ≤ room →
    ∃ b', p.storeRun value k b = .ok b' ∧ b'.Holds mem (l ++ List.replicate k value)
  full : ∀ {mem l b} (value : BitVec 8) (k : ℕ), Boot.Holds mem l b → l.length ≤ room →
    room < l.length + k → p.storeRun value k b = .error .overwritten

theorem replicate_succ_append (k : ℕ) (value : BitVec 8) :
    l ++ List.replicate (k + 1) value = (l ++ [value]) ++ List.replicate k value := by
  rw [List.replicate_succ]
  simp

/-- The block RAM is out of reach of the first loader below 2 GiB. -/
theorem linkedBoot_sdram {n : ℕ} (hn : n ≤ 2 ^ 31) :
    linkedBoot (sdramStart + BitVec.ofNat 32 n) = decide (n = 2 ^ 31) := by
  have h : (sdramStart + BitVec.ofNat 32 n).toNat = (2 ^ 31 + n) % 2 ^ 32 := by
    simp [sdramStart]
  unfold linkedBoot
  rw [decide_eq_decide, BitVec.lt_def, h]
  show (2 ^ 31 + n) % 2 ^ 32 < 0x4000 ↔ _
  omega

theorem linkedRamV2_sdram {n : ℕ} (hn : n ≤ 31 * 1024 * 1024) :
    linkedRamV2 (sdramStart + BitVec.ofNat 32 n) = decide (n = 31 * 1024 * 1024) := by
  have h : (sdramStart + BitVec.ofNat 32 n).toNat = 2 ^ 31 + n := by
    simp [sdramStart]
    omega
  have hs : sdramStart.toNat = 2 ^ 31 := rfl
  unfold linkedRamV2
  rw [← Bool.decide_and, decide_eq_decide, h, hs]
  omega

/-- A loader whose runs are made of stores, and which finds itself `room` bytes behind the start
of SDRAM. -/
theorem Bootloader.within_of_own {p : Bootloader} {own : BitVec 32 → Bool} {room : ℕ}
    (hroom : room < 2 ^ 32) (hslack : p.slack ≤ 1)
    (hown : ∀ {n}, n ≤ room → own (sdramStart + BitVec.ofNat 32 n) = decide (n = room))
    (hzero : ∀ value b, p.storeRun value 0 b = .ok b)
    (hsucc : ∀ {mem l b} (value : BitVec 8) (k : ℕ), Boot.Holds mem l b → l.length ≤ room →
      p.storeRun value (k + 1) b = b.store own value >>= p.storeRun value k) :
    p.Within room where
  slack_le := hslack
  run {mem l b} value k h hk := by
    induction k generalizing l b with
    | zero => exact ⟨b, hzero value b, by simpa using h⟩
    | succ k ih =>
        have hfree : own (sdramStart + BitVec.ofNat 32 l.length) = false := by
          rw [hown (by omega), decide_eq_false_iff_not]
          omega
        have hlen : (l ++ [value]).length = l.length + 1 := by simp
        obtain ⟨b₁, hb₁, h₁⟩ := h.store (by omega) hfree value
        obtain ⟨b₂, hb₂, h₂⟩ := ih h₁ (by omega)
        refine ⟨b₂, ?_, replicate_succ_append k value ▸ h₂⟩
        rw [hsucc value k h (by omega), hb₁]
        exact hb₂
  full {mem l b} value k h hl hk := by
    induction k generalizing l b with
    | zero => omega
    | succ k ih =>
        rw [hsucc value k h hl]
        by_cases he : l.length = room
        · rw [h.store_own (by rw [hown hl, he, decide_eq_true rfl])]
          rfl
        · have hfree : own (sdramStart + BitVec.ofNat 32 l.length) = false := by
            rw [hown hl, decide_eq_false_iff_not]
            exact he
          have hlen : (l ++ [value]).length = l.length + 1 := by simp
          obtain ⟨b₁, hb₁, h₁⟩ := h.store (by omega) hfree value
          rw [hb₁]
          exact ih h₁ (by omega) (by omega)

theorem bootloader_within : bootloader.Within (2 ^ 31) :=
  Bootloader.within_of_own (by decide) (by decide) linkedBoot_sdram
    (fun _ _ => rfl) (fun _ _ _ _ => rfl)

/-- The offset check of LinuxSoC_v2 lets every store below the loader's own memory pass. -/
theorem bootloaderV2_within : bootloaderV2.Within (31 * 1024 * 1024) := by
  refine Bootloader.within_of_own (by decide) (by decide) linkedRamV2_sdram
    (fun _ _ => rfl) ?_
  intro mem l b value k h hl
  have hoff : b.sdramOffset.toNat = l.length := by
    rw [h.offset_eq, BitVec.toNat_ofNat]
    omega
  have hpass : ¬ BitVec.ofNat 32 sdramSizeV2 ≤ b.sdramOffset := by
    rw [BitVec.le_def, hoff]
    show ¬ 33554432 ≤ l.length
    omega
  show Boot.storeRunBelow linkedRamV2 (BitVec.ofNat 32 sdramSizeV2) value (k + 1) b = _
  rw [Boot.storeRunBelow, if_neg hpass]
  rfl

/-! ## The loops -/

/-- What the loops can end in, with `runs` on the card: all runs written and the end reached,
the first `n` runs written and the loop going on, or the loader overwritten because the image
does not fit. -/
def LoadOutcome (mem : BitVec 32 → BitVec 8) (runs : List (BitVec 8 × ℕ)) (room n : ℕ) :
    Except Exit Boot → Prop
  | .ok b => n ≤ runs.length ∧ (expand (runs.take n)).length ≤ room ∧
      b.Holds mem (expand (runs.take n))
  | .error (.endOfImage b) => (expand runs).length ≤ room ∧ b.Holds mem (expand runs)
  | .error .overwritten => room < (expand runs).length

variable {runs : List (BitVec 8 × ℕ)} {room : ℕ} {p : Bootloader}

theorem expand_take_succ {n : ℕ} (hn : n < runs.length) :
    expand (runs.take (n + 1)) =
      expand (runs.take n) ++ List.replicate runs[n].2 runs[n].1 := by
  rw [List.take_add_one, expand_append, List.getElem?_eq_getElem hn]
  simp [expand]

/-- The image up to a run is no longer than the image. -/
theorem length_expand_take_le (runs : List (BitVec 8 × ℕ)) (n : ℕ) :
    (expand (runs.take n)).length ≤ (expand runs).length := by
  have h : expand runs = expand (runs.take n) ++ expand (runs.drop n) := by
    rw [← expand_append, List.take_append_drop]
  rw [h, List.length_append]
  omega

/-- The pairs of a sector, from pair `q` on. -/
theorem decodeChunk_outcome (hp : p.Within room)
    (hcount : ∀ r ∈ runs, 0 < r.2 ∧ r.2 ≤ 255) (loaded i : ℕ) (d : ℕ) :
    ∀ {q : ℕ} {b : Boot}, q + d = 256 →
      LoadOutcome mem runs room (256 * i + q) (.ok b) →
      LoadOutcome mem runs room (256 * (i + 1))
        (p.decodeChunk loaded (fun j => (packRuns runs).getD (512 * i + j) 0) (2 * q) b) := by
  have hslack := hp.slack_le
  induction d with
  | zero =>
      intro q b hq hb
      rw [Bootloader.decodeChunk, if_neg (by unfold chunkSize; omega)]
      have he : 256 * (i + 1) = 256 * i + q := by omega
      rw [he]
      exact hb
  | succ d ih =>
      intro q b hq hb
      obtain ⟨hn, hroom, hold⟩ := hb
      have he : 512 * i + 2 * q = 2 * (256 * i + q) := by ring
      have he' : 512 * i + (2 * q + 1) = 2 * (256 * i + q) + 1 := by ring
      obtain ⟨hvalue, hbyte⟩ := packRuns_getD runs (256 * i + q)
      rw [Bootloader.decodeChunk, if_pos (by unfold chunkSize; omega)]
      simp only [he, he', hvalue, hbyte]
      rcases Nat.lt_or_ge (256 * i + q) runs.length with hlt | hge
      · -- one more run
        obtain ⟨hpos, hle⟩ := hcount _ (List.getElem_mem hlt)
        rw [List.getD_eq_getElem _ _ hlt]
        have hto : (BitVec.ofNat 8 runs[256 * i + q].2).toNat = runs[256 * i + q].2 := by
          rw [BitVec.toNat_ofNat]
          omega
        have hnz : ¬ BitVec.ofNat 8 runs[256 * i + q].2 = 0 := by
          intro h0
          rw [h0] at hto
          have : (0 : BitVec 8).toNat = 0 := rfl
          omega
        rw [if_neg hnz, hto]
        have hnext := expand_take_succ hlt
        have hlen := congrArg List.length hnext
        rw [List.length_append, List.length_replicate] at hlen
        rcases Nat.lt_or_ge room
          ((expand (runs.take (256 * i + q))).length + runs[256 * i + q].2) with hbig | hfit
        · rw [hp.full _ _ hold hroom hbig]
          show room < (expand runs).length
          have := length_expand_take_le runs (256 * i + q + 1)
          omega
        · obtain ⟨b', hb', hold'⟩ := hp.run _ _ hold hfit
          rw [hb']
          refine ih (q := q + 1) (by omega) ⟨hlt, ?_, ?_⟩
          · show (expand (runs.take (256 * i + q + 1))).length ≤ room
            omega
          · show b'.Holds mem (expand (runs.take (256 * i + q + 1)))
            rw [hnext]
            exact hold'
      · -- behind the last run the card holds zeros
        have hzero : BitVec.ofNat 8 ((0, 0) : BitVec 8 × ℕ).2 = 0 := rfl
        rw [List.getD_eq_default _ _ hge, if_pos hzero]
        rw [List.take_of_length_le hge] at hroom hold
        exact ⟨hroom, hold.say _⟩

/-- The sectors from number `i` on; the loop ends inside the image's sectors. -/
theorem loadLoop_outcome (hp : p.Within room)
    (hcount : ∀ r ∈ runs, 0 < r.2 ∧ r.2 ≤ 255)
    (hlen : 2 * runs.length < imageMbSize * 1024 * 1024)
    {sdReadsector : ℕ → Option (ℕ → BitVec 8)}
    (hsd : ∀ i, chunkSize * i < imageMbSize * 1024 * 1024 → sdReadsector (sdBlockOffset + i) =
      some fun j => (packRuns runs).getD (chunkSize * i + j) 0) (d : ℕ) :
    ∀ {i : ℕ} {b : Boot}, runs.length + 256 ≤ 256 * i + d →
      LoadOutcome mem runs room (256 * i) (.ok b) →
      ∃ e, p.loadLoop sdReadsector (chunkSize * i) i b = .error e ∧
        LoadOutcome mem runs room 0 (.error e) := by
  induction d using Nat.strong_induction_on with
  -- a sector either ends the loop or leaves 256 pairs fewer
  | _ d ih =>
      intro i b hi hb
      have hbound : chunkSize * i < imageMbSize * 1024 * 1024 := by
        have := hb.1
        unfold chunkSize
        omega
      have hchunk := decodeChunk_outcome (q := 0) hp hcount (chunkSize * i) i 256 rfl hb
      rw [Bootloader.loadLoop, if_pos hbound, hsd i hbound]
      show ∃ e, (p.decodeChunk (chunkSize * i)
        (fun j => (packRuns runs).getD (512 * i + j) 0) (2 * 0) b >>= fun b =>
          p.loadLoop sdReadsector (chunkSize * i + chunkSize) (i + 1)
            (Bootloader.progress (chunkSize * i) b)) = .error e ∧ _
      cases hres : p.decodeChunk (chunkSize * i)
          (fun j => (packRuns runs).getD (512 * i + j) 0) (2 * 0) b with
      | error e =>
          rw [hres] at hchunk
          exact ⟨e, rfl, by cases e <;> exact hchunk⟩
      | ok b' =>
          rw [hres] at hchunk
          obtain ⟨hn, hroom, hold⟩ := hchunk
          exact ih (d - 256) (by omega) (i := i + 1) (by omega) ⟨hn, hroom, hold.progress _⟩

/-! ## The image in SDRAM -/

/-- The load ends, leaves exactly `s` in SDRAM and reports its length last. -/
def Bootloader.Loads (p : Bootloader) (sdReadsector : ℕ → Option (ℕ → BitVec 8))
    (mem : BitVec 32 → BitVec 8) (s : List (BitVec 8)) : Prop :=
  ∃ b, p.load sdReadsector mem = some b ∧ b.mem = blit mem s ∧
    b.log.getLast? = some (.decompressed s.length)

/-- The card delivers the packed image of `s` from `SD_BLOCK_OFFSET` on, followed by zeros. -/
def CardHolds (sdReadsector : ℕ → Option (ℕ → BitVec 8)) (s : List (BitVec 8)) : Prop :=
  ∀ i, chunkSize * i < imageMbSize * 1024 * 1024 → sdReadsector (sdBlockOffset + i) =
    some fun j => (rleEncode s).getD (chunkSize * i + j) 0

variable {s : List (BitVec 8)} {sdReadsector : ℕ → Option (ℕ → BitVec 8)}

theorem loadLoop_image (hp : p.Within room) (hsd : CardHolds sdReadsector s)
    (hlen : (rleEncode s).length < imageMbSize * 1024 * 1024) (mem : BitVec 32 → BitVec 8) :
    ∃ e, p.loadLoop sdReadsector 0 0 ⟨mem, 0, []⟩ = .error e ∧
      LoadOutcome mem (imageRuns s) room 0 (.error e) := by
  unfold CardHolds at hsd
  rw [rleEncode_eq] at hsd hlen
  rw [length_packRuns] at hlen
  refine loadLoop_outcome (i := 0) hp (fun r => count_of_mem_imageRuns) hlen hsd
    ((imageRuns s).length + 256) (by omega) ⟨by omega, by simp, ?_, rfl⟩
  show mem = blit mem []
  rw [blit_nil]

/-- An image that ends below the loader arrives. -/
theorem loads_of_le (hp : p.Within room) (hsd : CardHolds sdReadsector s)
    (hlen : (rleEncode s).length < imageMbSize * 1024 * 1024) (hs : s.length ≤ room)
    (hshown : p.shown (BitVec.ofNat 32 s.length) = s.length) (mem : BitVec 32 → BitVec 8) :
    p.Loads sdReadsector mem s := by
  obtain ⟨e, he, hout⟩ := loadLoop_image hp hsd hlen mem
  cases e with
  | overwritten =>
      have hbig : room < (expand (imageRuns s)).length := hout
      rw [expand_imageRuns] at hbig
      omega
  | endOfImage b =>
      obtain ⟨-, hold⟩ := hout
      rw [expand_imageRuns] at hold
      refine ⟨b.say (.decompressed (p.shown b.sdramOffset)), ?_, hold.mem_eq, ?_⟩
      · unfold Bootloader.load
        rw [he]
      · rw [hold.offset_eq, hshown]
        exact List.getLast?_concat

/-- An image that reaches into the loader ends it. -/
theorem load_eq_none (hp : p.Within room) (hsd : CardHolds sdReadsector s)
    (hlen : (rleEncode s).length < imageMbSize * 1024 * 1024) (hs : room < s.length)
    (mem : BitVec 32 → BitVec 8) : p.load sdReadsector mem = none := by
  obtain ⟨e, he, hout⟩ := loadLoop_image hp hsd hlen mem
  unfold Bootloader.load
  rw [he]
  cases e with
  | overwritten => rfl
  | endOfImage b =>
      have hfit := hout.1
      rw [expand_imageRuns] at hfit
      omega

/-- The first loader restores every image that fits its SDRAM (`SDRAM_END` is an address);
the loader of LinuxSoC_v2 restores exactly those that leave the last MiB free, where it runs. -/
theorem rle_round_trip_iff (s : List (BitVec 8)) (sdReadsector : ℕ → Option (ℕ → BitVec 8))
    (mem : BitVec 32 → BitVec 8) (sdramSize : ℕ) (hend : sdramStart.toNat + sdramSize < 2 ^ 32)
    (hsd : CardHolds sdReadsector s)
    (hlen : (rleEncode s).length < imageMbSize * 1024 * 1024) :
    (s.length ≤ sdramSize → bootloader.Loads sdReadsector mem s) ∧
      (s.length ≤ sdramSizeV2 →
        (bootloaderV2.Loads sdReadsector mem s ↔ s.length ≤ sdramSizeV2 - 1024 * 1024)) := by
  have hstart : sdramStart.toNat = 2 ^ 31 := rfl
  have hroom : sdramSizeV2 - 1024 * 1024 = 31 * 1024 * 1024 := rfl
  have hsize : sdramSizeV2 = 32 * 1024 * 1024 := rfl
  refine ⟨fun hs => ?_, fun hs => ⟨fun hload => ?_, fun hs' => ?_⟩⟩
  · refine loads_of_le bootloader_within hsd hlen (by omega) ?_ mem
    show (BitVec.ofNat 32 s.length).toInt = s.length
    have hto : (BitVec.ofNat 32 s.length).toNat = s.length := by
      rw [BitVec.toNat_ofNat, Nat.mod_eq_of_lt (by omega)]
    rw [BitVec.toInt_eq_toNat_of_lt (by omega), hto]
  · by_contra hbig
    obtain ⟨b, hb, -⟩ := hload
    rw [load_eq_none bootloaderV2_within hsd hlen (by omega) mem] at hb
    cases hb
  · refine loads_of_le bootloaderV2_within hsd hlen (by omega) ?_ mem
    show ((BitVec.ofNat 32 s.length).toNat : ℤ) = s.length
    rw [BitVec.toNat_ofNat, Nat.mod_eq_of_lt (by omega)]

/-- A card with the packed image of `s`. -/
def imageCard (s : List (BitVec 8)) : ℕ → Option (ℕ → BitVec 8) :=
  fun lba => some fun j => (rleEncode s).getD (chunkSize * (lba - sdBlockOffset) + j) 0

theorem cardHolds_imageCard (s : List (BitVec 8)) : CardHolds (imageCard s) s := by
  intro i _
  unfold imageCard
  rw [Nat.add_sub_cancel_left]

/-- The empty image and a run of 300 bytes, on an SoC with 32 MiB of SDRAM. -/
theorem rle_round_trip_iff_runs :
    bootloader.Loads (imageCard []) 0 [] ∧ bootloaderV2.Loads (imageCard []) 0 [] ∧
      bootloaderV2.Loads (imageCard (List.replicate 300 7)) 0 (List.replicate 300 7) := by
  have hempty := rle_round_trip_iff [] (imageCard []) 0 (32 * 1024 * 1024) (by decide)
    (cardHolds_imageCard []) (by decide)
  have hruns := rle_round_trip_iff (List.replicate 300 7) (imageCard (List.replicate 300 7)) 0
    (32 * 1024 * 1024) (by decide) (cardHolds_imageCard _) (by decide +kernel)
  exact ⟨hempty.1 (by decide), (hempty.2 (by decide)).mpr (by decide),
    (hruns.2 (by rw [List.length_replicate]; decide)).mpr (by rw [List.length_replicate]; decide)⟩

/-- As many zeros as LinuxSoC_v2 has SDRAM. -/
def zeroImage : List (BitVec 8) := List.replicate (33554431 + 1) 0

/-- An image of zeros that just fits into SDRAM: its packed form is short, and LinuxSoC_v2
overwrites its loader with it. -/
theorem zero_image_over_loader :
    CardHolds (imageCard zeroImage) zeroImage ∧
      (rleEncode zeroImage).length < imageMbSize * 1024 * 1024 ∧
      zeroImage.length ≤ sdramSizeV2 ∧
      ¬ bootloaderV2.Loads (imageCard zeroImage) 0 zeroImage := by
  have hlen : (rleEncode zeroImage).length < imageMbSize * 1024 * 1024 := by
    rw [zeroImage, length_rleEncode_replicate]
    decide
  refine ⟨cardHolds_imageCard _, hlen, ?_, ?_⟩
  · rw [zeroImage, List.length_replicate]
    decide
  · rintro ⟨b, hb, -⟩
    rw [load_eq_none bootloaderV2_within (cardHolds_imageCard _) hlen
      (by rw [zeroImage, List.length_replicate]; decide)] at hb
    cases hb

end KianRiscV
