/-
# The run-length coded boot image: `rle_encode.c` and the two bootloaders

`rleEncode` is the host tool that packs the kernel image.  The loaders of both SoCs read the
packed image from the SD card, sector by sector, and write it out to SDRAM; they share their loops
and differ in the bound check of each store, in the loop condition and in some messages.

A loader runs from memory itself: the first one from the block RAM at address zero, the one of
LinuxSoC_v2 from the last MiB of SDRAM (`riscv.ld`).  A store into that memory changes the program
that is running, and what comes after it is no longer given by the source; the model ends there
with no result (`Exit.overwritten`).

`sdReadsector` is a parameter: the sector it delivers for a block number, or nothing when it
reports an error.
-/
import KianRiscV.RunLength
import Mathlib.Data.BitVec
import Mathlib.Logic.Function.Basic

namespace KianRiscV

/-! ## `rle_encode` -/

/-- The `while` loop of `rle_encode`, with the bytes still to read. -/
def rleEncodeLoop (lastValue : BitVec 8) (count : ℕ) : List (BitVec 8) → List (BitVec 8)
  | [] => [lastValue, BitVec.ofNat 8 count]
  | value :: rest =>
    if value = lastValue ∧ count < 255 then rleEncodeLoop lastValue (count + 1) rest
    else lastValue :: BitVec.ofNat 8 count :: rleEncodeLoop value 1 rest

/-- The file that `rle_encode` writes for an input file. -/
def rleEncode : List (BitVec 8) → List (BitVec 8)
  | [] => []
  | lastValue :: rest => rleEncodeLoop lastValue 1 rest

/-! ## The load loops -/

def sdramStart : BitVec 32 := 0x80000000

def imageMbSize : ℕ := 20

def sdBlockOffset : ℕ := 1024 * 1024 / 512

def chunkSize : ℕ := 512

/-- What the load loops print, with the numbers they print. -/
inductive BootMessage where
  | loadedImage (bytes : ℕ)
  | loadedMiB (mib : ℕ)
  | errorReadingSector
  | readErrorAtLba (lba : ℕ)
  | imageExceeds (bytes : ℕ)
  | decompressed (bytes : ℤ)
  deriving DecidableEq, Repr

/-- The memory, the variable `sdram_offset` and the messages printed so far. -/
structure Boot where
  mem : BitVec 32 → BitVec 8
  sdramOffset : BitVec 32
  log : List BootMessage

/-- How the load loop is left before its last sector: at `end_of_image`, or by a store into the
memory the loader runs from. -/
inductive Exit where
  | endOfImage (b : Boot)
  | overwritten

/-- What the two bootloaders have of their own. -/
structure Bootloader where
  /-- the loop over the `count` bytes of a run -/
  storeRun : BitVec 8 → ℕ → Boot → Except Exit Boot
  /-- the loop over the pairs of a sector runs while `j + slack < CHUNK_SIZE` -/
  slack : ℕ
  sectorError : ℕ → BootMessage
  /-- how `printf` shows `sdram_offset` -/
  shown : BitVec 32 → ℤ

namespace Boot

def say (b : Boot) (m : BootMessage) : Boot :=
  { b with log := b.log ++ [m] }

/-- `sdram_ptr[sdram_offset++] = value`. -/
def store (own : BitVec 32 → Bool) (value : BitVec 8) (b : Boot) : Except Exit Boot :=
  if own (sdramStart + b.sdramOffset) then .error .overwritten
  else .ok { b with
    mem := Function.update b.mem (sdramStart + b.sdramOffset) value
    sdramOffset := b.sdramOffset + 1 }

/-- `for (k = 0; k < count; ++k) *(sdram_ptr + sdram_offset++) = value`. -/
def storeRun (own : BitVec 32 → Bool) (value : BitVec 8) : ℕ → Boot → Except Exit Boot
  | 0, b => .ok b
  | k + 1, b => do
    let b ← b.store own value
    storeRun own value k b

/-- `while (count--)` with the check against `sdram_size` before each store. -/
def storeRunBelow (own : BitVec 32 → Bool) (sdramSize : BitVec 32) (value : BitVec 8) :
    ℕ → Boot → Except Exit Boot
  | 0, b => .ok b
  | k + 1, b =>
    if sdramSize ≤ b.sdramOffset then
      .error (.endOfImage (b.say (.imageExceeds b.sdramOffset.toNat)))
    else do
      let b ← b.store own value
      storeRunBelow own sdramSize value k b

end Boot

/-- `MEMORY { boot : ORIGIN = 0x00000000, LENGTH = 0x00004000 }` of the first SoC. -/
def linkedBoot (a : BitVec 32) : Bool := decide (a < 0x4000)

/-- The bootloader of the first SoC: no check of the offset. -/
def bootloader : Bootloader where
  storeRun := Boot.storeRun linkedBoot
  slack := 0
  sectorError _ := .errorReadingSector
  shown offset := offset.toInt

/-- `SDRAM_SIZE` of LinuxSoC_v2. -/
def sdramSizeV2 : ℕ := 1024 * 1024 * 32

/-- `MEMORY { ram : ORIGIN = 0x80000000 + 31 MiB, LENGTH = 1M }` of LinuxSoC_v2. -/
def linkedRamV2 (a : BitVec 32) : Bool :=
  decide (sdramStart.toNat + 31 * 1024 * 1024 ≤ a.toNat) &&
    decide (a.toNat < sdramStart.toNat + 32 * 1024 * 1024)

/-- The bootloader of LinuxSoC_v2. -/
def bootloaderV2 : Bootloader where
  storeRun := Boot.storeRunBelow linkedRamV2 (BitVec.ofNat 32 sdramSizeV2)
  slack := 1
  sectorError lba := .readErrorAtLba lba
  shown offset := offset.toNat

namespace Bootloader

variable (p : Bootloader)

/-- The loop over the pairs `(value, count)` of a sector. -/
def decodeChunk (loaded : ℕ) (buffer : ℕ → BitVec 8) (j : ℕ) (b : Boot) : Except Exit Boot :=
  if j + p.slack < chunkSize then
    if buffer (j + 1) = 0 then .error (.endOfImage (b.say (.loadedImage loaded)))
    else do
      let b ← p.storeRun (buffer j) (buffer (j + 1)).toNat b
      decodeChunk loaded buffer (j + 2) b
  else .ok b
termination_by chunkSize - j

/-- The progress message, once a MiB. -/
def progress (loaded : ℕ) (b : Boot) : Boot :=
  if loaded % (1024 * 1024) = 0 then b.say (.loadedMiB (loaded / (1024 * 1024))) else b

/-- The loop over the sectors of the image. -/
def loadLoop (sdReadsector : ℕ → Option (ℕ → BitVec 8)) (loaded blockIndex : ℕ) (b : Boot) :
    Except Exit Boot :=
  if loaded < imageMbSize * 1024 * 1024 then
    match sdReadsector (sdBlockOffset + blockIndex) with
    | some buffer => do
      let b ← p.decodeChunk loaded buffer 0 b
      loadLoop sdReadsector (loaded + chunkSize) (blockIndex + 1) (progress loaded b)
    | none => .error (.endOfImage (b.say (p.sectorError (sdBlockOffset + blockIndex))))
  else .ok b
termination_by imageMbSize * 1024 * 1024 - loaded
decreasing_by
  have hc : 0 < chunkSize := by decide
  omega

/-- The load of an image up to the last message before it is run; no result when the loader has
overwritten itself. -/
def load (sdReadsector : ℕ → Option (ℕ → BitVec 8)) (mem : BitVec 32 → BitVec 8) : Option Boot :=
  match p.loadLoop sdReadsector 0 0 ⟨mem, 0, []⟩ with
  | .ok b => some (b.say (.decompressed (p.shown b.sdramOffset)))
  | .error (.endOfImage b) => some (b.say (.decompressed (p.shown b.sdramOffset)))
  | .error .overwritten => none

end Bootloader

end KianRiscV
