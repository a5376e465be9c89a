import SeL4Sys.Lib.Bytes

/-!
# The disk driver

`disk.c` moves whole sectors through a 512-byte staging buffer. `readDisk` and `writeDisk`
are its two loops, over the sector transfers `readSect` and `writeSect`. The device itself
is the sequence of its bytes, sector after sector.

`readDisk_eq` and `writeDisk_eq` state what the loops amount to: reading a window of the
device and patching one. Nothing above this module looks at sectors again.
-/

namespace SeL4Sys

open Bytes Function

/-- `SECTOR_SIZE` -/
@[simp] abbrev sectorSize : ℕ := 512

/-- The content of the device, by byte position. -/
abbrev Disk := Buf

/-- `read_sect`: sector `offset`, as the buffer it is read into. -/
def readSect (d : Disk) (offset : ℕ) : Buf := window d (offset * sectorSize)

/-- `write_sect` -/
def writeSect (d : Disk) (src : Buf) (offset : ℕ) : Disk :=
  patch d (offset * sectorSize) sectorSize src

/-! ## `read_disk` -/

/-- The loop of `read_disk`; the first argument counts the bytes still to copy. -/
def readDiskLoop (d : Disk) (quotient remainder : ℕ) : ℕ → ℕ → ℕ → Buf → Buf → Buf
  | 0, _, _, _, destBuffer => destBuffer
  | n + 1, i, j, buffer, destBuffer =>
    let destBuffer := update destBuffer i (buffer ((remainder + i) % sectorSize))
    if (remainder + (i + 1)) % sectorSize = 0 then
      readDiskLoop d quotient remainder n (i + 1) (j + 1) (readSect d (quotient + j)) destBuffer
    else
      readDiskLoop d quotient remainder n (i + 1) j buffer destBuffer

/-- `read_disk`: the buffer after the call. -/
def readDisk (d : Disk) (destBuffer : Buf) (size num offset : ℕ) : Buf :=
  let quotient := offset / sectorSize
  let remainder := offset % sectorSize
  readDiskLoop d quotient remainder (size * num) 0 1 (readSect d (quotient + 0)) destBuffer

/-- The staging buffer holds the sector of the next byte, and `j` is one sector ahead. -/
theorem readDiskLoop_eq (d : Disk) (q r n : ℕ) : ∀ (i j : ℕ) (buffer dest : Buf),
    buffer = readSect d (q + (r + i) / 512) → j = (r + i) / 512 + 1 →
    readDiskLoop d q r n i j buffer dest = patch dest i n (window d (q * 512 + r + i)) := by
  induction n with
  | zero =>
    intro i j buffer dest _ _
    funext p
    rw [patch_apply_out (by omega)]
    rfl
  | succ n ih =>
    intro i j buffer dest hbuf hj
    -- the byte copied now is byte `q * 512 + r + i` of the device
    have hbyte : buffer ((r + i) % sectorSize) = d (q * 512 + r + i) := by
      rw [hbuf, readSect, window_apply]
      refine congrArg d ?_
      simp only [sectorSize]
      omega
    have hglue : patch (update dest i (d (q * 512 + r + i))) (i + 1) n
        (window d (q * 512 + r + (i + 1))) = patch dest i (n + 1) (window d (q * 512 + r + i)) := by
      funext p
      by_cases hp : p = i
      · subst hp
        rw [patch_apply_out (by omega), update_self, patch_apply_in (by omega) (by omega),
          window_apply]
        exact congrArg d (by omega)
      · by_cases hin : i + 1 ≤ p ∧ p < i + 1 + n
        · rw [patch_apply_in hin.1 hin.2, patch_apply_in (by omega) (by omega), window_apply,
            window_apply]
          exact congrArg d (by omega)
        · rw [patch_apply_out (by omega), update_of_ne hp, patch_apply_out (by omega)]
    rw [readDiskLoop]
    simp only [hbyte]
    split
    · rename_i hwrap
      simp only [sectorSize] at hwrap
      rw [ih, hglue]
      · rw [hj]
        congr 1
        omega
      · omega
    · rename_i hwrap
      simp only [sectorSize] at hwrap
      rw [ih, hglue]
      · rw [hbuf]
        congr 1
        omega
      · omega

/-- `read_disk` copies the `size * num` bytes at `offset`. -/
theorem readDisk_eq (d : Disk) (destBuffer : Buf) (size num offset : ℕ) :
    readDisk d destBuffer size num offset = patch destBuffer 0 (size * num) (window d offset) := by
  unfold readDisk
  simp only [sectorSize]
  rw [readDiskLoop_eq]
  · congr 2
    omega
  · congr 1
    omega
  · omega

/-! ## `write_disk` -/

/-- The loop of `write_disk`, with the flush of the last sector that follows it. -/
def writeDiskLoop (destBuffer : Buf) (quotient remainder : ℕ) : ℕ → ℕ → ℕ → Buf → Disk → Disk
  | 0, _, j, buffer, d => writeSect d buffer (quotient + j)
  | n + 1, i, j, buffer, d =>
    let buffer := update buffer ((remainder + i) % sectorSize) (destBuffer i)
    if (remainder + (i + 1)) % sectorSize = 0 then
      let d := writeSect d buffer (quotient + j)
      writeDiskLoop destBuffer quotient remainder n (i + 1) (j + 1)
        (readSect d (quotient + (j + 1))) d
    else
      writeDiskLoop destBuffer quotient remainder n (i + 1) j buffer d

/-- `write_disk`: the device after the call. -/
def writeDisk (d : Disk) (destBuffer : Buf) (size num offset : ℕ) : Disk :=
  let quotient := offset / sectorSize
  let remainder := offset % sectorSize
  writeDiskLoop destBuffer quotient remainder (size * num) 0 0 (readSect d (quotient + 0)) d

theorem writeSect_readSect (d : Disk) (n : ℕ) : writeSect d (readSect d n) n = d :=
  patch_self d _ _

/-- Storing a byte in the staging buffer is storing it on the device once flushed. -/
theorem writeSect_update (d : Disk) (buffer : Buf) (q i : ℕ) (b : UInt8) :
    writeSect d (update buffer (i % 512) b) (q + i / 512)
      = update (writeSect d buffer (q + i / 512)) (q * 512 + i) b := by
  funext p
  simp only [writeSect, sectorSize]
  by_cases hin : (q + i / 512) * 512 ≤ p ∧ p < (q + i / 512) * 512 + 512
  · rw [patch_apply_in hin.1 hin.2]
    by_cases hp : p = q * 512 + i
    · subst hp
      rw [show q * 512 + i - (q + i / 512) * 512 = i % 512 by omega, update_self,
        update_self]
    · rw [update_of_ne (by omega), update_of_ne hp,
        patch_apply_in hin.1 hin.2]
  · rw [patch_apply_out (by omega), update_of_ne (by omega), patch_apply_out (by omega)]

/-- The device with the staging buffer flushed has all bytes written so far. -/
theorem writeDiskLoop_eq (src : Buf) (q r n : ℕ) : ∀ (i j : ℕ) (buffer : Buf) (d : Disk),
    j = (r + i) / 512 →
    writeDiskLoop src q r n i j buffer d
      = patch (writeSect d buffer (q + j)) (q * 512 + r + i) n (window src i) := by
  induction n with
  | zero =>
    intro i j buffer d _
    funext p
    rw [patch_apply_out (by omega)]
    rfl
  | succ n ih =>
    intro i j buffer d hj
    subst hj
    have hstore : writeSect d (update buffer ((r + i) % 512) (src i)) (q + (r + i) / 512)
        = update (writeSect d buffer (q + (r + i) / 512)) (q * 512 + r + i) (src i) := by
      rw [writeSect_update, Nat.add_assoc]
    -- the byte of this round in front of the bytes of the later ones
    have hglue : ∀ e : Disk, patch (update e (q * 512 + r + i) (src i))
        (q * 512 + r + (i + 1)) n (window src (i + 1))
        = patch e (q * 512 + r + i) (n + 1) (window src i) := by
      intro e
      funext p
      by_cases hp : p = q * 512 + r + i
      · subst hp
        rw [patch_apply_out (by omega), update_self, patch_apply_in (by omega) (by omega),
          window_apply]
        exact congrArg src (by omega)
      · by_cases hin : q * 512 + r + (i + 1) ≤ p ∧ p < q * 512 + r + (i + 1) + n
        · rw [patch_apply_in hin.1 hin.2, patch_apply_in (by omega) (by omega), window_apply,
            window_apply]
          exact congrArg src (by omega)
        · rw [patch_apply_out (by omega), update_of_ne hp, patch_apply_out (by omega)]
    rw [writeDiskLoop]
    simp only [sectorSize]
    split
    -- the sector is full: it goes to the device and the next one comes in
    · rw [ih _ _ _ _ (by omega), writeSect_readSect, hstore, hglue]
    · rw [ih _ _ _ _ (by omega), hstore, hglue]

/-- `write_disk` overwrites the `size * num` bytes at `offset` and no others. -/
theorem writeDisk_eq (d : Disk) (destBuffer : Buf) (size num offset : ℕ) :
    writeDisk d destBuffer size num offset = patch d offset (size * num) destBuffer := by
  unfold writeDisk
  simp only [sectorSize]
  rw [writeDiskLoop_eq _ _ _ _ _ _ _ _ (by omega), writeSect_readSect]
  have hwin : window destBuffer 0 = destBuffer := by
    funext i
    rw [window_apply, Nat.zero_add]
  rw [hwin]
  congr 1
  omega

end SeL4Sys
