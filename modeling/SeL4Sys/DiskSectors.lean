import SeL4Sys.Disk

/-!
# The sectors of a transfer

`read_disk` and `write_disk` with the calls of `read_sect` and `write_sect` that they make. What they
transfer is what `Disk` says. The sector behind a boundary is read as soon as the boundary is reached,
also when the transfer ends there, and `write_disk` writes it back. So a transfer that ends at a boundary
uses one sector too many, which is not on the device if the transfer ends where the device does.
-/

namespace SeL4Sys

open Bytes

/-- A call of `read_sect` or `write_sect`, by the sector. -/
inductive SectorCall
  | read (offset : ℕ)
  | write (offset : ℕ)
deriving DecidableEq

def SectorCall.sector : SectorCall → ℕ
  | read offset => offset
  | write offset => offset

/-! ## The loops with their calls -/

/-- The loop of `read_disk`: the buffer and the calls. -/
def readDiskSteps (d : Disk) (quotient remainder : ℕ) :
    ℕ → ℕ → ℕ → Buf → Buf → Buf × List SectorCall
  | 0, _, _, _, destBuffer => (destBuffer, [])
  | n + 1, i, j, buffer, destBuffer =>
    let destBuffer := Function.update destBuffer i (buffer ((remainder + i) % sectorSize))
    if (remainder + (i + 1)) % sectorSize = 0 then
      let r := readDiskSteps d quotient remainder n (i + 1) (j + 1) (readSect d (quotient + j))
        destBuffer
      (r.1, .read (quotient + j) :: r.2)
    else readDiskSteps d quotient remainder n (i + 1) j buffer destBuffer

/-- `read_disk`. The loop ends when `i` is `size * num`, at once if that is negative. -/
def readDiskCalls (d : Disk) (destBuffer : Buf) (size num : ℤ) (offset : ℕ) :
    Buf × List SectorCall :=
  let quotient := offset / sectorSize
  let remainder := offset % sectorSize
  let r := readDiskSteps d quotient remainder (size * num).toNat 0 1 (readSect d (quotient + 0))
    destBuffer
  (r.1, .read (quotient + 0) :: r.2)

/-- The loop of `write_disk` and the flush behind it: the device and the calls. -/
def writeDiskSteps (destBuffer : Buf) (quotient remainder : ℕ) :
    ℕ → ℕ → ℕ → Buf → Disk → Disk × List SectorCall
  | 0, _, j, buffer, d => (writeSect d buffer (quotient + j), [.write (quotient + j)])
  | n + 1, i, j, buffer, d =>
    let buffer := Function.update buffer ((remainder + i) % sectorSize) (destBuffer i)
    if (remainder + (i + 1)) % sectorSize = 0 then
      let d := writeSect d buffer (quotient + j)
      let r := writeDiskSteps destBuffer quotient remainder n (i + 1) (j + 1)
        (readSect d (quotient + (j + 1))) d
      (r.1, .write (quotient + j) :: .read (quotient + (j + 1)) :: r.2)
    else writeDiskSteps destBuffer quotient remainder n (i + 1) j buffer d

/-- `write_disk` -/
def writeDiskCalls (d : Disk) (destBuffer : Buf) (size num : ℤ) (offset : ℕ) :
    Disk × List SectorCall :=
  let quotient := offset / sectorSize
  let remainder := offset % sectorSize
  let r := writeDiskSteps destBuffer quotient remainder (size * num).toNat 0 0
    (readSect d (quotient + 0)) d
  (r.1, .read (quotient + 0) :: r.2)

/-! ## What is transferred -/

variable {d : Disk} {dest src : Buf} {size num : ℤ} {offset n : ℕ}

theorem readDiskSteps_fst (d : Disk) (q r n : ℕ) : ∀ (i j : ℕ) (buffer dest : Buf),
    (readDiskSteps d q r n i j buffer dest).1 = readDiskLoop d q r n i j buffer dest := by
  induction n with
  | zero =>
    intro i j buffer dest
    rfl
  | succ n ih =>
    intro i j buffer dest
    rw [readDiskSteps, readDiskLoop]
    split_ifs
    · exact ih _ _ _ _
    · exact ih _ _ _ _

theorem writeDiskSteps_fst (src : Buf) (q r n : ℕ) : ∀ (i j : ℕ) (buffer : Buf) (d : Disk),
    (writeDiskSteps src q r n i j buffer d).1 = writeDiskLoop src q r n i j buffer d := by
  induction n with
  | zero =>
    intro i j buffer d
    rfl
  | succ n ih =>
    intro i j buffer d
    rw [writeDiskSteps, writeDiskLoop]
    split_ifs
    · exact ih _ _ _ _
    · exact ih _ _ _ _

theorem readDiskCalls_fst (hn : size * num = n) :
    (readDiskCalls d dest size num offset).1 = patch dest 0 n (window d offset) := by
  have heq := readDisk_eq d dest 1 n offset
  rw [Nat.one_mul] at heq
  rw [readDiskCalls, hn, Int.toNat_natCast, readDiskSteps_fst, ← heq, readDisk, Nat.one_mul]

theorem writeDiskCalls_fst (hn : size * num = n) :
    (writeDiskCalls d src size num offset).1 = patch d offset n src := by
  have heq := writeDisk_eq d src 1 n offset
  rw [Nat.one_mul] at heq
  rw [writeDiskCalls, hn, Int.toNat_natCast, writeDiskSteps_fst, ← heq, writeDisk, Nat.one_mul]

/-- **The disk is an array of bytes.** A read delivers the bytes of its range and leaves the rest of the
buffer alone, a read after a write of the same range delivers what was written, and a write leaves every
byte outside its range as it was. -/
theorem disk_is_byte_array (d : Disk) (dest src : Buf) (offset : ℕ) (hn : size * num = n) :
    (∀ i, i < n → (readDiskCalls d dest size num offset).1 i = d (offset + i))
      ∧ (∀ i, n ≤ i → (readDiskCalls d dest size num offset).1 i = dest i)
      ∧ (∀ i, i < n →
        (readDiskCalls (writeDiskCalls d src size num offset).1 dest size num offset).1 i = src i)
      ∧ ∀ p, p < offset ∨ offset + n ≤ p → (writeDiskCalls d src size num offset).1 p = d p := by
  refine ⟨?_, ?_, ?_, ?_⟩
  · intro i hi
    rw [readDiskCalls_fst hn, patch_zero_apply hi, window_apply]
  · intro i hi
    rw [readDiskCalls_fst hn, patch_apply_out (by omega)]
  · intro i hi
    rw [readDiskCalls_fst hn, writeDiskCalls_fst hn, patch_zero_apply hi, window_apply,
      patch_apply_add hi]
  · intro p hp
    rw [writeDiskCalls_fst hn, patch_apply_out hp]

/-- A block that starts one byte before the end of a sector. -/
theorem disk_is_byte_array_block :
    (readDiskCalls (writeDiskCalls (fun _ => 0) (fun _ => 1) 512 2 511).1 (fun _ => 0) 512 2 511).1 1023
      = 1 :=
  (disk_is_byte_array (n := 1024) (fun _ => 0) (fun _ => 0) (fun _ => 1) 511 (by norm_num)).2.2.1 1023
    (by norm_num)

/-! ## The sectors that are used -/

/-- From byte `i` on there is one call for each boundary up to the end. -/
theorem readDiskSteps_snd (d : Disk) (q r n : ℕ) : ∀ (i j : ℕ) (buffer dest : Buf),
    j = (r + i) / 512 + 1 → ∀ k, k ∈ (readDiskSteps d q r n i j buffer dest).2.map SectorCall.sector
      ↔ q + j ≤ k ∧ k ≤ q + (r + i + n) / 512 := by
  induction n with
  | zero =>
    intro i j buffer dest hj k
    simp only [readDiskSteps, List.map_nil, List.not_mem_nil, false_iff]
    omega
  | succ n ih =>
    intro i j buffer dest hj k
    rw [readDiskSteps]
    simp only [sectorSize]
    split_ifs with hwrap
    · rw [List.map_cons, List.mem_cons, ih (i + 1) (j + 1) _ _ (by omega), SectorCall.sector]
      omega
    · rw [ih (i + 1) j _ _ (by omega)]
      omega

theorem writeDiskSteps_snd (src : Buf) (q r n : ℕ) : ∀ (i j : ℕ) (buffer : Buf) (d : Disk),
    j = (r + i) / 512 → ∀ k, k ∈ (writeDiskSteps src q r n i j buffer d).2.map SectorCall.sector
      ↔ q + j ≤ k ∧ k ≤ q + (r + i + n) / 512 := by
  induction n with
  | zero =>
    intro i j buffer d hj k
    simp only [writeDiskSteps, List.map_cons, List.map_nil, List.mem_singleton, SectorCall.sector]
    omega
  | succ n ih =>
    intro i j buffer d hj k
    rw [writeDiskSteps]
    simp only [sectorSize]
    split_ifs with hwrap
    · rw [List.map_cons, List.map_cons, List.mem_cons, List.mem_cons, ih (i + 1) (j + 1) _ _ (by omega),
        SectorCall.sector, SectorCall.sector]
      omega
    · rw [ih (i + 1) j _ _ (by omega)]
      omega

/-- The sectors that a transfer passes on, of either kind. -/
def touchedSectors (d : Disk) (dest src : Buf) (size num : ℤ) (offset : ℕ) : List ℕ :=
  ((readDiskCalls d dest size num offset).2 ++ (writeDiskCalls d src size num offset).2).map
    SectorCall.sector

/-- They go from the sector of the first byte to the sector of the byte behind the last one. -/
theorem mem_touchedSectors (hn : size * num = n) (k : ℕ) :
    k ∈ touchedSectors d dest src size num offset
      ↔ offset / 512 ≤ k ∧ k ≤ (offset + n) / 512 := by
  have hread := readDiskSteps_snd d (offset / 512) (offset % 512) n 0 1 (readSect d (offset / 512 + 0))
    dest (by omega) k
  have hwrite := writeDiskSteps_snd src (offset / 512) (offset % 512) n 0 0
    (readSect d (offset / 512 + 0)) d (by omega) k
  simp only [touchedSectors, readDiskCalls, writeDiskCalls, hn, Int.toNat_natCast, sectorSize,
    List.map_append, List.mem_append, List.map_cons, List.mem_cons, hread, hwrite, SectorCall.sector]
  omega

/-- The sector holds a byte of the range. -/
def Intersects (offset n k : ℕ) : Prop := ∃ p, offset ≤ p ∧ p < offset + n ∧ p / sectorSize = k

theorem intersects_iff {k : ℕ} (hpos : 0 < n) :
    Intersects offset n k ↔ offset / 512 ≤ k ∧ k ≤ (offset + n - 1) / 512 := by
  simp only [Intersects, sectorSize]
  constructor
  · rintro ⟨p, hlow, hhigh, hk⟩
    omega
  · rintro ⟨hlow, hhigh⟩
    exact ⟨max offset (512 * k), by omega, by omega, by omega⟩

/-- **When transfers stay on the device.** A non-empty range on the device is transferred with sectors of
the device exactly if it does not end where the device ends, and with sectors of the range exactly if it
does not end at a boundary. -/
theorem transfer_on_device_iff (d : Disk) (dest src : Buf) (hn : size * num = n) (hpos : 0 < n)
    {sectorNum : ℕ} (hin : offset + n ≤ sectorSize * sectorNum) :
    ((∀ k ∈ touchedSectors d dest src size num offset, k < sectorNum)
        ↔ offset + n ≠ sectorSize * sectorNum)
      ∧ ((∀ k ∈ touchedSectors d dest src size num offset, Intersects offset n k)
        ↔ (offset + n) % sectorSize ≠ 0) := by
  simp only [sectorSize, mem_touchedSectors hn, intersects_iff hpos] at hin ⊢
  constructor
  · constructor
    · intro hall
      have := hall ((offset + n) / 512) ⟨by omega, le_rfl⟩
      omega
    · intro hend k hk
      omega
  · constructor
    · intro hall
      have := hall ((offset + n) / 512) ⟨by omega, le_rfl⟩
      omega
    · intro hend k hk
      omega

/-- An inode in the middle of a sector. -/
theorem transfer_on_device_iff_inode :
    (∀ k ∈ touchedSectors (fun _ => 0) (fun _ => 0) (fun _ => 0) 128 1 4096, k < 8196)
      ∧ ∀ k ∈ touchedSectors (fun _ => 0) (fun _ => 0) (fun _ => 0) 128 1 4096, Intersects 4096 128 k := by
  have hiff := @transfer_on_device_iff 128 1 4096 128 (fun _ => 0) (fun _ => 0) (fun _ => 0)
    (by norm_num) (by norm_num) 8196 (by decide)
  exact ⟨hiff.1.mpr (by decide), hiff.2.mpr (by decide)⟩

/-- The last block of a disk of 8196 sectors: the sector behind the device is read and written. -/
theorem last_block_leaves_device :
    512 * 8194 + 1024 * 1 ≤ sectorSize * 8196
      ∧ 8196 ∈ touchedSectors (fun _ => 0) (fun _ => 0) (fun _ => 0) 1024 1 (512 * 8194)
      ∧ ¬ Intersects (512 * 8194) 1024 8196 := by
  refine ⟨by decide, ?_, ?_⟩
  · rw [mem_touchedSectors (n := 1024) (by norm_num)]
    decide
  · rw [intersects_iff (by norm_num)]
    decide

end SeL4Sys
