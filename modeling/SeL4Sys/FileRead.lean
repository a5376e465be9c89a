import SeL4Sys.FileContent
import SeL4Sys.FileOps

/-!
# Reading a file

`syscall_readfile` copies the bytes of the file from the offset on, up to the end of the file or
the number of bytes asked for. It needs the blocks of the file to be reachable and nothing
else; in particular no other file matters.
-/

namespace SeL4Sys

open Bytes

variable {s : FS} {ino : Inode} {off m : ℕ}

/-- The variables of the loop when `a` bytes are read and byte `off` is next. -/
def readAt (off a : ℕ) (buffer str : Buf) : ReadState :=
  ⟨off, (off / 1024 : ℕ), (off % 1024 : ℕ), a, buffer, str⟩

/-- What is left to read when `a` of `maxLen` bytes are read. -/
def readLeft (size maxLen off a : ℕ) : ℕ := min (size - off) (maxLen - a)

/-- One pass, when something is left. -/
theorem readRound_eq (hf : Formatted s) {size maxLen a : ℕ} (hsize : ino.size = (size : ℤ))
    (hblocks : size ≤ maxBlocks * 1024) (hm : readLeft size maxLen off a = m) (hpos : 0 < m)
    (buffer str : Buf) :
    ∃ buffer', readRound s ino maxLen (readAt off a buffer str)
      = ⟨(off + min (1024 - off % 1024) m : ℕ), (off / 1024 : ℕ) + 1, 0,
          (a + min (1024 - off % 1024) m : ℕ), buffer',
          patch str a (min (1024 - off % 1024) m) (fileFrom s.disk ino off)⟩ := by
  have hrem := Nat.mod_lt off (show 0 < 1024 by norm_num)
  have hb : ((s.superBlock.blockSize : ℕ) : ℤ) = 1024 := by rw [hf.blockSize]; rfl
  have hk : off / 1024 < maxBlocks := by
    unfold readLeft at hm
    omega
  have hn : maxReadSize s ino maxLen (readAt off a buffer str)
      = (min (1024 - off % 1024) m : ℕ) := by
    unfold readLeft at hm
    simp only [maxReadSize, readAt, hb, hsize]
    omega
  generalize hbuf : patch buffer 0 1024
    (window s.disk ((dataNode (off / 1024)).sector s.disk ino * 512)) = buf
  -- the bytes that are copied are those of the file
  have hcopy : patch str a (min (1024 - off % 1024) m) (window buf (off % 1024))
      = patch str a (min (1024 - off % 1024) m) (fileFrom s.disk ino off) := by
    apply patch_congr
    intro i hi
    rw [window_apply, ← hbuf, patch_zero_apply (by omega), window_apply, fileFrom, fileByte,
      show (off + i) / 1024 = off / 1024 by omega,
      show (off + i) % 1024 = off % 1024 + i by omega]
  refine ⟨buf, ?_⟩
  simp only [readRound, hn]
  simp only [readAt, Int.toNat_natCast, readBlock_eq hf hk, Option.getD_some, Nat.cast_add, hbuf,
    hcopy]

/-- The loop reads what is left. -/
theorem readLoop_spec (hf : Formatted s) {size : ℕ} (hsize : ino.size = (size : ℤ))
    (hblocks : size ≤ maxBlocks * 1024) (maxLen fuel : ℕ) :
    ∀ (off a : ℕ) (buffer str : Buf), readLeft size maxLen off a ≤ fuel →
      ∃ r, readLoop s ino maxLen fuel (readAt off a buffer str) = r
        ∧ r.offset = (off + readLeft size maxLen off a : ℕ)
        ∧ r.readLen = (a + readLeft size maxLen off a : ℕ)
        ∧ r.str = patch str a (readLeft size maxLen off a) (fileFrom s.disk ino off) := by
  induction fuel with
  | zero =>
    intro off a buffer str hfuel
    rw [Nat.le_zero.mp hfuel]
    exact ⟨_, rfl, rfl, rfl, (patch_nothing _ _ _).symm⟩
  | succ fuel ih =>
    intro off a buffer str hfuel
    generalize hm : readLeft size maxLen off a = m at *
    have hcond : (readAt off a buffer str).readLen < (maxLen : ℤ)
        ∧ (readAt off a buffer str).offset < ino.size ↔ 0 < m := by
      unfold readLeft at hm
      simp only [readAt, hsize]
      omega
    rcases Nat.eq_zero_or_pos m with hzero | hpos
    · rw [readLoop, if_neg (by rw [hcond]; omega)]
      subst hzero
      exact ⟨_, rfl, rfl, rfl, (patch_nothing _ _ _).symm⟩
    · rw [readLoop, if_pos (hcond.mpr hpos)]
      obtain ⟨buffer', hround⟩ := readRound_eq hf hsize hblocks hm hpos buffer str
      rw [hround]
      rcases Nat.lt_or_ge (1024 - off % 1024) m with hmore | hdone
      · -- the block is used up and the loop goes on with the next one
        have hrem := Nat.mod_lt off (show 0 < 1024 by norm_num)
        rw [Nat.min_eq_left hmore.le]
        have hleft : readLeft size maxLen (off + (1024 - off % 1024)) (a + (1024 - off % 1024))
            = m - (1024 - off % 1024) := by
          unfold readLeft at hm ⊢
          omega
        have hnext := ih (off + (1024 - off % 1024)) (a + (1024 - off % 1024)) buffer'
          (patch str a (1024 - off % 1024) (fileFrom s.disk ino off)) (by omega)
        rw [hleft, readAt, ← window_fileFrom, patch_patch, Nat.add_sub_cancel' hmore.le] at hnext
        obtain ⟨r, hr, hoffset, hlen, hstr⟩ := hnext
        refine ⟨r, ?_, ?_, ?_, hstr⟩
        · rw [← hr, show ((off / 1024 : ℕ) : ℤ) + 1 = ((off + (1024 - off % 1024)) / 1024 : ℕ) by
            omega, show (0 : ℤ) = ((off + (1024 - off % 1024)) % 1024 : ℕ) by omega]
        · rw [hoffset]
          congr 1
          omega
        · rw [hlen]
          congr 1
          omega
      · -- that was the last pass
        rw [Nat.min_eq_right hdone]
        have hstop : ¬ (((a + m : ℕ) : ℤ) < (maxLen : ℤ) ∧ ((off + m : ℕ) : ℤ) < ino.size) := by
          unfold readLeft at hm
          rw [hsize]
          omega
        cases fuel with
        | zero => exact ⟨_, rfl, rfl, rfl, rfl⟩
        | succ fuel =>
          rw [readLoop, if_neg hstop]
          exact ⟨_, rfl, rfl, rfl, rfl⟩

/-- `syscall_readfile` on a file that fits in its blocks. -/
theorem syscallReadfile_spec (hf : Formatted s) {fcb : FCB} {fd : ℤ} (hfd : fcb.valid fd)
    (hmode : modeCanRead fcb.flags) (hoff : fcb.offset = (off : ℤ))
    (hload : loadInode s.disk fcb.inodeOffset = ino) {size : ℕ} (hsize : ino.size = (size : ℤ))
    (hblocks : size ≤ maxBlocks * 1024) (maxLen : ℕ) (str buffer : Buf) :
    syscallReadfile s fcb fd str maxLen buffer
      = (((min (size - off) maxLen : ℕ) : ℤ), { fcb with offset := (off + min (size - off) maxLen : ℕ) },
          patch str 0 (min (size - off) maxLen) (fileFrom s.disk ino off)) := by
  rw [syscallReadfile, hfd, hmode, hload, readFrom, hoff]
  simp only [Bool.not_true, Bool.or_self, Bool.false_eq_true, if_false, Int.toNat_natCast, hsize]
  by_cases hend : (size : ℤ) ≤ off
  · rw [if_pos hend, show min (size - off) maxLen = 0 by omega, patch_nothing]
    simp only [Nat.add_zero, Nat.cast_zero, ← hoff]
  · obtain ⟨r, hr, hoffset, hlen, hstr⟩ :=
      readLoop_spec hf hsize hblocks maxLen maxLen off 0 buffer str
        (by unfold readLeft; omega)
    rw [if_neg hend]
    have hstart : (⟨(off : ℤ), (off : ℤ).tdiv s.superBlock.blockSize,
        (off : ℤ).tmod s.superBlock.blockSize, 0, buffer, str⟩ : ReadState)
        = readAt off 0 buffer str := by
      rw [hf.blockSize]
      rfl
    rw [hstart, hr, hoffset, hlen, hstr]
    simp only [readLeft, Nat.sub_zero, Nat.zero_add]

end SeL4Sys
