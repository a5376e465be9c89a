import SeL4Sys.AllocRuns

/-!
# Runs of the inode allocator

`getAvailInode` and `setAllocInode` under the discipline of their callers: an inode is released only
after it was handed out. The search is that of `getAvailBlock`, with the same loop bound, so the runs in
which it does what it owes are those in which it finds a hole near the start of the bitmap.
-/

namespace SeL4Sys

open Bytes Bitmap

namespace InodeRun

open AllocRun

/-- **The inode allocator on whole runs.** From a consistent file system, a run of `getAvailInode` and
of `setAllocInode` on offsets returned before does everything it owes exactly when each `getAvailInode`
is made with a hole near the start of the bitmap. -/
theorem inodeRunOk_iff {s : FS} (h : Consistent .inode s) {ops : List PoolOp}
    (hlegal : (start s).Legal .inode ops) : (start s).RunOk .inode ops ↔ (start s).RunNear .inode ops :=
  (inv_start h).ok_iff_near hlegal

/-- A disk with the first 8000 inodes in use. -/
def packedDisk : Disk := fun p => if 2048 ≤ p ∧ p < 3048 then 0xff else 0

/-- The small disk with its first 8000 inodes in use, and 192 left. -/
def packedInodes : FS := smallFS packedDisk 192 25

theorem packedDisk_bit {n : ℕ} (hn : n < 8192) :
    bit (window packedDisk 2048) n = decide (n < 8000) := by
  have hbyte : window packedDisk 2048 (n / 8) = if n < 8000 then 0xff else 0 := by
    rw [window_apply, packedDisk]
    by_cases h : n < 8000
    · rw [if_pos h, if_pos (by omega)]
    · rw [if_neg h, if_neg (by omega)]
  rw [bit, hbyte]
  by_cases h : n < 8000
  · rw [if_pos h, decide_eq_true h]
    have hk : 7 - n % 8 < 8 := by omega
    interval_cases 7 - n % 8 <;> rfl
  · rw [if_neg h, decide_eq_false h]
    simp

theorem packedInodes_consistent : Consistent .inode packedInodes := by
  have hcount : clearCount (window packedDisk 2048) 8192 + 8000 = 192 + 8000 :=
    clearCount_of_set_below (fun n hn => packedDisk_bit hn) (by norm_num)
  apply smallFS_inode_consistent
  rw [Nat.add_right_cancel hcount]
  norm_num

theorem packedInodes_not_nearHole : ¬ NearHole .inode packedInodes := by
  rintro ⟨i, j, _, _, _, _, hj, hne⟩
  change (j : ℤ) ≤ (192 + 7) / 8 at hj
  apply hne
  exact if_pos (by change 2048 ≤ 4 * 512 + j ∧ 4 * 512 + j < 3048; omega)

/-- Taking two inodes of the empty small disk. -/
theorem inodeRunOk_iff_empty :
    (start (smallFS (fun _ => 0) 8192 25)).RunOk .inode [.get, .get]
      ↔ (start (smallFS (fun _ => 0) 8192 25)).RunNear .inode [.get, .get] := by
  refine inodeRunOk_iff (smallFS_inode_consistent ?_) trivial
  have hcount := clearCount_of_set_below (m := window (fun _ => 0) 2048) (n := 8192) (a := 0)
    (fun n _ => by simp [bit, window_apply]) (Nat.zero_le _)
  omega

/-- The byte loop ends after 24 bytes, all of them full: no bit is set. -/
theorem packedInodes_not_runOk :
    Consistent .inode packedInodes ∧ (start packedInodes).Legal .inode [.get]
      ∧ ¬ (start packedInodes).RunOk .inode [.get] := by
  refine ⟨packedInodes_consistent, trivial, ?_⟩
  intro hrun
  exact packedInodes_not_nearHole ((inv_start packedInodes_consistent).nearHole_of_getOk
    (by decide : (1 : ℤ) ≤ 192) hrun.1)

end InodeRun

end SeL4Sys
