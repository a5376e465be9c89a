import SeL4Sys.DirRuns

/-!
# Failed creation and removal

`freeInode` makes all its checks before it changes anything. `allocInode` has added a block to the
directory when it asks for an inode and writes the block: there neither can fail any more, since
the number of available inodes was tested at the start and `allocBlock` leaves it alone, and the
block that is written is one the directory has.
-/

namespace SeL4Sys

open Bytes CString Loop

variable {s : FS} {ino father : Inode}

/-! ## The searches -/

/-- A block at which the search over the entries stops is one that it was given. -/
theorem scanEntries_found_lt {test : Buf → Bool} {k j : ℕ} {b' : Buf} (n : ℕ) :
    ∀ i b, scanEntries s ino test n i b = .found k j b' → k < i + n := by
  induction n with
  | zero =>
    intro i b h
    rw [scanEntries] at h
    cases h
  | succ n ih =>
    intro i b h
    rw [scanEntries] at h
    cases hread : readBlock s ino i b with
    | none =>
      rw [hread] at h
      cases h
    | some buffer =>
      rw [hread] at h
      simp only [Option.elim_some] at h
      split at h
      · cases h
        omega
      · have := ih _ _ h
        omega

theorem scanDir_found_lt {test : Buf → Bool} {k j : ℕ} {b b' : Buf}
    (h : scanDir s ino test b = .found k j b') : (k : ℤ) < ino.blockCount := by
  have := scanEntries_found_lt _ _ _ h
  omega

/-- `getAvailInode` fails only when no inode is available. -/
theorem getAvailInode_eq_some (h : s.superBlock.availInodeNum ≠ 0) :
    ∃ o, getAvailInode s = some (taken .inode s, o) := by
  have hget : getAvail .inode s = some (taken .inode s) := if_neg h
  rw [getAvailInode, hget]
  exact ⟨_, rfl⟩

/-! ## The end of the creation -/

/-- With an inode available and the block in reach, the entry is added. -/
theorem addEntry_ret (hf : Formatted s) (havail : s.superBlock.availInodeNum ≠ 0) {i : ℕ}
    (hi : i < maxBlocks) (o : ℕ) (dest : Inode) (destOffset : ℕ) (name : List UInt8) (type : ℤ)
    (j : ℕ) (b : Buf) : (addEntry s father o dest destOffset name type i j b).ret = 0 := by
  have ⟨_, hget⟩ := getAvailInode_eq_some havail
  rw [addEntry, hget]
  simp only [Option.elim_some]
  rw [writeBlock_eq (taken_formatted hf) hi]
  rfl

/-- Every exit of `allocInode` after its search is made with nothing changed, or returns 0. -/
theorem allocInode_unchanged (hf : Formatted s) (hnonneg : 0 ≤ father.blockCount)
    (hcount : father.blockCount < s.superBlock.bound3) {o : ℕ} {dest : Inode} {destOffset : ℕ}
    {name : List UInt8} {type : ℤ} {b : Buf} {stack : ℕ → Buf}
    (hret : (allocInode s father o dest destOffset name type b stack).ret = -1) :
    (allocInode s father o dest destOffset name type b stack).fs = s
      ∧ (allocInode s father o dest destOffset name type b stack).fatherInode = father := by
  rw [hf.bound3] at hcount
  unfold allocInode at hret ⊢
  by_cases hname : name = []
  · rw [if_pos hname]
    exact ⟨rfl, rfl⟩
  rw [if_neg hname] at hret ⊢
  by_cases havail : s.superBlock.availInodeNum = 0
  · rw [if_pos havail]
    exact ⟨rfl, rfl⟩
  rw [if_neg havail] at hret ⊢
  cases hscan : scanDir s father (stopsAlloc name) b with
  | failed => exact ⟨rfl, rfl⟩
  | found i j b' =>
    rw [hscan] at hret
    simp only at hret ⊢
    by_cases hlive : entryInode (dirEntry b' j) ≠ 0
    · rw [if_pos hlive]
      exact ⟨rfl, rfl⟩
    -- The entry is empty: it is in a block of the directory, so the rest cannot fail.
    have hi := scanDir_found_lt hscan
    rw [if_neg hlive, addEntry_ret hf havail (by omega)] at hret
    cases hret
  | missing b' =>
    rw [hscan] at hret
    simp only at hret ⊢
    cases halloc : allocBlock s father o stack with
    | none => exact ⟨rfl, rfl⟩
    | some q =>
      -- The directory has grown: the inode counter is the one tested at the start.
      have ⟨hf', _, hsame⟩ := allocBlock_count hf (Int.toNat_of_nonneg hnonneg).symm (by omega) halloc
      have havail' : q.1.superBlock.availInodeNum ≠ 0 := by
        intro h
        exact havail (hsame.superBlock.symm.trans h)
      rw [halloc] at hret
      simp only [Option.elim_some] at hret
      rw [addEntry_ret hf' havail' (by omega)] at hret
      cases hret

/-- Every exit of `freeInode` that reports a failure comes before its first change. -/
theorem freeInode_unchanged {dest : Inode} {destOffset : ℕ} {name : List UInt8} {type : ℤ}
    {b tmpName dirBuffer : Buf}
    (hret : (freeInode s father dest destOffset name type b tmpName dirBuffer).ret = -1) :
    (freeInode s father dest destOffset name type b tmpName dirBuffer).fs = s
      ∧ (freeInode s father dest destOffset name type b tmpName dirBuffer).fatherInode = father := by
  unfold freeInode at hret ⊢
  by_cases hname : name = []
  · rw [if_pos hname]
    exact ⟨rfl, rfl⟩
  rw [if_neg hname] at hret ⊢
  cases hscan : scanDir s father (matchesName name name.length) b with
  | failed => exact ⟨rfl, rfl⟩
  | missing b' => exact ⟨rfl, rfl⟩
  | found i j b' =>
    rw [hscan] at hret
    simp only at hret ⊢
    split
    · exact ⟨rfl, rfl⟩
    · split
      · exact ⟨rfl, rfl⟩
      · rw [if_neg ‹_›, if_neg ‹_›] at hret
        cases hret

/-! ## Both calls -/

/-- A call of `allocInode` or `freeInode` that returns `-1` has changed neither the file system nor
the inode of the directory. -/
theorem failed_call_unchanged {s : FS} (hf : Formatted s) {father : Inode}
    (hnonneg : 0 ≤ father.blockCount) (hcount : father.blockCount < s.superBlock.bound3)
    (fatherOffset : ℕ) (dest : Inode) (destOffset : ℕ) (name : List UInt8) (type : ℤ)
    (buffer tmpName dirBuffer : Buf) (stack : ℕ → Buf) :
    let alloc := allocInode s father fatherOffset dest destOffset name type buffer stack
    let free := freeInode s father dest destOffset name type buffer tmpName dirBuffer
    (alloc.ret = -1 → alloc.fs = s ∧ alloc.fatherInode = father)
      ∧ (free.ret = -1 → free.fs = s ∧ free.fatherInode = father) :=
  ⟨allocInode_unchanged hf hnonneg hcount, freeInode_unchanged⟩

/-- A second file `a` is not created in the directory with the file `a`, and that file is not removed
as a directory. -/
theorem failed_call_unchanged_a :
    let s := dirFS 1
    let r := allocInode s oneBlockDir 4096 Files.emptyFile 0 [97] regularType (fun _ => 0)
      (fun _ _ => 0)
    let r' := freeInode s oneBlockDir Files.emptyFile 0 [97] directoryType (fun _ => 0) (fun _ => 0)
      (fun _ => 0)
    r.ret = -1 ∧ r'.ret = -1 ∧ r.fs = s ∧ r'.fs = s := by
  have hr : (allocInode (dirFS 1) oneBlockDir 4096 Files.emptyFile 0 [97] regularType (fun _ => 0)
      fun _ _ => 0).ret = -1 := by decide +kernel
  have hr' : (freeInode (dirFS 1) oneBlockDir Files.emptyFile 0 [97] directoryType (fun _ => 0)
      (fun _ => 0) fun _ => 0).ret = -1 := by decide +kernel
  have h := failed_call_unchanged (s := dirFS 1) (smallFS_formatted _ _ _)
    (by decide : 0 ≤ oneBlockDir.blockCount) (by decide) 4096 Files.emptyFile 0 [97]
  exact ⟨hr, hr', ((h regularType (fun _ => 0) (fun _ => 0) (fun _ => 0) fun _ _ => 0).1 hr).1,
    ((h directoryType (fun _ => 0) (fun _ => 0) (fun _ => 0) fun _ _ => 0).2 hr').1⟩

end SeL4Sys
