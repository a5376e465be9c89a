import SeL4Sys.EntryAdded

/-!
# A directory that grows

When all slots of a directory are taken, `allocInode` adds a block. The call that should clear the
buffer, `memset(buffer, superBlock->blockSize, 0)`, clears nothing, so the new block is written
with the entries of the last block that was read: all of them but the first are in the directory
twice.
-/

namespace SeL4Sys

open Bytes Bitmap CString Loop

variable {s s' : FS} {o x : ℕ} {c : List UInt8} {W : Set Region}

/-- The loop of `allocInode` in a full directory ends with the last block in the buffer. -/
theorem scanDir_full {ino : Inode} (hf : Formatted s) (hdir : DirOk s.disk ino)
    (hc : ∀ x ∈ c, x ≠ 0) (hnone : firstBegins s.disk ino c = none)
    (hfull : ∀ t, t < slots ino → slotInode s.disk ino t ≠ 0) (hpos : 0 < ino.blocks) (buffer : Buf) :
    ∃ b, scanDir s ino (stopsAlloc c) buffer = .missing b ∧ Holds s.disk ino (ino.blocks - 1) b := by
  have hspec := scanDir_spec hf hdir.count (fun t ht b hb => stopsAlloc_eq hdir hc ht hb) buffer
  cases hscan : scanDir s ino (stopsAlloc c) buffer with
  | failed =>
    rw [hscan] at hspec
    cases hspec
  | found i j b =>
    rw [hscan] at hspec
    cases hspec with
    | found t _ ht hgood _ _ =>
      rw [beginsWith_eq_false hnone ht, Bool.or_false, decide_eq_true_eq] at hgood
      exact absurd hgood (hfull t ht)
  | missing b =>
    rw [hscan] at hspec
    cases hspec with
    | missing _ _ hlast _ => exact ⟨b, rfl, hlast hpos⟩

/-- What `allocInode` leaves of a full directory: one block more, whose entries but the first are
those of the block before it. -/
structure GrownDir (s s' : FS) (o : ℕ) : Prop where
  formatted : Formatted s'
  sectorNum : s'.superBlock.sectorNum = s.superBlock.sectorNum
  type : (loadInode s'.disk o).type = (loadInode s.disk o).type
  blocks : (loadInode s'.disk o).blocks = (loadInode s.disk o).blocks + 1
  old : ∀ t, t < slots (loadInode s.disk o) → ∀ i, i < 128 →
    fileFrom s'.disk (loadInode s'.disk o) (128 * t) i = fileFrom s.disk (loadInode s.disk o) (128 * t) i
  copied : ∀ j, 1 ≤ j → j < 8 → ∀ i, i < 128 →
    fileFrom s'.disk (loadInode s'.disk o) (128 * (8 * (loadInode s.disk o).blocks + j)) i
      = fileFrom s.disk (loadInode s.disk o) (128 * (8 * ((loadInode s.disk o).blocks - 1) + j)) i

theorem allocInode_full (h : FsOk s) (ho : s.InUse o) (hdir : IsDir s.disk o)
    (hfull : ∀ t, t < slots (loadInode s.disk o) → slotInode s.disk (loadInode s.disk o) t ≠ 0)
    (hpos : 0 < (loadInode s.disk o).blocks)
    (hget : GetsFreeFor s (newLevels (loadInode s.disk o).blocks + 1))
    (havail : (newLevels (loadInode s.disk o).blocks : ℤ) + 1 ≤ s.superBlock.availBlockNum)
    (hnear : NearHole .inode s) (hc : IsName c)
    (hnone : firstBegins s.disk (loadInode s.disk o) c = none) (type : ℤ)
    (htype : FitsInt 2 type) (dest : Inode) (destOffset : ℕ) (buffer : Buf) (stack : ℕ → Buf) :
    ∃ x s' father dest', allocInode s (loadInode s.disk o) o dest destOffset c type buffer stack
      = ⟨0, s', father, dest', x⟩ ∧ GrownDir s s' o := by
  have hne : s.superBlock.availInodeNum ≠ 0 := (h.inodes.hits_of_nearHole hnear).avail
  obtain ⟨b, hscan, hb⟩ := scanDir_full h.inodes.formatted (h.dirOk ho hdir) hc.no_zero hnone hfull hpos
    buffer
  obtain ⟨x, s', father, dest', hrun, hadd⟩ := allocInode_grows h ho ⟨fun _ => hnear, fun _ _ => hget⟩ htype
    hc.ne_nil hne havail hscan dest destOffset stack
  refine ⟨x, s', father, dest', hrun, ?_⟩
  exact
    { formatted := hadd.formatted
      sectorNum := hadd.sectorNum
      type := hadd.type
      blocks := by
        rw [hadd.blocks]
        omega
      old := fun t ht i hi => by
        unfold slots at ht
        rw [fileFrom, fileFrom, hadd.old _ (by omega) (by omega)]
      copied := fun j hj hj' i hi => by
        have hnew := hadd.block.dirEntry_eq (t := 8 * (loadInode s.disk o).blocks + j) (by omega) hi
        have hold := hb.dirEntry_eq (t := 8 * ((loadInode s.disk o).blocks - 1) + j) (by omega) hi
        rw [show (8 * (loadInode s.disk o).blocks + j) % 8 = j by omega,
          dirEntry_setEntry_of_ne (by omega) hi] at hnew
        rw [show (8 * ((loadInode s.disk o).blocks - 1) + j) % 8 = j by omega] at hold
        rw [← hnew, hold] }

/-- A root directory that grew has two entries of the same name. -/
theorem GrownDir.not_linked (h : FsOk s) (hgrown : GrownDir s s' s.rootOffset)
    (hfull : ∀ t, t < slots (loadInode s.disk s.rootOffset) →
      slotInode s.disk (loadInode s.disk s.rootOffset) t ≠ 0)
    (hpos : 0 < (loadInode s.disk s.rootOffset).blocks) : ¬ Linked s' := by
  intro hlinked
  have hroot : s'.rootOffset = s.rootOffset := by
    rw [rootOffset_eq h.inodes.formatted, rootOffset_eq hgrown.formatted, hgrown.sectorNum]
  have hreach : Reachable s' s.rootOffset := by
    refine ⟨?_, [], hroot⟩
    rw [IsDir, hgrown.type]
    exact h.root_isDir
  generalize s.rootOffset = o at *
  generalize hn : (loadInode s.disk o).blocks = n at *
  have hslots : slots (loadInode s.disk o) = 8 * n := by rw [slots, hn]
  have hslots' : slots (loadInode s'.disk o) = 8 * (n + 1) := by rw [slots, hgrown.blocks, hn]
  have hcopied := hgrown.copied 1 le_rfl (by norm_num)
  rw [hn] at hcopied
  have hold := hgrown.old (8 * (n - 1) + 1) (by omega)
  have hlive := hfull (8 * (n - 1) + 1) (by omega)
  have heq := hlinked.distinct o (8 * (n - 1) + 1) (8 * n + 1) hreach
    ⟨by omega, by rwa [slotInode_congr hold]⟩ ?_ ?_
  · omega
  · refine ⟨by omega, ?_⟩
    rw [slotInode, entryInode_congr hcopied]
    exact hlive
  · rw [slotName_congr hold, slotName, slotName, entryString_congr hcopied]

/-! ## The ninth file of a directory -/

/-- A name that none of the files has. -/
theorem dirFS_firstBegins {k : ℕ} (hk : k ≤ 8) (hnames : ∀ t, t < k → ¬ c <+: [UInt8.ofNat (97 + t)]) :
    firstBegins (dirFS k).disk (loadInode (dirFS k).disk 4096) c = none := by
  rw [dirFS, smallFS_disk, dirDisk_root, firstBegins, breakIndex_eq_bound, if_neg (lt_irrefl _)]
  intro t ht
  rw [show slots oneBlockDir = 8 from rfl] at ht
  rw [beginsWith, decide_eq_false_iff_not]
  rintro ⟨hlive, hbegins⟩
  have htk : t < k := (dirDisk_live hk).mp ⟨ht, hlive⟩
  rw [dirDisk_slotName hk htk] at hbegins
  exact hnames t htk hbegins

theorem dirFS_blocks (k : ℕ) : Consistent .block (dirFS k) := by
  have hcount : clearCount (window (dirDisk k) 3072) 25 + 1 = 25 := by
    apply clearCount_of_set_below
    · intro i hi
      rw [bit_congr (dirDisk_blockBitmap k (by omega)), setBelow_bit (by norm_num)]
    · norm_num
  exact smallFS_consistent (by omega)

/-- One block of the small disk is taken and the next one is found. -/
theorem dirFS_hits (k : ℕ) : Hits .block (dirFS k) := by
  refine (dirFS_blocks k).hits_of_nearHole ?_
  rw [dirFS, smallFS_nearHole_iff (by norm_num)]
  have hdisk := dirDisk_blockBitmap k (show 1 < 1024 by norm_num)
  rw [window_apply] at hdisk
  exact ⟨1, by norm_num, by norm_num, by rw [hdisk]; decide⟩

theorem dirFS_getsFree (k : ℕ) : GetsFreeFor (dirFS k) 1 := by
  intro j hj
  rw [show j = 0 by omega, FS.takes, getsFree_iff (dirFS_blocks k).formatted]
  exact dirFS_hits k

theorem dirFS_rootBlocks (k : ℕ) : (loadInode (dirFS k).disk (dirFS k).rootOffset).blocks = 1 := by
  rw [dirFS_root]
  rfl

/-- Eight files fill the block. -/
theorem dirFS_full : ∀ t, t < slots (loadInode (dirFS 8).disk (dirFS 8).rootOffset) →
    slotInode (dirFS 8).disk (loadInode (dirFS 8).disk (dirFS 8).rootOffset) t ≠ 0 := by
  intro t ht
  rw [dirFS_root] at ht ⊢
  have hlive : Live (dirDisk 8) oneBlockDir t := (dirDisk_live le_rfl).mpr ht
  rw [dirFS, smallFS_disk]
  exact hlive.2

/-- The root directory holds the files `a` to `h`, which fill its block. Creating `/i` leaves it with
two entries named `b`. -/
theorem ninth_file_not_linked :
    FsOk (dirFS 8) ∧ ∃ s', runDir (dirFS 8) [.open ⟨[slash, 105], no_zero_of_all rfl⟩ 64 zeroLocals] = some s'
      ∧ ¬ Linked s' := by
  have h : FsOk (dirFS 8) := dirFS_ok le_rfl
  refine ⟨h, ?_⟩
  have hname : IsName [105] := ⟨by decide, by decide, no_zero_of_all rfl⟩
  have hfirst := dirFS_firstBegins (c := [105]) (le_refl 8) (by decide)
  have hfull := dirFS_full
  have hblocks := dirFS_rootBlocks 8
  obtain ⟨dest, hopen⟩ := syscallOpen_create h [] (by simp) hname (no_zero_of_all rfl)
    (passesNoFile_entry h.root_isDir (by decide)) (fun o hleads => by
      rw [absPath_nil, List.nil_append, leads_last_iff hname, dirFS_rootOffset, hfirst] at hleads
      cases hleads) (by decide) 64 (by decide) (by decide) zeroLocals
  have hget := dirFS_getsFree 8
  obtain ⟨x, s', fa, de, hrun, hgrown⟩ := allocInode_full h h.tree.root_used h.root_isDir hfull
    (by rw [hblocks]; norm_num) (by rw [hblocks]; exact hget)
    (by rw [hblocks]; decide) (dirFS_nearHole le_rfl) hname
    (by rw [dirFS_rootOffset]; exact hfirst) regularType (by norm_num [FitsInt])
    dest.destInode dest.inodeOffset zeroLocals.dirBuffer zeroLocals.stack
  refine ⟨s', ?_, hgrown.not_linked h hfull (by rw [hblocks]; norm_num)⟩
  have hmode : (if isDirMode 64 = true then directoryType else regularType) = regularType := by decide
  rw [absPath_nil, List.nil_append, walk, Option.elim_some, hmode] at hopen
  simp only [hrun, if_true] at hopen
  rw [runDir, execDir, hopen]
  rfl

end SeL4Sys
