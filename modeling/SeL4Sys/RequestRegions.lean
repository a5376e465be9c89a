import SeL4Sys.FileWrite
import SeL4Sys.Paths
import SeL4Sys.StepRegions

/-!
# Lookups and writes in place

The regions that lookups and writes use. A lookup that passes no file reads directories, and the
inode that the path leads to. A write that needs no new block reads and writes the inode and the
blocks of its file.
-/

namespace SeL4Sys

open Bytes CString Interleave Function

variable {S : ℕ} {R W : Set Region} {s s' : FS} {o o' : ℕ}

/-- The inode at `o` and its blocks. -/
def inodeRegions (s : FS) (o : ℕ) : Set Region :=
  {q | q ∈ slotRegion s.superBlock.sectorNum o
    ∨ ∃ n : Node, n.Live (loadInode s.disk o).blocks
      ∧ q ∈ blockRegion s.superBlock.sectorNum (n.sector s.disk (loadInode s.disk o))}

/-- The inodes and blocks of all directories. -/
def dirRegions (s : FS) : Set Region :=
  {q | ∃ y, s.InUse y ∧ IsDir s.disk y ∧ q ∈ inodeRegions s y}

theorem slotRegion_subset (s : FS) (o : ℕ) :
    slotRegion s.superBlock.sectorNum o ⊆ inodeRegions s o := fun _ hq => .inl hq

section
variable (h : FsOk s)
include h

theorem FsOk.blocksIn (ho : s.InUse o) (hR : inodeRegions s o ⊆ R) :
    BlocksIn s.superBlock.sectorNum R s.disk (loadInode s.disk o) := by
  intro n hn
  refine ⟨h.owned.isData ho hn, ?_⟩
  intro q hq
  exact hR (.inr ⟨n, hn, hq⟩)

/-- Two files have no inode and no block in common. -/
theorem FsOk.disjoint_inodeRegions (ho : s.InUse o) (ho' : s.InUse o') (hne : o ≠ o') :
    Disjoint (inodeRegions s o) (inodeRegions s o') := by
  rw [Set.disjoint_left]
  intro q hq hq'
  cases hq with
  | inl hslot =>
    cases hq' with
    | inl hslot' => exact Set.disjoint_left.mp (disjoint_slots hne) hslot hslot'
    | inr hblock =>
      have ⟨n, _, hblock⟩ := hblock
      exact Set.disjoint_left.mp (disjoint_slot_block _ _ _) hslot hblock
  | inr hblock =>
    have ⟨n, hn, hblock⟩ := hblock
    cases hq' with
    | inl hslot => exact Set.disjoint_left.mp (disjoint_block_slot _ _ _) hblock hslot
    | inr hblock' =>
      have ⟨m, hm, hblock'⟩ := hblock'
      have hsector : n.sector s.disk (loadInode s.disk o) ≠ m.sector s.disk (loadInode s.disk o') :=
        fun heq => hne (h.owned.inj o o' ho ho' n m hn hm heq).1
      exact Set.disjoint_left.mp (disjoint_blocks hsector) hblock hblock'

/-- A file that is no directory has nothing in common with directories. -/
theorem FsOk.disjoint_dirRegions (ho : s.InUse o) (hfile : ¬ IsDir s.disk o) :
    Disjoint (inodeRegions s o) (dirRegions s) := by
  rw [Set.disjoint_left]
  intro q hq hdir
  have ⟨y, hy, hydir, hqy⟩ := hdir
  have hne : o ≠ y := by
    intro heq
    exact hfile (heq ▸ hydir)
  exact Set.disjoint_left.mp (h.disjoint_inodeRegions ho hy hne) hq hqy

end

namespace Steps

/-! ## Lookups -/

section
variable {ino : Inode} (hf : Formatted s) (hR : BlocksIn S R s.disk ino)
include hf hR

theorem only_scanEntries (hcount : ino.blocks ≤ maxBlocks) (test : Buf → Bool) (n : ℕ) :
    ∀ (i : ℕ) (buffer : Buf), i + n ≤ ino.blocks →
      Only (FsOp.Within S R W) (scanEntries ino test n i buffer) s := by
  induction n with
  | zero =>
    intro i buffer _
    exact only_pure
  | succ n ih =>
    intro i buffer hi
    rw [scanEntries]
    apply Only.sBlock_bind
    apply Only.bind (only_readBlock hf hR (by omega) (by omega) buffer) (alone_readBlock _ _ _ _)
    cases SeL4Sys.readBlock s ino i buffer with
    | none => exact only_pure
    | some buffer' =>
      dsimp only
      split_ifs
      · exact only_pure
      · exact ih (i + 1) buffer' (by omega)

theorem only_scanDir (hcount : ino.blocks ≤ maxBlocks) (test : Buf → Bool) (buffer : Buf) :
    Only (FsOp.Within S R W) (scanDir ino test buffer) s :=
  only_scanEntries hf hR hcount test _ 0 buffer (by rw [Inode.blocks, Nat.zero_add])

end

section
variable (h : FsOk s) (hdirs : dirRegions s ⊆ R)
include h hdirs

/-- The blocks of a directory may be searched. -/
theorem only_scanDir_of_isDir (ho : s.InUse o) (hdir : IsDir s.disk o) (test : Buf → Bool)
    (buffer : Buf) :
    Only (FsOp.Within s.superBlock.sectorNum R W) (scanDir (SeL4Sys.loadInode s.disk o) test buffer)
      s := by
  apply only_scanDir h.inodes.formatted _ (h.owned.blocks_le ho)
  apply h.blocksIn ho
  intro q hq
  exact hdirs ⟨o, ho, hdir, hq⟩

/-- The loop reads directories and the inode that the string leads to. The induction is on the
passes that are left, as in `lookupLoop_finds`. -/
theorem only_lookupLoop (n : ℕ) :
    ∀ (o : ℕ) (r : List UInt8) (buffer : Buf), s.InUse o → (∀ x ∈ r, x ≠ 0) →
      PassesNoFile s.disk o (slash :: r) →
      (∀ o', Leads s.disk o (slash :: r) o' → slotRegion s.superBlock.sectorNum o' ⊆ R) →
      Only (FsOp.Within s.superBlock.sectorNum R W)
        (lookupLoop n r o (SeL4Sys.loadInode s.disk o) buffer) s := by
  have hf := h.inodes.formatted
  induction n with
  | zero =>
    intro o r buffer _ _ _ _
    cases r with
    | nil => exact only_pure
    | cons b bs => exact only_pure
  | succ n ih =>
    intro o r buffer ho hzero hpass hlast
    have hdir := hpass.isDir
    have hdirOk := h.dirOk ho hdir
    by_cases hr : r = []
    · subst hr
      exact only_pure
    have ⟨b, bs, hcons⟩ := List.exists_cons_of_ne_nil hr
    rcases split_slash hzero hr with ⟨r', hr'⟩ | hname | ⟨c, r', hc, hr'⟩
    · -- two separators in a row
      subst hr'
      rw [lookupLoop]
      simp only [stringChr, ↓reduceIte, and_self]
      exact only_pure
    · -- the last component
      have hchr := stringChr_of_notMem hname.no_slash
      have hscan := scanDir_firstBegins hf hdirOk hname.no_zero (List.prefix_refl r) buffer
      rw [hcons] at hchr ⊢
      rw [lookupLoop]
      simp only [hchr]
      rw [if_neg (by simp), if_neg (by simp), ← hcons]
      apply Only.bind (only_scanDir_of_isDir h hdirs ho hdir _ _) (alone_scanDir _ _ _ _)
      rcases hscan with ⟨i, j, b', hscan, hfirst⟩ | ⟨b', hscan, hfirst⟩
      · rw [hscan]
        have hslot := (h.inUse_firstBegins ho hdir hfirst).isSlot
        apply Only.bind (only_loadInode hslot (hlast _ ((leads_last_iff hname).mpr hfirst))) rfl
        rw [if_neg (by norm_num)]
        exact only_pure
      · rw [hscan]
        exact only_pure
    · -- a component that a separator follows
      have hchr := stringChr_append hc.no_slash r'
      have hscan := scanDir_firstBegins hf hdirOk hc.no_zero (List.prefix_append c (slash :: r'))
        buffer
      have hlen : ¬ c.length = 0 := by simpa using hc.ne_nil
      have hdrop : (c ++ slash :: r').drop (c.length + 1) = r' := by
        rw [List.drop_append]
        simp
      rw [← hr', hcons] at hchr
      rw [hcons, lookupLoop]
      simp only [hchr]
      rw [if_neg (fun h => hlen h.2), if_neg (fun h => hdir h.2), ← hcons, hr', hdrop]
      apply Only.bind (only_scanDir_of_isDir h hdirs ho hdir _ _) (alone_scanDir _ _ _ _)
      rcases hscan with ⟨i, j, b', hscan, hfirst⟩ | ⟨b', hscan, hfirst⟩
      · rw [hscan]
        rw [hr'] at hpass hlast
        have hused := h.inUse_firstBegins ho hdir hfirst
        have hnext := hpass.tail hc hfirst
        -- what a separator follows is a directory again
        have hslot : slotRegion s.superBlock.sectorNum (entryInode (dirEntry b' j)) ⊆ R := by
          intro q hq
          exact hdirs ⟨_, hused, hnext.isDir, .inl hq⟩
        apply Only.bind (only_loadInode hused.isSlot hslot) (alone_loadInode _ _)
        rw [if_pos trivial]
        apply ih _ r' b' hused _ hnext
        · intro o' ho'
          exact hlast o' ((leads_more_iff hc).mpr ⟨_, hfirst, ho'⟩)
        · intro x hx
          exact hzero x (by rw [hr']; simp [hx])
      · rw [hscan]
        exact only_pure

/-- `readInode` reads directories and the inode that the path leads to. -/
theorem only_readInode {p : List UInt8} (hp : ∀ x ∈ p, x ≠ 0)
    (hpass : PassesNoFile s.disk s.rootOffset p)
    (hlast : ∀ o', Leads s.disk s.rootOffset p o' → slotRegion s.superBlock.sectorNum o' ⊆ R)
    (destInode : Inode) (buffer : Buf) :
    Only (FsOp.Within s.superBlock.sectorNum R W) (readInode destInode p buffer) s := by
  rw [readInode]
  by_cases hnil : p = []
  · rw [if_pos hnil]
    exact only_pure
  rw [if_neg hnil]
  obtain ⟨b, r, hcons⟩ := List.exists_cons_of_ne_nil hnil
  by_cases hb : b = slash
  · subst hb
    subst hcons
    have hchr : stringChr (slash :: r) slash = (0, 0) := by simp [stringChr]
    simp only [hchr]
    rw [if_neg (by norm_num)]
    have hroot := h.tree.root_used
    -- the root is a directory of the path too
    have hslot : slotRegion s.superBlock.sectorNum s.rootOffset ⊆ R := by
      intro q hq
      exact hdirs ⟨_, hroot, hpass.isDir, .inl hq⟩
    have hdesc : Only (FsOp.Within s.superBlock.sectorNum R W) (gDesc 0) s := only_perform trivial
    apply Only.bind hdesc (alone_gDesc _ _)
    apply Only.bind (only_loadInode hroot.isSlot hslot) (alone_loadInode _ _)
    exact only_lookupLoop h hdirs _ _ r buffer hroot (fun x hx => hp x (List.mem_cons_of_mem _ hx))
      hpass hlast
  · have hchr : ¬ (stringChr p slash).2 = 0 ∨ (stringChr p slash).1 = -1 := by
      subst hcons
      simp [stringChr, Ne.symm hb]
    rw [if_pos hchr.symm]
    exact only_pure

end

/-! ## Writes in place -/

section
variable {ι : Type*} [DecidableEq ι] {P : ι → Prop} {I : ι → Inode} {x : ι} {off m : ℕ} {str : Buf}
  {ino : Inode}

/-- Writing inside the blocks of a file leaves its blocks where they are. -/
theorem blocksIn_of_written (hx : P x) (h : Written s s' P I x o off m str ino)
    (hfit : off + m ≤ (I x).blocks * 1024) (hW : BlocksIn S W s.disk (I x)) :
    ino.blocks = (I x).blocks ∧ BlocksIn S W s'.disk ino := by
  have hcount : ino.blocks = (I x).blocks := by
    rw [h.count]
    omega
  refine ⟨hcount, ?_⟩
  intro n hn
  rw [hcount] at hn
  have hsector := h.sector x hx n hn
  rw [update_self] at hsector
  rw [hsector]
  exact hW n hn

theorem only_writeChunk (hf : Formatted s) (hW : BlocksIn S W s.disk ino) (hk : off / 1024 < ino.blocks)
    (hcount : ino.blocks ≤ maxBlocks) (str : Buf) (len : ℤ) (a : ℕ) (buffer : Buf) :
    Only (FsOp.Within S W W) (writeChunk str len (.of (writeAt s ino off a buffer))) s := by
  rw [writeChunk]
  apply Only.sBlock_bind
  apply Only.bind (only_readBlock hf hW (lt_of_lt_of_le hk hcount) hk _) (alone_readBlock _ _ _ _)
  exact Only.bind (only_writeBlock hf hW hW (lt_of_lt_of_le hk hcount) hk _) rfl only_pure

/-- A pass of the loop that finds its block allocated. -/
theorem writeRound_eq (hk : off / 1024 < ino.blocks) (str : Buf) (len : ℤ) (a : ℕ) (buffer : Buf)
    (stack : ℕ → Buf) :
    writeRound o str len stack (.of (writeAt s ino off a buffer))
      = some <$> writeChunk str len (.of (writeAt s ino off a buffer)) := by
  rw [writeRound, if_neg]
  show ¬ ino.blockCount ≤ ((off / 1024 : ℕ) : ℤ)
  rw [Inode.blocks] at hk
  omega

/-- The loop has stayed inside the file: its accesses, and what it leaves for the rest of the
call. -/
structure LoopInPlace (S : ℕ) (W : Set Region) (p : Steps (Option WriteVars)) (s : FS) (c : ℕ) :
    Prop where
  only : Only (FsOp.Within S W W) p s
  ends : ∃ w : WriteState, p.alone s = (w.fs, some (.of w)) ∧ Formatted w.fs ∧ w.inode.blocks = c
    ∧ BlocksIn S W w.fs.disk w.inode

theorem loopInPlace_pure (w : WriteState) (hf : Formatted w.fs)
    (hW : BlocksIn S W w.fs.disk w.inode) :
    LoopInPlace S W (pure (some (.of w))) w.fs w.inode.blocks where
  only := only_pure
  ends := ⟨w, rfl, hf, rfl, hW⟩

/-- The loop stays inside the file when its blocks are enough. The induction is on the passes; a
pass leaves the blocks where they are. -/
theorem writeLoop_inPlace (hx : P x) (str : Buf) (len : ℤ) (stack : ℕ → ℕ → Buf) (fuel : ℕ) :
    ∀ (s : FS) (I : ι → Inode) (off a m : ℕ) (buffer : Buf), Formatted s → Owned s P I →
      BlocksIn S W s.disk (I x) → off + m ≤ (I x).blocks * 1024 → len = (a + m : ℕ) →
      LoopInPlace S W (writeLoop o str len stack fuel (.of (writeAt s (I x) off a buffer))) s
        (I x).blocks := by
  induction fuel with
  | zero =>
    intro s I off a m buffer hf _ hW _ _
    exact loopInPlace_pure (writeAt s (I x) off a buffer) hf hW
  | succ fuel ih =>
    intro s I off a m buffer hf hown hW hfit hlen
    rw [writeLoop]
    by_cases hm : m = 0
    · have hstop : ¬ (WriteVars.of (writeAt s (I x) off a buffer)).writeLen < len := by
        show ¬ (a : ℤ) < len
        omega
      rw [if_neg hstop]
      exact loopInPlace_pure (writeAt s (I x) off a buffer) hf hW
    obtain ⟨hle, hle'⟩ := chunkSize_le off m
    have hpos : 0 < m := Nat.pos_of_ne_zero hm
    have hstart : (WriteVars.of (writeAt s (I x) off a buffer)).writeLen < len := by
      show (a : ℤ) < len
      omega
    have hk : off / 1024 < (I x).blocks := by omega
    obtain ⟨w, hchunk, hend, hwritten⟩ := writeChunk_spec (o := o) hf hown hx hpos hk str a buffer
    rw [← hlen] at hchunk
    obtain ⟨hcount, hW'⟩ := blocksIn_of_written hx hwritten (by omega) hW
    have hrun : (writeChunk str len (.of (writeAt s (I x) off a buffer))).alone s
        = (w.fs, .of w) := by
      rw [alone_writeChunk]
      show ((SeL4Sys.writeChunk str len (writeAt s (I x) off a buffer)).fs,
        WriteVars.of (SeL4Sys.writeChunk str len (writeAt s (I x) off a buffer))) = _
      rw [hchunk]
    have hround : (some <$> writeChunk str len (.of (writeAt s (I x) off a buffer))).alone s
        = (w.fs, some (.of w)) := by
      rw [alone_map, hrun]
    have honly := only_writeChunk hf hW hk (hown.blocks_le hx) str len a buffer
    -- what remains to be done after this pass
    have hrest : LoopInPlace S W (writeLoop o str len stack fuel (.of w)) w.fs (I x).blocks := by
      rcases Nat.lt_or_eq_of_le hle with hmore | hdone
      · -- the block is full and the loop goes on with the next one
        have hfull : chunkSize off m = 1024 - off % 1024 := by
          unfold chunkSize at hmore ⊢
          omega
        have hupd : update I x w.inode x = w.inode := update_self ..
        have hnext := ih w.fs (update I x w.inode) (off + chunkSize off m)
          (a + chunkSize off m) (m - chunkSize off m) w.buffer hwritten.formatted hwritten.owned
        rw [hupd, ← hend.next hfull, hcount] at hnext
        exact hnext hW' (by omega) (by rw [hlen]; congr 1; omega)
      · -- nothing is left
        have hstop : ¬ (WriteVars.of w).writeLen < len := by
          show ¬ w.writeLen < len
          rw [hend.writeLen]
          omega
        have hdone : writeLoop o str len stack fuel (.of w) = pure (some (.of w)) := by
          cases fuel with
          | zero => rfl
          | succ fuel => rw [writeLoop, if_neg hstop]
        rw [hdone, ← hcount]
        exact loopInPlace_pure w hwritten.formatted hW'
    obtain ⟨w', hrun', hends⟩ := hrest.ends
    rw [if_pos hstart, writeRound_eq hk]
    refine ⟨Only.bind honly.map hround hrest.only, w', ?_, hends⟩
    rw [alone_bind, hround]
    exact hrun'

end

end Steps

end SeL4Sys
