import SeL4Sys.Descriptors
import SeL4Sys.DirGrow
import SeL4Sys.RequestRegions

/-!
# Two requests at the same time

No lock is held while a request works on the disk: the accesses of a worker may come between those
of another worker or of the fault thread in any order. What two requests come to therefore depends
on how the conflicts between their accesses are decided. When they are all decided for the same
request, the two end as if one had run after the other, and requests that work inside the blocks
of different files have no conflicts at all. When each request wins a conflict, an update can get
lost.
-/

namespace SeL4Sys

open Bytes CString Interleave

variable {s : FS} {o : ℕ}

/-! ## Requests that allocate nothing -/

/-- The file of the control block has the blocks that a write of `len` bytes needs. -/
structure WritesInPlace (s : FS) (fcb : FCB) (len : ℤ) : Prop where
  inUse : s.InUse fcb.inodeOffset
  file : ¬ IsDir s.disk fcb.inodeOffset
  offset : 0 ≤ fcb.offset
  blocks : 0 < (loadInode s.disk fcb.inodeOffset).blocks
  fits : fcb.offset.toNat + len.toNat ≤ (loadInode s.disk fcb.inodeOffset).blocks * 1024

namespace Steps

section
variable (h : FsOk s)
include h

/-- A write in place uses the inode and the blocks of its file. -/
theorem only_syscallWritefile {fcb : FCB} {len : ℤ} (hin : WritesInPlace s fcb len) (fd : ℤ)
    (str buffer : Buf) (stack : ℕ → ℕ → Buf) :
    Only (FsOp.Within s.superBlock.sectorNum (inodeRegions s fcb.inodeOffset)
        (inodeRegions s fcb.inodeOffset))
      (syscallWritefile fcb fd str len buffer stack) s := by
  have hf := h.inodes.formatted
  have hslot := hin.inUse.isSlot
  rw [syscallWritefile]
  split_ifs
  · exact only_pure
  apply Only.bind (only_loadInode hslot (slotRegion_subset s _)) (alone_loadInode _ _)
  rw [writeFrom]
  apply Only.sBlock_bind
  rw [SuperBlock.fixed_blockSize]
  have hstart : (⟨SeL4Sys.loadInode s.disk fcb.inodeOffset, fcb.offset,
      fcb.offset.tdiv s.superBlock.blockSize, fcb.offset.tmod s.superBlock.blockSize, 0, buffer⟩ :
        WriteVars)
      = .of (writeAt s (SeL4Sys.loadInode s.disk fcb.inodeOffset) fcb.offset.toNat 0 buffer) := by
    have hoff : fcb.offset = (fcb.offset.toNat : ℤ) := (Int.toNat_of_nonneg hin.offset).symm
    rw [hf.blockSize, hoff]
    rfl
  rw [hstart]
  have hW := h.blocksIn hin.inUse (Set.Subset.refl (inodeRegions s fcb.inodeOffset))
  have hloop : LoopInPlace s.superBlock.sectorNum (inodeRegions s fcb.inodeOffset)
      (writeLoop fcb.inodeOffset str len stack len.toNat
        (.of (writeAt s (SeL4Sys.loadInode s.disk fcb.inodeOffset) fcb.offset.toNat 0 buffer))) s
      (SeL4Sys.loadInode s.disk fcb.inodeOffset).blocks := by
    by_cases hlen : 0 ≤ len
    · exact writeLoop_inPlace hin.inUse str len stack _ s (SeL4Sys.loadInode s.disk) _ 0 len.toNat
        buffer hf h.owned hW hin.fits (by omega)
    · -- nothing is written at a negative length
      rw [Int.toNat_of_nonpos (by omega)]
      exact loopInPlace_pure (writeAt s _ _ 0 buffer) hf hW
  obtain ⟨w, hrun, hf', hcount, hW'⟩ := hloop.ends
  apply Only.bind hloop.only hrun
  have hpos : 0 < w.inode.blocks := by
    rw [hcount]
    exact hin.blocks
  apply Only.bind (only_readBlock hf' hW' (by decide) hpos _) (alone_readBlock _ _ _ _)
  exact Only.bind (only_storeInode hslot (slotRegion_subset s _)) rfl only_pure

/-- Opening a file that is there reads directories and the inode of the file. -/
theorem only_syscallOpen {path : List UInt8} (hfound : FoundAt s path o) (mode : ℤ) (l : Locals) :
    Only (FsOp.Within s.superBlock.sectorNum (dirRegions s ∪ inodeRegions s o) ∅)
        (syscallOpen path mode l) s
      ∧ (syscallOpen path mode l).alone s = (s, some (o : ℤ)) := by
  have hfinds := readInode_finds h hfound.chars hfound.passes l.destInode l.lookupBuffer
  have ⟨hret, hoff⟩ := (hfinds.leads o).mpr hfound.leads
  have hlast : ∀ o', Leads s.disk s.rootOffset path o' →
      slotRegion s.superBlock.sectorNum o' ⊆ dirRegions s ∪ inodeRegions s o := by
    intro o' ho'
    have ho := ((hfinds.leads o').mpr ho').2
    rw [← ho, hoff]
    exact (slotRegion_subset s o).trans Set.subset_union_right
  refine ⟨?_, ?_⟩
  · apply Only.bind (only_readInode h Set.subset_union_left hfound.chars hfound.passes hlast _ _)
      (alone_readInode _ _ _ _)
    rw [if_pos hret]
    exact only_pure
  · rw [syscallOpen, alone_bind, alone_readInode]
    dsimp only
    rw [if_pos hret, hoff]
    rfl

/-- Writing a page to a file that has its blocks reads directories, and uses the file. -/
theorem only_writePageToFile {filename : List UInt8} (hfound : FoundAt s filename o)
    (hin : WritesInPlace s (pageFCB o) 4096) (vaddr : Buf) (l : Locals) (buffer : Buf)
    (stack : ℕ → ℕ → Buf) :
    Only (FsOp.Within s.superBlock.sectorNum (dirRegions s ∪ inodeRegions s o) (inodeRegions s o))
      (writePageToFile filename vaddr l buffer stack) s := by
  have ⟨hopen, hrun⟩ := only_syscallOpen h hfound 2 l
  apply Only.bind (hopen.mono fun e he => he.mono (Set.Subset.refl _) (Set.empty_subset _)) hrun
  dsimp only
  rw [if_neg (by omega)]
  have hwrite := only_syscallWritefile h hin 3 vaddr buffer stack
  have hmono : ∀ e : FsOp, e.Within s.superBlock.sectorNum (inodeRegions s o) (inodeRegions s o) →
      e.Within s.superBlock.sectorNum (dirRegions s ∪ inodeRegions s o) (inodeRegions s o) :=
    fun e he => he.mono Set.subset_union_right (Set.Subset.refl _)
  exact (hwrite.mono hmono).then_pure

end

end Steps

/-! ## Requests -/

/-- The requests that create and write files. -/
inductive Request
  | write (fcb : FCB) (fd : ℤ) (str : Buf) (len : ℤ) (buffer : Buf) (stack : ℕ → ℕ → Buf)
  | openFile (path : List UInt8) (mode : ℤ) (l : Locals)
  | pageOut (filename : List UInt8) (vaddr : Buf) (l : Locals) (buffer : Buf) (stack : ℕ → ℕ → Buf)

/-- What a request returns. -/
inductive Reply
  | write (r : Option (ℤ × FCB))
  | openFile (r : Option ℤ)
  | pageOut (r : Option Unit)

namespace Request

/-- The accesses of a request. -/
def steps : Request → Steps Reply
  | write fcb fd str len buffer stack =>
    Reply.write <$> Steps.syscallWritefile fcb fd str len buffer stack
  | openFile path mode l => Reply.openFile <$> Steps.syscallOpen path mode l
  | pageOut filename vaddr l buffer stack =>
    Reply.pageOut <$> Steps.writePageToFile filename vaddr l buffer stack

/-- The request takes nothing from the allocators, and `o` is its file. -/
inductive InPlace (s : FS) : Request → ℕ → Prop
  | write {fcb : FCB} {len : ℤ} (h : WritesInPlace s fcb len) (fd : ℤ) (str buffer : Buf)
      (stack : ℕ → ℕ → Buf) : InPlace s (.write fcb fd str len buffer stack) fcb.inodeOffset
  | openFile {path : List UInt8} {o : ℕ} (h : FoundAt s path o) (hused : s.InUse o) (mode : ℤ)
      (l : Locals) : InPlace s (.openFile path mode l) o
  | pageOut {filename : List UInt8} {o : ℕ} (h : FoundAt s filename o)
      (hin : WritesInPlace s (pageFCB o) 4096) (vaddr : Buf) (l : Locals) (buffer : Buf)
      (stack : ℕ → ℕ → Buf) : InPlace s (.pageOut filename vaddr l buffer stack) o

/-- Opening a file that is there is the request that changes nothing. -/
def onlyReads : Request → Bool
  | openFile _ _ _ => true
  | _ => false

/-- The regions that a request in place writes. -/
def changes (r : Request) (s : FS) (o : ℕ) : Set Region :=
  if r.onlyReads then ∅ else inodeRegions s o

section
variable {r r₁ r₂ : Request} {o₁ o₂ : ℕ} (h : FsOk s)

theorem InPlace.inUse (hin : r.InPlace s o) : s.InUse o := by
  cases hin with
  | write hw _ _ _ _ => exact hw.inUse
  | openFile _ hused _ _ => exact hused
  | pageOut _ hw _ _ _ _ => exact hw.inUse

theorem InPlace.file (hin : r.InPlace s o) (hr : r.onlyReads = false) : ¬ IsDir s.disk o := by
  cases hin with
  | write hw _ _ _ _ => exact hw.file
  | openFile _ _ _ _ => cases hr
  | pageOut _ hw _ _ _ _ => exact hw.file

include h

/-- The accesses of a request in place. -/
theorem InPlace.only (hin : r.InPlace s o) :
    Steps.Only (FsOp.Within s.superBlock.sectorNum (dirRegions s ∪ inodeRegions s o)
      (r.changes s o)) r.steps s := by
  cases hin with
  | write hw fd str buffer stack =>
    have hwrite := Steps.only_syscallWritefile h hw fd str buffer stack
    exact (hwrite.mono fun e he => he.mono Set.subset_union_right (Set.Subset.refl _)).map
  | openFile hfound _ mode l => exact (Steps.only_syscallOpen h hfound mode l).1.map
  | pageOut hfound hw vaddr l buffer stack =>
    exact (Steps.only_writePageToFile h hfound hw vaddr l buffer stack).map

/-- What one request writes, the other one does not use. -/
theorem InPlace.disjoint (h₁ : r₁.InPlace s o₁) (h₂ : r₂.InPlace s o₂)
    (hne : o₁ ≠ o₂ ∨ (r₁.onlyReads = true ∧ r₂.onlyReads = true)) :
    Disjoint (r₁.changes s o₁) (dirRegions s ∪ inodeRegions s o₂ ∪ r₂.changes s o₂) := by
  unfold changes
  split_ifs with hr₁ hr₂
  · exact Set.empty_disjoint _
  · exact Set.empty_disjoint _
  all_goals
    have hfile : ¬ IsDir s.disk o₁ := h₁.file (by simpa using hr₁)
    have hne : o₁ ≠ o₂ := hne.resolve_right fun hboth => hr₁ hboth.1
    have hother := h.disjoint_inodeRegions h₁.inUse h₂.inUse hne
    have hdirs := h.disjoint_dirRegions h₁.inUse hfile
  · exact (hdirs.union_right hother).union_right (Set.disjoint_empty _)
  · exact (hdirs.union_right hother).union_right hother

/-- Requests in place on different files are in no conflict. -/
theorem InPlace.not_conflict (h₁ : r₁.InPlace s o₁) (h₂ : r₂.InPlace s o₂)
    (hne : o₁ ≠ o₂ ∨ (r₁.onlyReads = true ∧ r₂.onlyReads = true)) :
    ∀ e ∈ r₁.steps.trace FsOp.exec s, ∀ f ∈ r₂.steps.trace FsOp.exec s,
      ¬ fsPlaces.Conflict e f := by
  intro e he f hf
  apply (h₁.only h e he).not_conflict (h₂.only h f hf) (h₁.disjoint h h₂ hne)
  exact h₂.disjoint h h₁ (hne.imp Ne.symm And.symm)

end

/-- The two requests have ended in state `t` as when `r₂` runs after `r₁`. -/
def EndsInOrder (r₁ r₂ : Request) (s t : FS) (a b : Reply) : Prop :=
  ∃ u, r₁.steps.alone s = (u, a) ∧ r₂.steps.alone u = (t, b)

end Request

open Request in
/-- Two requests whose accesses are interleaved end as if one had run after the other when all
conflicts between their accesses are decided for the same one of them. Two requests that take
nothing from the allocators and work on different files, or only read, end so in every
interleaving, and in both orders. -/
theorem interleaved_requests_serial {r₁ r₂ : Request} {s t : FS} {es : List (FsOp ⊕ FsOp)}
    {a b : Reply} (h : Interleaved FsOp.exec r₁.steps r₂.steps s es t a b) :
    (FirstLeads fsPlaces es → EndsInOrder r₁ r₂ s t a b)
      ∧ (FirstLeads fsPlaces (es.map Sum.swap) → EndsInOrder r₂ r₁ s t b a)
      ∧ ∀ o₁ o₂, FsOk s → r₁.InPlace s o₁ → r₂.InPlace s o₂ →
          o₁ ≠ o₂ ∨ (r₁.onlyReads = true ∧ r₂.onlyReads = true) →
          EndsInOrder r₁ r₂ s t a b ∧ EndsInOrder r₂ r₁ s t b a := by
  have hfirst : FirstLeads fsPlaces es → EndsInOrder r₁ r₂ s t a b := by
    intro hlead
    exact ⟨_, h.serial hlead⟩
  have hsecond : FirstLeads fsPlaces (es.map Sum.swap) → EndsInOrder r₂ r₁ s t b a := by
    intro hlead
    exact ⟨_, h.swap.serial hlead⟩
  refine ⟨hfirst, hsecond, ?_⟩
  intro o₁ o₂ hok h₁ h₂ hne
  have hno := h₁.not_conflict hok h₂ hne
  have hno' := h₂.not_conflict hok h₁ (hne.imp Ne.symm And.symm)
  exact ⟨hfirst (h.firstLeads hno), hsecond (h.swap.firstLeads hno')⟩

/-! ## A lost update -/

/-- A file of one block and `n` bytes in a well-formed file system. -/
structure OneBlockFile (s : FS) (x : ℕ) (n : ℤ) : Prop where
  fsOk : FsOk s
  inUse : s.InUse x
  file : ¬ IsDir s.disk x
  blocks : (loadInode s.disk x).blocks = 1
  size : (loadInode s.disk x).size = n
  avail : 0 ≤ s.superBlock.availBlockNum

/-- `m` zeros are written to the beginning of the file at `x`. -/
def writeZeros (x m : ℕ) : Request :=
  .write (pageFCB x) 3 (fun _ => 0) m (fun _ => 0) fun _ _ _ => 0

/-- The rest of that request after it has read the inode, for one zero. -/
def writeZeroFrom (x : ℕ) (ino : Inode) : Steps Reply :=
  Reply.write <$> Steps.writeFrom (pageFCB x) (fun _ => 0) 1 (fun _ => 0) (fun _ _ _ => 0) ino

theorem steps_writeZeros (x : ℕ) :
    (writeZeros x 1).steps = Steps.loadInode x >>= writeZeroFrom x := rfl

section
variable {x m : ℕ} {n : ℤ}

theorem OneBlockFile.writesInPlace (h : OneBlockFile s x n) (hm : m ≤ 1024) :
    WritesInPlace s (pageFCB x) m where
  inUse := h.inUse
  file := h.file
  offset := le_rfl
  blocks := by
    show 0 < (loadInode s.disk x).blocks
    rw [h.blocks]
    norm_num
  fits := by
    show (0 : ℤ).toNat + (m : ℤ).toNat ≤ (loadInode s.disk x).blocks * 1024
    rw [h.blocks]
    omega

/-- What a write leaves when it ends in the first block. -/
theorem oneBlockFile_written {off : ℕ} {str : Buf} {ino : Inode} (h : FsOk s) (hused : s.InUse x)
    (hfile : ¬ IsDir s.disk x) {s' : FS}
    (hw : Written s s' s.InUse (loadInode s.disk) x x off m str ino) (hload : loadInode s'.disk x = ino)
    (hblocks : ino.blocks = 1) (hsize : ino.size = n) (havail : 0 ≤ s'.superBlock.availBlockNum) :
    OneBlockFile s' x n where
  fsOk := h.written hused hw hload hfile
  inUse := ((hw.othersKept h hused hload).inUse x).mpr hused
  file := by
    rw [IsDir, hload, hw.type]
    exact hfile
  blocks := by rw [hload, hblocks]
  size := by rw [hload, hsize]
  avail := havail

/-- The write alone sets the size to that of the longer string. -/
theorem OneBlockFile.write (h : OneBlockFile s x n) (hpos : 0 < m) (hm : m ≤ 1024) :
    ∃ s' b, (writeZeros x m).steps.alone s = (s', b) ∧ OneBlockFile s' x (max n m) := by
  have hblocks := h.blocks
  have hmax : max (loadInode s.disk x).blocks ((0 + m + 1023) / 1024)
      = (loadInode s.disk x).blocks := by
    rw [hblocks]
    omega
  have hspec := syscallWritefile_spec h.fsOk.inodes.formatted h.fsOk.owned h.inUse (pageFCB x)
    h.inUse.isSlot rfl (show (pageFCB x).valid 3 = true from rfl) rfl (Nat.cast_zero (R := ℤ)).symm
    (Nat.zero_le _) hpos
  rw [hmax, blocksFor_self] at hspec
  have ⟨s', ino, hwrite, hw, hload⟩ := hspec nofun h.avail (fun _ => 0) (fun _ => 0) fun _ _ _ => 0
  have hends := Steps.alone_syscallWritefile s (pageFCB x) 3 (fun _ => 0) m (fun _ => 0)
    fun _ _ _ => 0
  rw [hwrite] at hends
  refine ⟨s', .write (some ((m : ℤ), { pageFCB x with offset := (0 + m : ℕ) })), ?_, ?_⟩
  · rw [writeZeros, Request.steps, Steps.alone_map, hends.eq_some]
  have hcount := hw.count
  have halloc := hw.alloc
  rw [hmax] at hcount
  rw [hcount, blocksFor_self] at halloc
  apply oneBlockFile_written h.fsOk h.inUse h.file hw hload
  · rw [hcount, hblocks]
  · rw [hw.size, h.size, Nat.zero_add]
  · rw [halloc.superBlock]
    exact h.avail

/-- Writing one byte with an inode of size 1 that was read before leaves the size 1, whatever the
file has become since. -/
theorem size_after_writeFrom (hf : Formatted s) {ino : Inode} (hblocks : ino.blocks = 1)
    (hsize : ino.size = 1) (str buffer : Buf) (stack : ℕ → ℕ → Buf) :
    (loadInode ((Steps.writeFrom (pageFCB x) str 1 buffer stack ino).alone s).1.disk x).size = 1 := by
  have hround : ¬ (writeAt s ino 0 0 buffer).inode.blockCount ≤ (writeAt s ino 0 0 buffer).quotient := by
    show ¬ ino.blockCount ≤ 0
    rw [Inode.blocks] at hblocks
    omega
  have hstart : (writeAt s ino 0 0 buffer).writeLen < 1 := by
    show (0 : ℤ) < 1
    norm_num
  have hloop : writeLoop x str 1 stack 1 (writeAt s ino 0 0 buffer)
      = some (writeChunk str 1 (writeAt s ino 0 0 buffer)) := by
    rw [writeLoop, if_pos hstart, writeRound, if_neg hround]
    rfl
  have hends := Steps.alone_writeLoop x str 1 stack 1 s (.of (writeAt s ino 0 0 buffer))
  rw [show (Steps.WriteVars.of (writeAt s ino 0 0 buffer)).inState s = writeAt s ino 0 0 buffer from rfl,
    hloop] at hends
  have hn : maxWriteSize 1 (writeAt s ino 0 0 buffer) = 1 := maxWriteSize_eq hf ino 0 0 1 buffer
  -- the size is the larger one of the copy of the inode and the end of the write
  have hmax : (writeChunk str 1 (writeAt s ino 0 0 buffer)).inode.size = 1 := by
    show max ino.size (0 + maxWriteSize 1 (writeAt s ino 0 0 buffer)) = 1
    rw [hn, hsize]
    norm_num
  have hvars : (⟨ino, (pageFCB x).offset, (pageFCB x).offset.tdiv s.superBlock.fixed.blockSize,
      (pageFCB x).offset.tmod s.superBlock.fixed.blockSize, 0, buffer⟩ : Steps.WriteVars)
      = .of (writeAt s ino 0 0 buffer) := by
    rw [SuperBlock.fixed_blockSize, hf.blockSize]
    rfl
  rw [Steps.writeFrom, Steps.alone_sBlock_bind, Steps.alone_bind, hvars]
  generalize writeChunk str 1 (writeAt s ino 0 0 buffer) = w at hends hmax
  rw [show (1 : ℤ).toNat = 1 from rfl, show (pageFCB x).inodeOffset = x from rfl, hends.eq_some]
  show (loadInode (storeInode w.fs.disk w.inode x) x).size = 1
  rw [loadInode_storeInode_eq, Inode.size_decode_encode (by rw [hmax]; norm_num [FitsInt]), hmax]

/-- While one request has read the inode and not yet written it back, another one writes two bytes
to the file: the size that it leaves is overwritten. -/
theorem OneBlockFile.lost_update (h : OneBlockFile s x 1) :
    ∃ es t a b, Interleaved FsOp.exec (writeZeros x 1).steps (writeZeros x 2).steps s es t a b
      ∧ (loadInode t.disk x).size = 1 := by
  have ⟨u, b, hrun, hu⟩ := h.write (m := 2) (by norm_num) (by norm_num)
  -- the first request up to where it has read the inode, then the second one, then the rest
  have hread : (Steps.loadInode x).run FsOp.exec s = (s, loadInode s.disk x) :=
    Steps.alone_loadInode s x
  have hwrite : (writeZeros x 2).steps.run FsOp.exec s = (u, b) := hrun
  obtain ⟨es, hes⟩ := interleaved_between (Steps.loadInode x) (writeZeroFrom x) (writeZeros x 2).steps
    hread hwrite
  rw [← steps_writeZeros] at hes
  refine ⟨es, _, _, b, hes, ?_⟩
  have hmap : ((writeZeroFrom x (loadInode s.disk x)).alone u).1
      = ((Steps.writeFrom (pageFCB x) (fun _ => 0) 1 (fun _ => 0) (fun _ _ _ => 0)
          (loadInode s.disk x)).alone u).1 := by
    rw [writeZeroFrom, Steps.alone_map]
  have hsize := size_after_writeFrom (x := x) hu.fsOk.inodes.formatted h.blocks h.size (fun _ => 0)
    (fun _ => 0) fun _ _ _ => 0
  rw [← hmap, Steps.alone] at hsize
  exact hsize

/-- One after the other, in either order, the writes leave two bytes. -/
theorem OneBlockFile.size_in_order (h : OneBlockFile s x 1) {m₁ m₂ : ℕ}
    (hm₁ : 0 < m₁ ∧ m₁ ≤ 1024) (hm₂ : 0 < m₂ ∧ m₂ ≤ 1024) {t : FS} {a b : Reply}
    (hends : Request.EndsInOrder (writeZeros x m₁) (writeZeros x m₂) s t a b) :
    (loadInode t.disk x).size = max (max 1 (m₁ : ℤ)) m₂ := by
  have ⟨u, h₁, h₂⟩ := hends
  have ⟨u', a', hrun₁, hu⟩ := h.write hm₁.1 hm₁.2
  rw [hrun₁, Prod.mk.injEq] at h₁
  rw [← h₁.1] at h₂
  have ⟨t', b', hrun₂, ht⟩ := hu.write hm₂.1 hm₂.2
  rw [hrun₂, Prod.mk.injEq] at h₂
  rw [← h₂.1]
  exact ht.size

/-- The first byte of an empty file. -/
theorem exists_oneBlockFile (h : FsOk s) (hused : s.InUse x)
    (hload : loadInode s.disk x = Files.emptyFile) (hget : GetsFreeFor s 1)
    (havail : 1 ≤ s.superBlock.availBlockNum) : ∃ s', OneBlockFile s' x 1 := by
  have hneed : blocksFor (loadInode s.disk x).blocks
      (max (loadInode s.disk x).blocks ((0 + 1 + 1023) / 1024)) = 1 := by
    rw [hload]
    decide
  have hspec := syscallWritefile_spec h.inodes.formatted h.owned hused (pageFCB x) hused.isSlot rfl
    (show (pageFCB x).valid 3 = true from rfl) rfl (Nat.cast_zero (R := ℤ)).symm (Nat.zero_le _)
    Nat.one_pos
  rw [hneed] at hspec
  have ⟨s', ino, _, hw, hload'⟩ := hspec hget havail (fun _ => 0) (fun _ => 0) fun _ _ _ => 0
  have hfile : ¬ IsDir s.disk x := by
    rw [IsDir, hload]
    decide
  have hcount := hw.count
  have halloc := hw.alloc
  rw [hcount, hneed] at halloc
  rw [hload] at hcount
  refine ⟨s', oneBlockFile_written h hused hfile hw hload' ?_ ?_ ?_⟩
  · rw [hcount]
    decide
  · rw [hw.size, hload]
    decide
  · rw [halloc.superBlock, avail_takes h.inodes.formatted hget]
    omega

end

/-- The file `/a` with one byte in it. -/
theorem exists_fileA : ∃ s, OneBlockFile s 4224 1 := by
  have h : FsOk (dirFS 1) := dirFS_ok (by norm_num)
  have hused : (dirFS 1).InUse 4224 := (dirFS_inUse (by norm_num)).mpr ⟨1, by norm_num, by norm_num⟩
  have hload : loadInode (dirFS 1).disk 4224 = Files.emptyFile := dirDisk_file (t := 0) (by norm_num)
  apply exists_oneBlockFile h hused hload (dirFS_getsFree 1)
  show (1 : ℤ) ≤ 24
  norm_num

/-- One request writes a byte to the file. Another one opens the root directory when the first has read
the inode and not yet written it back. -/
theorem interleaved_requests_serial_a :
    ∃ s es t a b, Interleaved FsOp.exec (writeZeros 4224 1).steps
        (Request.openFile [slash] 64 zeroLocals).steps s es t a b
      ∧ Request.EndsInOrder (writeZeros 4224 1) (.openFile [slash] 64 zeroLocals) s t a b
      ∧ Request.EndsInOrder (.openFile [slash] 64 zeroLocals) (writeZeros 4224 1) s t b a := by
  have ⟨s, h⟩ := exists_fileA
  have hroot : FoundAt s [slash] s.rootOffset :=
    { chars := no_zero_of_all rfl
      passes := passesNoFile_entry h.fsOk.root_isDir (by decide)
      leads := ⟨[], spells_root_iff.mpr rfl, rfl⟩ }
  have hne : 4224 ≠ s.rootOffset := by
    intro heq
    exact h.file (heq ▸ h.fsOk.root_isDir)
  have hwrite : (writeZeros 4224 1).InPlace s 4224 :=
    .write (h.writesInPlace (m := 1) (by norm_num)) 3 _ _ _
  have hopen : (Request.openFile [slash] 64 zeroLocals).InPlace s s.rootOffset :=
    .openFile hroot h.fsOk.tree.root_used 64 zeroLocals
  have ⟨es, hes⟩ := interleaved_between (Steps.loadInode 4224) (writeZeroFrom 4224)
    (Request.openFile [slash] 64 zeroLocals).steps (Steps.alone_loadInode s 4224) rfl
  rw [← steps_writeZeros] at hes
  exact ⟨s, es, _, _, _, hes,
    (interleaved_requests_serial hes).2.2 4224 s.rootOffset h.fsOk hwrite hopen (.inl hne)⟩

/-- Two requests write to the beginning of the same file, one byte and two bytes. In this
interleaving the update of the size by the second one is lost. -/
theorem interleaved_write_loses_size :
    ∃ s es t a b, FsOk s
      ∧ Interleaved FsOp.exec (writeZeros 4224 1).steps (writeZeros 4224 2).steps s es t a b
      ∧ ¬ Request.EndsInOrder (writeZeros 4224 1) (writeZeros 4224 2) s t a b
      ∧ ¬ Request.EndsInOrder (writeZeros 4224 2) (writeZeros 4224 1) s t b a := by
  have ⟨s, h⟩ := exists_fileA
  have ⟨es, t, a, b, hes, hsize⟩ := h.lost_update
  refine ⟨s, es, t, a, b, h.fsOk, hes, ?_, ?_⟩
  · intro hends
    have htwo := h.size_in_order (by norm_num) (by norm_num) hends
    norm_num [hsize] at htwo
  · intro hends
    have htwo := h.size_in_order (by norm_num) (by norm_num) hends
    norm_num [hsize] at htwo

end SeL4Sys
