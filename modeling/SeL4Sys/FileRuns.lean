import SeL4Sys.AllocRuns
import SeL4Sys.FileRead
import SeL4Sys.FileWrite

/-!
# Files are byte arrays

A `ByteFile` is an open file as its user sees it: a list of bytes and a position. `view` is the
`ByteFile` that a file control block stands for. Runs of `syscall_writefile` and
`syscall_readfile` through one control block refine the runs of the `ByteFile`: they return the
same and end in the same view.
-/

namespace SeL4Sys

open Bytes Bitmap Function

/-! ## The abstract file -/

/-- A call through one control block, with the contents of the local buffers it starts from. -/
inductive FileCall
  | write (bytes : List UInt8) (buffer : Buf) (stack : ℕ → ℕ → Buf)
  | read (maxLen : ℕ) (str buffer : Buf)

/-- What the caller gets: the return value and, from a read, the bytes. -/
structure Outcome where
  ret : ℤ
  bytes : List UInt8
deriving DecidableEq

/-- A sequence of bytes with a position in it. -/
structure ByteFile where
  content : List UInt8
  pos : ℕ
deriving DecidableEq

namespace ByteFile

/-- The bytes from the position on are replaced, and the position moves behind them. -/
def write (f : ByteFile) (bytes : List UInt8) : ByteFile where
  content := f.content.take f.pos ++ bytes ++ f.content.drop (f.pos + bytes.length)
  pos := f.pos + bytes.length

/-- The bytes that a read of at most `maxLen` bytes returns. -/
def read (f : ByteFile) (maxLen : ℕ) : List UInt8 := (f.content.drop f.pos).take maxLen

/-- One call. -/
def exec (f : ByteFile) : FileCall → ByteFile × Outcome
  | .write bytes _ _ => (f.write bytes, ⟨bytes.length, []⟩)
  | .read maxLen _ _ =>
    ({ f with pos := f.pos + (f.read maxLen).length }, ⟨(f.read maxLen).length, f.read maxLen⟩)

/-- A sequence of calls. -/
def run (f : ByteFile) : List FileCall → ByteFile × List Outcome
  | [] => (f, [])
  | call :: calls =>
    let r := f.exec call
    let q := r.1.run calls
    (q.1, r.2 :: q.2)

end ByteFile

/-! ## The calls of the file system -/

/-- One call on the file system; `none` is a failed assertion. -/
def execCall (fd : ℤ) (s : FS) (fcb : FCB) : FileCall → Option (FS × FCB × Outcome)
  | .write bytes buffer stack =>
    (syscallWritefile s fcb fd (bufOf bytes) bytes.length buffer stack).map fun r =>
      (r.2.1, r.2.2, ⟨r.1, []⟩)
  | .read maxLen str buffer =>
    let r := syscallReadfile s fcb fd str maxLen buffer
    some (s, r.2.1, ⟨r.1, bytesOf r.2.2 r.1.toNat⟩)

/-- A sequence of calls on the file system. -/
def runCalls (fd : ℤ) : FS → FCB → List FileCall → Option (FS × FCB × List Outcome)
  | s, fcb, [] => some (s, fcb, [])
  | s, fcb, call :: calls =>
    (execCall fd s fcb call).bind fun r =>
      (runCalls fd r.1 r.2.1 calls).map fun q => (q.1, q.2.1, r.2.2 :: q.2.2)

/-! ## The view -/

/-- The content of a file. -/
def contentOf (d : Disk) (ino : Inode) : List UInt8 := bytesOf (fileByte d ino) ino.size.toNat

/-- The inode of an open file. -/
abbrev FCB.inode (fcb : FCB) (s : FS) : Inode := loadInode s.disk fcb.inodeOffset

/-- The file that a control block stands for. -/
def view (s : FS) (fcb : FCB) : ByteFile := ⟨contentOf s.disk (fcb.inode s), fcb.offset.toNat⟩

/-- An open file with a well-formed tree of blocks that hold all of it, and the offset in it. -/
structure FileOk (s : FS) (fcb : FCB) : Prop where
  formatted : Formatted s
  slot : IsSlot s.superBlock.sectorNum fcb.inodeOffset
  inuse : fcb.inuse = true
  owned : Owned s (fun _ : Unit => True) fun _ => fcb.inode s
  size : 0 ≤ (fcb.inode s).size ∧ (fcb.inode s).size ≤ (fcb.inode s).blockCount * 1024
  offset : 0 ≤ fcb.offset ∧ fcb.offset ≤ (fcb.inode s).size

/-- The blocks that the file needs in order to reach up to byte `stop` are free, and the
allocator finds them. -/
def RoomFor (s : FS) (ino : Inode) (stop : ℕ) : Prop :=
  GetsFreeFor s (blocksFor ino.blocks (max ino.blocks ((stop + 1023) / 1024)))
    ∧ (blocksFor ino.blocks (max ino.blocks ((stop + 1023) / 1024)) : ℤ)
      ≤ s.superBlock.availBlockNum

/-- What is assumed of a call: the mode of the file allows it, and a write writes something
and finds room. -/
def LegalCall (s : FS) (fcb : FCB) : FileCall → Prop
  | .write bytes _ _ => modeCanWrite fcb.flags ∧ bytes ≠ []
      ∧ RoomFor s (fcb.inode s) (fcb.offset.toNat + bytes.length)
  | .read _ _ _ => modeCanRead fcb.flags

/-- What is assumed of a run. -/
def LegalCalls (fd : ℤ) : FS → FCB → List FileCall → Prop
  | _, _, [] => True
  | s, fcb, call :: calls => LegalCall s fcb call
      ∧ ∀ s' fcb' out, execCall fd s fcb call = some (s', fcb', out) → LegalCalls fd s' fcb' calls

/-! ## One call -/

section
variable {ι : Type*} [DecidableEq ι] {s s' : FS} {P : ι → Prop} {I : ι → Inode} {x : ι} {o off : ℕ}
  {ino : Inode} {size : ℕ}

omit [DecidableEq ι] in
theorem length_contentOf (d : Disk) (hsize : ino.size = (size : ℤ)) :
    (contentOf d ino).length = size := by
  rw [contentOf, length_bytesOf, hsize, Int.toNat_natCast]

/-- What byte `p` is before it is written: a byte of the blocks of the file, or of the block that
the allocator hands out next. -/
def oldByte (s : FS) (ino : Inode) (p : ℕ) : UInt8 :=
  if p < ino.blocks * 1024 then fileByte s.disk ino p else s.disk (s.fresh 0 * 512 + p % 1024)

omit [DecidableEq ι] in
theorem take_contentOf (s : FS) (hsize : ino.size = (size : ℤ)) (hblocks : size ≤ ino.blocks * 1024)
    (hoff : off ≤ size) : bytesOf (oldByte s ino) off = (contentOf s.disk ino).take off := by
  apply List.ext_getElem
  · rw [List.length_take, length_contentOf _ hsize, length_bytesOf]
    omega
  · intro i hi _
    rw [length_bytesOf] at hi
    simp only [List.getElem_take, contentOf, getElem_bytesOf]
    rw [oldByte, if_pos (by omega)]

/-- The content after a write. -/
theorem Written.contentOf_eq {m : ℕ} {str : Buf} (h : Written s s' P I x o off m str ino)
    (hsize : (I x).size = (size : ℤ)) (hblocks : size ≤ (I x).blocks * 1024) :
    contentOf s'.disk ino = bytesOf (oldByte s (I x)) off ++ bytesOf str m
      ++ (contentOf s.disk (I x)).drop (off + m) := by
  have hsize' : ino.size = ((max size (off + m) : ℕ) : ℤ) := by
    rw [h.size, hsize, Nat.cast_max]
  apply List.ext_getElem
  · simp only [length_contentOf _ hsize', List.length_append, length_bytesOf, List.length_drop,
      length_contentOf _ hsize]
    omega
  · intro i hi hi'
    rw [length_contentOf _ hsize'] at hi
    rcases Nat.lt_or_ge i off with hbefore | hge
    · rw [List.getElem_append_left (by simp; omega), List.getElem_append_left (by simp; omega)]
      simp only [contentOf, getElem_bytesOf]
      rw [oldByte]
      by_cases hold : i < (I x).blocks * 1024
      · rw [if_pos hold, h.kept i hold (Or.inl hbefore)]
      · rw [if_neg hold, h.gap i (by omega) hbefore]
    rcases Nat.lt_or_ge i (off + m) with hin | hafter
    · rw [List.getElem_append_left (by simp; omega), List.getElem_append_right (by simp; omega)]
      simp only [contentOf, getElem_bytesOf, length_bytesOf]
      have hbyte := h.bytes (i - off) (by omega)
      rwa [show off + (i - off) = i by omega] at hbyte
    · rw [List.getElem_append_right (by simp; omega), List.getElem_drop]
      simp only [contentOf, getElem_bytesOf, List.length_append, length_bytesOf]
      rw [show off + m + (i - (off + m)) = i by omega]
      exact h.kept i (by omega) (Or.inr hafter)

end

variable {s : FS} {fcb : FCB} {fd : ℤ}

/-- The size and the offset as natural numbers. -/
theorem FileOk.nat (h : FileOk s fcb) : ∃ size off : ℕ, (fcb.inode s).size = size
    ∧ fcb.offset = off ∧ off ≤ size ∧ size ≤ (fcb.inode s).blocks * 1024 := by
  obtain ⟨h₁, h₂⟩ := h.size
  obtain ⟨h₃, h₄⟩ := h.offset
  refine ⟨(fcb.inode s).size.toNat, fcb.offset.toNat, by omega, by omega, by omega, ?_⟩
  rw [Inode.blocks]
  omega

theorem FCB.inode_withOffset (fcb : FCB) (v : ℤ) (s : FS) :
    FCB.inode { fcb with offset := v } s = fcb.inode s := by
  simp only [FCB.inode]

theorem FileOk.withOffset (h : FileOk s fcb) {v : ℤ} (hpos : 0 ≤ v)
    (hle : v ≤ (fcb.inode s).size) : FileOk s { fcb with offset := v } where
  formatted := h.formatted
  slot := h.slot
  inuse := h.inuse
  owned := by
    rw [FCB.inode_withOffset]
    exact h.owned
  size := by
    rw [FCB.inode_withOffset]
    exact h.size
  offset := by
    rw [FCB.inode_withOffset]
    exact ⟨hpos, hle⟩

theorem valid_of_inuse (hfd : 3 ≤ fd ∧ fd < 32) (h : fcb.inuse = true) : fcb.valid fd = true := by
  simp [FCB.valid, h, hfd]

/-- A write. -/
theorem FileOk.write (h : FileOk s fcb) (hfd : 3 ≤ fd ∧ fd < 32) {bytes : List UInt8}
    (hmode : modeCanWrite fcb.flags) (hne : bytes ≠ [])
    (hroom : RoomFor s (fcb.inode s) (fcb.offset.toNat + bytes.length)) (buffer : Buf)
    (stack : ℕ → ℕ → Buf) :
    ∃ s' fcb', execCall fd s fcb (.write bytes buffer stack) = some (s', fcb', ⟨bytes.length, []⟩)
      ∧ fcb' = { fcb with offset := fcb'.offset } ∧ FileOk s' fcb'
      ∧ view s' fcb' = (view s fcb).write bytes := by
  obtain ⟨size, off, hsize, hoff, hle, hblocks⟩ := h.nat
  have hlen : 0 < bytes.length := List.length_pos_iff.mpr hne
  rw [hoff, Int.toNat_natCast] at hroom
  obtain ⟨s', ino, hwrite, hspec, hload⟩ := syscallWritefile_spec (I := fun _ => fcb.inode s)
    (x := ()) h.formatted h.owned trivial fcb h.slot rfl (valid_of_inuse hfd h.inuse) hmode hoff
    (by omega) hlen hroom.1 hroom.2 (bufOf bytes) buffer stack
  have hcount := hspec.count
  have hgrown := hspec.blocks
  have hsize' := hspec.size
  have hcontent := hspec.contentOf_eq hsize hblocks
  rw [take_contentOf s hsize hblocks hle, bytesOf_bufOf] at hcontent
  refine ⟨s', { fcb with offset := (off + bytes.length : ℕ) }, ?_, rfl, ?_, ?_⟩
  · rw [execCall, hwrite, Option.map_some]
  · refine ⟨hspec.formatted, ?_, h.inuse, ?_, ?_, ?_⟩
    · rw [hspec.sectorNum]
      exact h.slot
    · have hown := hspec.owned
      have hupd : update (fun _ : Unit => fcb.inode s) () ino = fun _ => ino := by
        funext u
        exact update_self ..
      rw [hupd, ← hload] at hown
      exact hown
    · have hpos := (hspec.owned.count () trivial).1
      rw [update_self] at hpos
      simp only [FCB.inode, hload, hsize']
      rw [hsize]
      rw [Inode.blocks] at hcount
      omega
    · simp only [FCB.inode, hload, hsize']
      omega
  · simp only [view, FCB.inode, hload, ByteFile.write, hoff, Int.toNat_natCast]
    rw [hcontent]

/-- What `syscall_readfile` returns are bytes of the view of the file. -/
theorem syscallReadfile_view (hf : Formatted s) (hvalid : fcb.valid fd = true)
    (hmode : modeCanRead fcb.flags) {off size : ℕ} (hoff : fcb.offset = off)
    (hsize : (fcb.inode s).size = size) (hmax : size ≤ maxBlocks * 1024) (maxLen : ℕ) (str buffer : Buf) :
    ∃ str', syscallReadfile s fcb fd str maxLen buffer
        = ((((view s fcb).read maxLen).length : ℤ),
            { fcb with offset := (off + ((view s fcb).read maxLen).length : ℕ) }, str')
      ∧ bytesOf str' ((view s fcb).read maxLen).length = (view s fcb).read maxLen := by
  have hread := syscallReadfile_spec hf hvalid hmode hoff
    (show loadInode s.disk fcb.inodeOffset = fcb.inode s from rfl) hsize hmax maxLen str buffer
  have hlength : ((view s fcb).read maxLen).length = min (size - off) maxLen := by
    simp only [ByteFile.read, view, List.length_take, List.length_drop,
      length_contentOf _ hsize, hoff, Int.toNat_natCast]
    omega
  rw [hlength]
  refine ⟨_, hread, ?_⟩
  apply List.ext_getElem
  · rw [hlength, length_bytesOf]
  · intro i hi _
    rw [length_bytesOf] at hi
    simp only [ByteFile.read, view, List.getElem_take, List.getElem_drop, contentOf,
      getElem_bytesOf, hoff, Int.toNat_natCast]
    rw [patch_zero_apply hi, fileFrom]

/-- A read. -/
theorem FileOk.read (h : FileOk s fcb) (hfd : 3 ≤ fd ∧ fd < 32) (hmode : modeCanRead fcb.flags)
    (maxLen : ℕ) (str buffer : Buf) :
    ∃ fcb', execCall fd s fcb (.read maxLen str buffer)
        = some (s, fcb', ⟨((view s fcb).read maxLen).length, (view s fcb).read maxLen⟩)
      ∧ fcb' = { fcb with offset := fcb'.offset } ∧ FileOk s fcb'
      ∧ view s fcb' = { view s fcb with pos := (view s fcb).pos + ((view s fcb).read maxLen).length } := by
  obtain ⟨size, off, hsize, hoff, hle, hblocks⟩ := h.nat
  have hmax : size ≤ maxBlocks * 1024 :=
    hblocks.trans (Nat.mul_le_mul_right 1024 (h.owned.blocks_le (x := ()) trivial))
  obtain ⟨str', hread, hbytes⟩ := syscallReadfile_view h.formatted (valid_of_inuse hfd h.inuse) hmode
    hoff hsize hmax maxLen str buffer
  have hlength : ((view s fcb).read maxLen).length ≤ size - off := by
    simp only [ByteFile.read, view, List.length_take, List.length_drop,
      length_contentOf _ hsize, hoff, Int.toNat_natCast]
    omega
  refine ⟨{ fcb with offset := (off + ((view s fcb).read maxLen).length : ℕ) }, ?_, rfl, ?_, ?_⟩
  · simp only [execCall, hread, Int.toNat_natCast, hbytes]
  · apply h.withOffset
    · omega
    · rw [hsize]
      omega
  · simp only [view, FCB.inode, hoff, Int.toNat_natCast]

/-! ## Whole runs -/

/-- One call, of either kind. -/
theorem FileOk.exec (h : FileOk s fcb) (hfd : 3 ≤ fd ∧ fd < 32) {call : FileCall}
    (hlegal : LegalCall s fcb call) :
    ∃ s' fcb', execCall fd s fcb call = some (s', fcb', ((view s fcb).exec call).2)
      ∧ fcb' = { fcb with offset := fcb'.offset } ∧ FileOk s' fcb'
      ∧ view s' fcb' = ((view s fcb).exec call).1 := by
  cases call with
  | write bytes buffer stack =>
    obtain ⟨hmode, hne, hroom⟩ := hlegal
    exact h.write hfd hmode hne hroom buffer stack
  | read maxLen str buffer =>
    obtain ⟨fcb', hexec, hfcb, hok, hview⟩ := h.read hfd hlegal maxLen str buffer
    exact ⟨s, fcb', hexec, hfcb, hok, hview⟩

/-- **Files are byte arrays.** Any sequence of writes and reads through the control block of an
open file, with blocks enough for the writes, returns what the same calls return on the byte
array that the file is, and leaves the file that they leave: the same bytes with the same
position, in a file whose blocks hold all of it. -/
theorem runCalls_refines_byteFile (hfd : 3 ≤ fd ∧ fd < 32) (h : FileOk s fcb)
    (calls : List FileCall) (hlegal : LegalCalls fd s fcb calls) :
    ∃ s' fcb', runCalls fd s fcb calls = some (s', fcb', ((view s fcb).run calls).2)
      ∧ fcb' = { fcb with offset := fcb'.offset } ∧ FileOk s' fcb'
      ∧ view s' fcb' = ((view s fcb).run calls).1
      ∧ (fcb'.inode s').size = ((view s fcb).run calls).1.content.length := by
  induction calls generalizing s fcb with
  | nil =>
    obtain ⟨size, _, hsize, _⟩ := h.nat
    simp only [runCalls, ByteFile.run]
    refine ⟨s, fcb, rfl, rfl, h, rfl, ?_⟩
    rw [view, length_contentOf _ hsize, hsize]
  | cons call calls ih =>
    obtain ⟨s₁, fcb₁, hexec, hfcb₁, hok₁, hview₁⟩ := h.exec hfd hlegal.1
    obtain ⟨s₂, fcb₂, hrun, hfcb₂, hok₂, hview₂, hsize₂⟩ := ih hok₁ (hlegal.2 _ _ _ hexec)
    rw [hview₁] at hrun hview₂ hsize₂
    simp only [runCalls, ByteFile.run, hexec, Option.bind_some, hrun, Option.map_some]
    refine ⟨s₂, fcb₂, rfl, ?_, hok₂, hview₂, hsize₂⟩
    rw [hfcb₂, hfcb₁]

/-! ## An empty file on the small disk -/

/-- An empty file at the second inode. The data blocks, which start at byte 1052672, are filled
with `junk`. -/
def fileFS (junk : UInt8) : FS :=
  smallFS (storeInode (fun p => if 1052672 ≤ p then junk else 0) Files.emptyFile 4224) 8191 25

/-- Its control block, with the file open for reading and writing and the offset at `off`. -/
def fileFCB (off : ℕ) : FCB := ⟨true, 4224, off, 2⟩

theorem isSlot_fileFS : IsSlot 2106 4224 := by
  refine ⟨0, 1, ?_, ?_, ?_⟩
  · rw [groups_small]
    norm_num
  · rw [inodesOf_small]
    norm_num
  · rw [slotOffset, tableSector, descBlocks_small, base_zero]

theorem inode_fileFS (junk : UInt8) (off : ℕ) :
    (fileFCB off).inode (fileFS junk) = Files.emptyFile := by
  rw [FCB.inode, fileFS, smallFS_disk, fileFCB]
  exact loadInode_storeInode Files.emptyFile_fits

theorem owned_fileFS (junk : UInt8) :
    Owned (fileFS junk) (fun _ : Unit => True) fun _ => Files.emptyFile where
  count := fun _ _ => ⟨le_rfl, Int.natCast_nonneg _⟩
  used := fun _ _ _ hn => absurd hn.first_lt (Nat.not_lt_zero _)
  inj := fun _ _ _ _ _ _ hn => absurd hn.first_lt (Nat.not_lt_zero _)

theorem fileFS_ok (junk : UInt8) : FileOk (fileFS junk) (fileFCB 0) where
  formatted := smallFS_formatted _ _ _
  slot := isSlot_fileFS
  inuse := rfl
  owned := by
    rw [inode_fileFS]
    exact owned_fileFS junk
  size := by
    rw [inode_fileFS]
    exact ⟨le_rfl, le_rfl⟩
  offset := by
    rw [inode_fileFS]
    exact ⟨le_rfl, le_rfl⟩

/-- The first block of the disk is free, and it is found. -/
theorem fileFS_hits (junk : UInt8) : Hits .block (fileFS junk) := by
  have hbitmap : ∀ j, j < 1024 → storeInode (fun p => if 1052672 ≤ p then junk else 0)
      Files.emptyFile 4224 (3072 + j) = 0 := by
    intro j hj
    rw [storeInode_eq, patch_apply_out (by omega), if_neg (by omega)]
  have hcount : (25 : ℤ) = clearCount (window (storeInode (fun p => if 1052672 ≤ p then junk else 0)
      Files.emptyFile 4224) 3072) 25 := by
    rw [clearCount_congr (m := fun _ => 0)]
    · decide
    · intro i hi
      exact bit_congr (hbitmap (i / 8) (by omega))
  refine ((smallFS_consistent hcount).hits_iff (by rw [smallFS_avail]; norm_num)).mpr ?_
  rw [smallFS_nearHole_iff (by norm_num)]
  exact ⟨0, by norm_num, by norm_num, by rw [hbitmap 0 (by norm_num)]; decide⟩

/-- There is room for a first block. -/
theorem fileFS_roomFor (junk : UInt8) {stop : ℕ} (hpos : 0 < stop) (hle : stop ≤ 1024) :
    RoomFor (fileFS junk) Files.emptyFile stop := by
  have hblocks : Files.emptyFile.blocks = 0 := rfl
  have hneed : blocksFor Files.emptyFile.blocks
      (max Files.emptyFile.blocks ((stop + 1023) / 1024)) = 1 := by
    rw [hblocks, show max 0 ((stop + 1023) / 1024) = 0 + 1 by omega, blocksFor_succ]
    rfl
  unfold RoomFor
  rw [hneed]
  refine ⟨fun j hj => ?_, by norm_num [fileFS, smallFS]⟩
  obtain rfl : j = 0 := by omega
  exact (getsFree_iff (fileFS_ok junk).formatted).mpr (fileFS_hits junk)

theorem view_fileFS (junk : UInt8) (off : ℕ) : view (fileFS junk) (fileFCB off) = ⟨[], off⟩ := by
  rw [view, inode_fileFS]
  rfl

/-- Three bytes are written to the empty file, and a read behind them returns nothing. -/
theorem runCalls_refines_byteFile_small :
    ∃ s' fcb', runCalls 3 (fileFS 7) (fileFCB 0)
        [.write [1, 2, 3] (fun _ => 0) (fun _ _ _ => 0), .read 2 (fun _ => 0) fun _ => 0]
        = some (s', fcb', [⟨3, []⟩, ⟨0, []⟩])
      ∧ view s' fcb' = ⟨[1, 2, 3], 3⟩ := by
  have hroom : RoomFor (fileFS 7) ((fileFCB 0).inode (fileFS 7))
      ((fileFCB 0).offset.toNat + [(1 : UInt8), 2, 3].length) := by
    rw [inode_fileFS]
    exact fileFS_roomFor 7 (by decide) (by decide)
  have hlegal : LegalCalls 3 (fileFS 7) (fileFCB 0)
      [.write [1, 2, 3] (fun _ => 0) (fun _ _ _ => 0), .read 2 (fun _ => 0) fun _ => 0] := by
    simp only [LegalCalls, LegalCall]
    refine ⟨⟨by decide, by simp, hroom⟩, fun s' fcb' out hexec => ⟨?_, fun _ _ _ _ => trivial⟩⟩
    obtain ⟨s₁, fcb₁, hexec₁, hfcb, _⟩ := (fileFS_ok 7).write
      (show (3 : ℤ) ≤ 3 ∧ (3 : ℤ) < 32 by norm_num) rfl (show [(1 : UInt8), 2, 3] ≠ [] by simp)
      hroom (fun _ => 0) (fun _ _ _ => 0)
    rw [hexec] at hexec₁
    simp only [Option.some.injEq, Prod.mk.injEq] at hexec₁
    rw [hexec₁.2.1, hfcb]
    rfl
  obtain ⟨s', fcb', hrun, _, _, hview, _⟩ :=
    runCalls_refines_byteFile (by norm_num) (fileFS_ok 7) _ hlegal
  rw [view_fileFS] at hrun hview
  exact ⟨s', fcb', hrun, hview⟩

end SeL4Sys
