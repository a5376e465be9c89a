import SeL4Sys.FileOps
import SeL4Sys.AllocTheorems
import SeL4Sys.Vm

/-!
# User buffers

The handlers of `SYSCALL_READ` and `SYSCALL_WRITE` copy between the server and a buffer of the process.
`setup_projection_space` maps the page of the first byte only. The assertion that the buffer does not
leave the page calls `cross_page`, which compares its first argument with itself, so it never fails.

A handler is modelled by the places of the buffer that its loops touch, relative to the projected
address, together with the file calls that have a model of their own.
-/

namespace SeL4Sys

open Bytes

/-! ## The projection -/

/-- `PAGE_ALIGN_4K` -/
def pageAlign4K (addr : ℕ) : ℕ := addr - addr % pageSize

/-- `setup_projection_space`, where `addr` is what `sel4utils_dup_and_map` returned. -/
def setupProjectionSpace (addr vaddr : ℕ) : ℕ := addr + vaddr - pageAlign4K vaddr

/-- `cross_page`, which does not use `vaddr2`. -/
def crossPage (vaddr1 _vaddr2 : ℕ) : Bool := vaddr1 / pageSize != vaddr1 / pageSize

theorem setupProjectionSpace_eq (addr vaddr : ℕ) :
    setupProjectionSpace addr vaddr = addr + vaddr % pageSize := by
  have := Nat.mod_le vaddr pageSize
  rw [setupProjectionSpace, pageAlign4K]
  omega

theorem crossPage_eq_false (v w : ℕ) : crossPage v w = false := by simp [crossPage]

/-! ## The loops over the buffer -/

/-- `MAX_KEYBUFFER_SIZE` -/
abbrev maxKeybufferSize : ℕ := 64

/-- `key_buffer` with `buffer_head` and `buffer_tail`. -/
structure KeyBuffer where
  keyBuffer : Fin maxKeybufferSize → UInt8
  head : Fin maxKeybufferSize
  tail : Fin maxKeybufferSize

/-- The loop of `readstdin_handler`, with at most `n` passes left: `read_len`, the buffer of the
process, and the places written. -/
def readstdinLoop (maxLen : ℕ) : ℕ → KeyBuffer → ℕ → Buf → ℕ × Buf × List (ℕ × ℕ)
  | 0, _, readLen, str => (readLen, str, [])
  | n + 1, k, readLen, str =>
    if k.head ≠ k.tail ∧ readLen < maxLen then
      let r := readstdinLoop maxLen n { k with head := k.head + 1 } (readLen + 1)
        (Function.update str readLen (k.keyBuffer k.head))
      (r.1, r.2.1, (readLen, 1) :: r.2.2)
    else (readLen, str, [])

/-- The loop of `writestdout_handler`: what is put out, and the places read. -/
def writestdoutLoop (str : Buf) (maxLen : ℕ) : List UInt8 × List (ℕ × ℕ) :=
  ((List.range maxLen).map str, (List.range maxLen).map fun i => (i, 1))

/-- The calls of `memcpy` in the loop of `syscall_readfile`: where they write and how much. -/
def readCopies (s : FS) (inode : Inode) (maxLen : ℤ) : ℕ → ReadState → List (ℕ × ℕ)
  | 0, _ => []
  | n + 1, r =>
    if r.readLen < maxLen ∧ r.offset < inode.size then
      (r.readLen.toNat, (maxReadSize s inode maxLen r).toNat)
        :: readCopies s inode maxLen n (readRound s inode maxLen r)
    else []

/-- The calls of `memcpy` in the loop of `syscall_writefile`, up to a failed assertion. -/
def writeCopies (inodeOffset : ℕ) (str : Buf) (len : ℤ) (stack : ℕ → ℕ → Buf) :
    ℕ → WriteState → List (ℕ × ℕ)
  | 0, _ => []
  | n + 1, w =>
    if w.writeLen < len then
      (writeRound inodeOffset str len (stack n) w).elim [] fun w' =>
        (w.writeLen.toNat, (w'.writeLen - w.writeLen).toNat)
          :: writeCopies inodeOffset str len stack n w'
    else []

/-! ## The handlers -/

/-- A request for a buffer of the process, with what its handler works on. -/
inductive BufferRequest
  | readstdin (k : KeyBuffer)
  | writestdout
  | readfile (s : FS) (fcb : FCB) (fd : ℤ) (buffer : Buf)
  | writefile (s : FS) (fcb : FCB) (fd : ℤ) (buffer : Buf) (stack : ℕ → ℕ → Buf)

namespace BufferRequest

/-- The places of the buffer that the handler touches: starts and lengths, relative to the projected
address. `str` is what the buffer holds. -/
def copies (str : Buf) (n : ℕ) : BufferRequest → List (ℕ × ℕ)
  | readstdin k => (readstdinLoop n n k 0 str).2.2
  | writestdout => (writestdoutLoop str n).2
  | readfile s fcb fd buffer =>
    if !fcb.valid fd || !modeCanRead fcb.flags then []
    else
      let inode := loadInode s.disk fcb.inodeOffset
      if inode.size ≤ fcb.offset then []
      else
        readCopies s inode n n
          { offset := fcb.offset
            quotient := fcb.offset.tdiv s.superBlock.blockSize
            remainder := fcb.offset.tmod s.superBlock.blockSize
            readLen := 0
            buffer := buffer
            str := str }
  | writefile s fcb fd buffer stack =>
    if !fcb.valid fd || !modeCanWrite fcb.flags then []
    else
      writeCopies fcb.inodeOffset str n stack n
        { fs := s
          inode := loadInode s.disk fcb.inodeOffset
          offset := fcb.offset
          quotient := fcb.offset.tdiv s.superBlock.blockSize
          remainder := fcb.offset.tmod s.superBlock.blockSize
          writeLen := 0
          buffer := buffer }

/-- The handler: the addresses it touches, as starts and lengths. `none` is the failed assertion on
`cross_page`. -/
def handle (r : BufferRequest) (addr vaddr n : ℕ) (str : Buf) : Option (List (ℕ × ℕ)) :=
  let data := setupProjectionSpace addr vaddr
  if crossPage data (data + n) then none
  else some ((r.copies str n).map fun c => (data + c.1, c.2))

end BufferRequest

/-! ## Consecutive copies -/

/-- Copies that go through the places from `i` up to `k` without a gap. -/
def Consecutive : ℕ → List (ℕ × ℕ) → ℕ → Prop
  | i, [], k => i = k
  | i, c :: cs, k => c.1 = i ∧ 0 < c.2 ∧ Consecutive (i + c.2) cs k

/-- The place is one that a copy touches. -/
def Touched (cs : List (ℕ × ℕ)) (p : ℕ) : Prop := ∃ c ∈ cs, c.1 ≤ p ∧ p < c.1 + c.2

theorem Consecutive.le {cs : List (ℕ × ℕ)} {i k : ℕ} (h : Consecutive i cs k) : i ≤ k := by
  induction cs generalizing i with
  | nil => exact Nat.le_of_eq h
  | cons c cs ih =>
    have := ih h.2.2
    omega

theorem Consecutive.touched_iff {cs : List (ℕ × ℕ)} {i k p : ℕ} (h : Consecutive i cs k) :
    Touched cs p ↔ i ≤ p ∧ p < k := by
  induction cs generalizing i with
  | nil =>
    rw [Consecutive] at h
    refine iff_of_false ?_ (by omega)
    rintro ⟨c, hc, _⟩
    cases hc
  | cons c cs ih =>
    have ⟨hstart, hpos, hrest⟩ := h
    have hle := hrest.le
    have hcons : Touched (c :: cs) p ↔ (c.1 ≤ p ∧ p < c.1 + c.2) ∨ Touched cs p := by
      simp only [Touched, List.mem_cons, or_and_right, exists_or, exists_eq_left]
    rw [hcons, ih hrest]
    omega

/-- Copies of one byte each. -/
theorem consecutive_range' (i m : ℕ) :
    Consecutive i ((List.range' i m).map fun j => (j, 1)) (i + m) := by
  induction m generalizing i with
  | zero => rfl
  | succ m ih =>
    rw [List.range'_succ, List.map_cons]
    refine ⟨rfl, Nat.one_pos, ?_⟩
    have := ih (i + 1)
    rwa [Nat.add_right_comm] at this

/-! ## What the loops touch -/

/-- One key less is queued behind the head. -/
theorem queued_succ {h t : Fin maxKeybufferSize} (hne : h ≠ t) :
    (t - h).val = (t - (h + 1)).val + 1 := by
  have hne' : h.val ≠ t.val := fun heq => hne (Fin.ext heq)
  have hh : h.val < 64 := h.isLt
  have ht : t.val < 64 := t.isLt
  have hone : ((1 : Fin maxKeybufferSize) : ℕ) = 1 := rfl
  simp only [Fin.sub_def, Fin.val_add, hone, maxKeybufferSize]
  omega

theorem readstdinLoop_consecutive (maxLen n : ℕ) : ∀ (k : KeyBuffer) (readLen : ℕ) (str : Buf),
    readLen ≤ maxLen → maxLen ≤ readLen + n →
      Consecutive readLen (readstdinLoop maxLen n k readLen str).2.2
        (readLen + min (maxLen - readLen) (k.tail - k.head).val) := by
  induction n with
  | zero =>
    intro k readLen str hle hfuel
    show readLen = _
    omega
  | succ n ih =>
    intro k readLen str hle hfuel
    rw [readstdinLoop]
    by_cases hcond : k.head ≠ k.tail ∧ readLen < maxLen
    · rw [if_pos hcond]
      refine ⟨rfl, Nat.one_pos, ?_⟩
      have hrest := ih { k with head := k.head + 1 } (readLen + 1)
        (Function.update str readLen (k.keyBuffer k.head)) (by omega) (by omega)
      have hqueued := queued_succ hcond.1
      have hend : readLen + 1 + min (maxLen - (readLen + 1)) (k.tail - (k.head + 1)).val
          = readLen + min (maxLen - readLen) (k.tail - k.head).val := by
        omega
      rwa [hend] at hrest
    · rw [if_neg hcond]
      show readLen = _
      by_cases hempty : k.head = k.tail
      · have hqueued : (k.tail - k.tail).val = 0 := by simp
        rw [hempty, hqueued]
        omega
      · have : ¬ readLen < maxLen := fun hlt => hcond ⟨hempty, hlt⟩
        omega

/-- The number of bytes that are still to be read. -/
def readRest (inode : Inode) (maxLen : ℤ) (r : ReadState) : ℕ :=
  (min (maxLen - r.readLen) (inode.size - r.offset)).toNat

theorem readCopies_consecutive {s : FS} (hblock : 0 < s.superBlock.blockSize) (inode : Inode)
    (maxLen : ℤ) (n : ℕ) : ∀ r : ReadState,
    0 ≤ r.readLen → r.remainder < s.superBlock.blockSize → maxLen ≤ r.readLen + n →
      Consecutive r.readLen.toNat (readCopies s inode maxLen n r)
        (r.readLen.toNat + readRest inode maxLen r) := by
  induction n with
  | zero =>
    intro r hnonneg hrem hfuel
    rw [readCopies, readRest]
    show r.readLen.toNat = _
    omega
  | succ n ih =>
    intro r hnonneg hrem hfuel
    rw [readCopies]
    by_cases hcond : r.readLen < maxLen ∧ r.offset < inode.size
    · rw [if_pos hcond]
      have hsize : maxReadSize s inode maxLen r = min (s.superBlock.blockSize - r.remainder)
        (min (inode.size - r.offset) (maxLen - r.readLen)) := rfl
      have hpos : 0 < maxReadSize s inode maxLen r := by omega
      refine ⟨rfl, by omega, ?_⟩
      have hrest := ih (readRound s inode maxLen r) ?_ ?_ ?_
      · have hlen : (readRound s inode maxLen r).readLen = r.readLen + maxReadSize s inode maxLen r :=
          rfl
        have hoff : (readRound s inode maxLen r).offset = r.offset + maxReadSize s inode maxLen r :=
          rfl
        rw [readRest, hlen, hoff] at hrest
        rw [readRest, ← Int.toNat_add hnonneg hpos.le]
        convert hrest using 1
        omega
      · show 0 ≤ r.readLen + _
        omega
      · show (0 : ℤ) < s.superBlock.blockSize
        omega
      · show maxLen ≤ r.readLen + _ + _
        omega
    · rw [if_neg hcond, readRest]
      show r.readLen.toNat = _
      omega

/-! ## The size of a block -/

theorem takeBlock_blockSize (s : FS) :
    s.takeBlock.1.superBlock.blockSize = s.superBlock.blockSize := by
  rw [FS.takeBlock, getAvailBlock, getAvail]
  by_cases havail : s.superBlock.avail .block = 0
  · rw [if_pos havail, Option.map_none, Option.getD_none]
  · rw [if_neg havail, Option.map_some, Option.getD_some]
    exact commit_blockSize ..

/-- Whatever comes out has blocks of this size. -/
def HasBlockSize (v : ℕ) (x : Option (FS × Inode)) : Prop :=
  ∀ q, x = some q → q.1.superBlock.blockSize = v

theorem hasBlockSize_ite {v : ℕ} {c : Prop} [Decidable c] {x y : Option (FS × Inode)}
    (hx : HasBlockSize v x) (hy : HasBlockSize v y) : HasBlockSize v (if c then x else y) := by
  split
  · exact hx
  · exact hy

theorem hasBlockSize_finishAlloc {v : ℕ} {s : FS} (h : s.superBlock.blockSize = v) (inode : Inode)
    (o : ℕ) : HasBlockSize v (some (finishAlloc s inode o)) := by
  intro q hq
  rw [← Option.some.inj hq]
  exact h

theorem writeSectors_blockSize (s : FS) (b : ℕ) (buffer : Buf) :
    (s.writeSectors b buffer).superBlock.blockSize = s.superBlock.blockSize := rfl

/-- Every branch ends with `finishAlloc` after some calls of `getAvailBlock` and some writes, or
fails. -/
theorem allocLastBlock_blockSize (s : FS) (inode : Inode) (o b : ℕ) (stack : ℕ → Buf) :
    HasBlockSize s.superBlock.blockSize (allocLastBlock s inode o b stack) := by
  unfold allocLastBlock
  repeat' apply hasBlockSize_ite
  all_goals first
    | apply hasBlockSize_finishAlloc; simp only [writeSectors_blockSize, takeBlock_blockSize]
    | exact fun q hq => nomatch hq

theorem allocBlock_blockSize {s : FS} {inode : Inode} {o : ℕ} {stack : ℕ → Buf} {q : FS × Inode}
    (h : allocBlock s inode o stack = some q) :
    q.1.superBlock.blockSize = s.superBlock.blockSize := by
  rw [allocBlock] at h
  split_ifs at h
  rw [Option.some.injEq] at h
  rw [← h]
  cases hlast : allocLastBlock s.takeBlock.1 inode o s.takeBlock.2 stack with
  | none =>
    rw [Option.getD_none]
    exact takeBlock_blockSize s
  | some r =>
    rw [Option.getD_some, allocLastBlock_blockSize _ _ _ _ _ r hlast, takeBlock_blockSize]

/-- A pass of the loop of `syscall_writefile` copies at least one byte and at most what is left. -/
theorem writeRound_writeLen {o : ℕ} {str : Buf} {len : ℤ} {stack : ℕ → Buf} {w w' : WriteState}
    (h : writeRound o str len stack w = some w') (hlt : w.writeLen < len)
    (hrem : w.remainder < w.fs.superBlock.blockSize) (hblock : 0 < w.fs.superBlock.blockSize) :
    w.writeLen < w'.writeLen ∧ w'.writeLen ≤ len ∧ w'.remainder < w'.fs.superBlock.blockSize
      ∧ 0 < w'.fs.superBlock.blockSize := by
  have hchunk : ∀ v : WriteState, v.writeLen = w.writeLen → v.remainder = w.remainder →
      v.fs.superBlock.blockSize = w.fs.superBlock.blockSize →
      w.writeLen < (writeChunk str len v).writeLen ∧ (writeChunk str len v).writeLen ≤ len
        ∧ (writeChunk str len v).remainder < (writeChunk str len v).fs.superBlock.blockSize
        ∧ 0 < (writeChunk str len v).fs.superBlock.blockSize := by
    intro v hlen hremainder hsize
    have hn : (writeChunk str len v).writeLen
        = v.writeLen + min (v.fs.superBlock.blockSize - v.remainder) (len - v.writeLen) := rfl
    have hfs : (writeChunk str len v).fs.superBlock.blockSize = v.fs.superBlock.blockSize := by
      show ((writeBlock v.fs v.inode _ _).getD v.fs).superBlock.blockSize = _
      rw [writeBlock]
      cases blockSector v.fs v.inode v.quotient.toNat with
      | none => rfl
      | some b => rfl
    have hzero : (writeChunk str len v).remainder = 0 := rfl
    rw [hn, hfs, hzero]
    omega
  rw [writeRound] at h
  split_ifs at h
  · obtain ⟨q, hq, rfl⟩ := Option.map_eq_some_iff.mp h
    exact hchunk _ rfl rfl (allocBlock_blockSize hq)
  · rw [← Option.some.inj h]
    exact hchunk w rfl rfl rfl

theorem writeCopies_consecutive (o : ℕ) (str : Buf) (len : ℤ) (stack : ℕ → ℕ → Buf) (n : ℕ) :
    ∀ w : WriteState, 0 ≤ w.writeLen → w.writeLen ≤ len → len ≤ w.writeLen + n →
      w.remainder < w.fs.superBlock.blockSize → 0 < w.fs.superBlock.blockSize →
      ∃ k, Consecutive w.writeLen.toNat (writeCopies o str len stack n w) k ∧ (k : ℤ) ≤ len
        ∧ (writeLoop o str len stack n w ≠ none → (k : ℤ) = len) := by
  induction n with
  | zero =>
    intro w hnonneg hle hfuel _ _
    exact ⟨_, rfl, by omega, fun _ => by omega⟩
  | succ n ih =>
    intro w hnonneg hle hfuel hrem hblock
    rw [writeCopies, writeLoop]
    by_cases hcond : w.writeLen < len
    · rw [if_pos hcond, if_pos hcond]
      cases hround : writeRound o str len (stack n) w with
      | none => exact ⟨_, rfl, by omega, fun h => absurd rfl h⟩
      | some w' =>
        have ⟨hlt, hle', hrem', hblock'⟩ := writeRound_writeLen hround hcond hrem hblock
        have ⟨k, hrest, hk, hdone⟩ := ih w' (by omega) hle' (by omega) hrem' hblock'
        refine ⟨k, ⟨rfl, by omega, ?_⟩, hk, hdone⟩
        convert hrest using 1
        show w.writeLen.toNat + (w'.writeLen - w.writeLen).toNat = w'.writeLen.toNat
        omega
    · rw [if_neg hcond]
      exact ⟨_, rfl, by omega, fun _ => by omega⟩

/-! ## Buffers that stay in their page -/

namespace BufferRequest

/-- The file system that the handler works on is one with blocks. -/
def Mounted : BufferRequest → Prop
  | readfile s _ _ _ => 0 < s.superBlock.blockSize
  | writefile s _ _ _ _ => 0 < s.superBlock.blockSize
  | _ => True

/-- The number of bytes that a request for `n` bytes is about: no more than the keys that are queued,
or than the file has behind its offset, and none for a descriptor that does not allow it. -/
def demand (n : ℕ) : BufferRequest → ℕ
  | readstdin k => min n (k.tail - k.head).val
  | writestdout => n
  | readfile s fcb fd _ =>
    if !fcb.valid fd || !modeCanRead fcb.flags then 0
    else min n ((loadInode s.disk fcb.inodeOffset).size - fcb.offset).toNat
  | writefile _ fcb fd _ _ => if !fcb.valid fd || !modeCanWrite fcb.flags then 0 else n

/-- The request is carried out: no assertion on a new block fails. -/
def Completes (str : Buf) (n : ℕ) : BufferRequest → Prop
  | writefile s fcb fd buffer stack => syscallWritefile s fcb fd str n buffer stack ≠ none
  | _ => True

theorem copies_consecutive (r : BufferRequest) (hmounted : r.Mounted) (str : Buf) (n : ℕ) :
    ∃ k, Consecutive 0 (r.copies str n) k ∧ k ≤ r.demand n ∧ (r.Completes str n → k = r.demand n) := by
  cases r with
  | readstdin k =>
    have h := readstdinLoop_consecutive n n k 0 str (Nat.zero_le _) (by omega)
    rw [Nat.zero_add, Nat.sub_zero] at h
    exact ⟨_, h, le_rfl, fun _ => rfl⟩
  | writestdout =>
    have h := consecutive_range' 0 n
    rw [Nat.zero_add, ← List.range_eq_range'] at h
    exact ⟨n, h, le_rfl, fun _ => rfl⟩
  | readfile s fcb fd buffer =>
    rw [copies, demand]
    by_cases hvalid : (!fcb.valid fd || !modeCanRead fcb.flags) = true
    · rw [if_pos hvalid, if_pos hvalid]
      exact ⟨0, rfl, le_rfl, fun _ => rfl⟩
    rw [if_neg hvalid, if_neg hvalid]
    simp only
    by_cases hend : (loadInode s.disk fcb.inodeOffset).size ≤ fcb.offset
    · rw [if_pos hend]
      exact ⟨0, rfl, Nat.zero_le _, fun _ => by omega⟩
    rw [if_neg hend]
    have hrem : fcb.offset.tmod s.superBlock.blockSize < s.superBlock.blockSize := by
      have hpos : 0 < s.superBlock.blockSize := hmounted
      exact Int.tmod_lt_of_pos _ (by omega)
    have h := readCopies_consecutive hmounted (loadInode s.disk fcb.inodeOffset) n n
      ⟨fcb.offset, fcb.offset.tdiv s.superBlock.blockSize, fcb.offset.tmod s.superBlock.blockSize, 0,
        buffer, str⟩ le_rfl hrem (by simp)
    -- nothing is read yet, so the rest is all that the file has
    have hrest : readRest (loadInode s.disk fcb.inodeOffset) n ⟨fcb.offset,
        fcb.offset.tdiv s.superBlock.blockSize, fcb.offset.tmod s.superBlock.blockSize, 0, buffer, str⟩
        = min n ((loadInode s.disk fcb.inodeOffset).size - fcb.offset).toNat := by
      simp only [readRest]
      omega
    rw [hrest, Int.toNat_zero, Nat.zero_add] at h
    exact ⟨_, h, le_rfl, fun _ => rfl⟩
  | writefile s fcb fd buffer stack =>
    rw [copies, demand]
    by_cases hvalid : (!fcb.valid fd || !modeCanWrite fcb.flags) = true
    · rw [if_pos hvalid, if_pos hvalid]
      exact ⟨0, rfl, le_rfl, fun _ => rfl⟩
    rw [if_neg hvalid, if_neg hvalid]
    have hrem : fcb.offset.tmod s.superBlock.blockSize < s.superBlock.blockSize := by
      have hpos : 0 < s.superBlock.blockSize := hmounted
      exact Int.tmod_lt_of_pos _ (by omega)
    -- a write that fails for want of blocks has copied a part
    have ⟨k, hk, hle, hdone⟩ := writeCopies_consecutive fcb.inodeOffset str n stack n
      ⟨s, loadInode s.disk fcb.inodeOffset, fcb.offset, fcb.offset.tdiv s.superBlock.blockSize,
        fcb.offset.tmod s.superBlock.blockSize, 0, buffer⟩ le_rfl (by simp) (by simp) hrem hmounted
    refine ⟨k, hk, by omega, fun hcompletes => ?_⟩
    have := hdone fun hnone => hcompletes ?_
    · omega
    · rw [syscallWritefile, if_neg hvalid, Int.toNat_natCast, hnone, Option.map_none]

/-- Everything that the handler touches is in the page at `addr`, unless its assertion fails, and
the assertion does not fail for a buffer within a page. -/
def StaysInPage (r : BufferRequest) (addr vaddr n : ℕ) (str : Buf) : Prop :=
  (∀ cs, r.handle addr vaddr n str = some cs → ∀ p, Touched cs p → addr ≤ p ∧ p < addr + pageSize)
    ∧ (vaddr % pageSize + n ≤ pageSize → r.handle addr vaddr n str ≠ none)

theorem handle_eq (r : BufferRequest) (addr vaddr n : ℕ) (str : Buf) :
    r.handle addr vaddr n str
      = some ((r.copies str n).map fun c => (addr + vaddr % pageSize + c.1, c.2)) := by
  rw [handle]
  simp only [crossPage_eq_false, setupProjectionSpace_eq, Bool.false_eq_true, if_false]

theorem touched_shift (cs : List (ℕ × ℕ)) (i p : ℕ) :
    Touched (cs.map fun c => (i + c.1, c.2)) (i + p) ↔ Touched cs p := by
  simp only [Touched, List.mem_map]
  constructor
  · rintro ⟨_, ⟨c, hc, rfl⟩, h⟩
    exact ⟨c, hc, by omega⟩
  · rintro ⟨c, hc, h⟩
    exact ⟨_, ⟨c, hc, rfl⟩, by omega⟩

theorem le_of_touched_shift {cs : List (ℕ × ℕ)} {i p : ℕ}
    (h : Touched (cs.map fun c => (i + c.1, c.2)) p) : i ≤ p := by
  obtain ⟨_, hc, h, _⟩ := h
  obtain ⟨c, _, rfl⟩ := List.mem_map.mp hc
  omega

/-- The handler stays in the page when the first bytes of the buffer, as many as it copies, are in it. -/
theorem staysInPage_iff_of_consecutive {r : BufferRequest} {str : Buf} {n k : ℕ}
    (h : Consecutive 0 (r.copies str n) k) (addr vaddr : ℕ) :
    r.StaysInPage addr vaddr n str ↔ vaddr % pageSize + k ≤ pageSize := by
  have hmod : vaddr % pageSize < pageSize := Nat.mod_lt _ (by norm_num)
  rw [StaysInPage, handle_eq]
  constructor
  · rintro ⟨hin, _⟩
    by_contra hlt
    -- the last byte that is copied is touched
    have hlast : Touched (r.copies str n) (k - 1) := h.touched_iff.mpr ⟨Nat.zero_le _, by omega⟩
    have := hin _ rfl _ ((touched_shift _ (addr + vaddr % pageSize) _).mpr hlast)
    omega
  · intro hle
    refine ⟨?_, fun _ => by simp⟩
    intro cs hcs p hp
    rw [← Option.some.inj hcs] at hp
    have hi := le_of_touched_shift hp
    have hq : p = addr + vaddr % pageSize + (p - (addr + vaddr % pageSize)) := by omega
    rw [hq, touched_shift, h.touched_iff] at hp
    omega

/-- **User buffers.** A handler keeps to the page it has mapped, and its assertion lets every buffer
within a page pass, when the bytes that the request is about lie in one page; when the request is
carried out, only then. -/
theorem handler_staysInPage_iff (r : BufferRequest) (hmounted : r.Mounted) (addr vaddr n : ℕ)
    (str : Buf) :
    (vaddr % pageSize + r.demand n ≤ pageSize → r.StaysInPage addr vaddr n str)
      ∧ (r.Completes str n → r.StaysInPage addr vaddr n str →
          vaddr % pageSize + r.demand n ≤ pageSize) := by
  obtain ⟨k, hk, hle, hdone⟩ := r.copies_consecutive hmounted str n
  rw [staysInPage_iff_of_consecutive hk]
  refine ⟨fun h => by omega, fun hcompletes h => ?_⟩
  rwa [← hdone hcompletes]

/-- Putting out the last byte of a page. -/
theorem handler_staysInPage_iff_last : writestdout.StaysInPage 8192 4095 1 fun _ => 0 :=
  (handler_staysInPage_iff writestdout trivial 8192 4095 1 fun _ => 0).1 (by decide)

/-- Putting out two bytes from the last byte of a page on reads the first byte behind the page. -/
theorem writestdout_leaves_page : ¬ writestdout.StaysInPage 8192 4095 2 fun _ => 0 := by
  intro h
  have htouched : Touched [(12287, 1), (12288, 1)] 12288 := ⟨(12288, 1), by simp, by norm_num⟩
  have hin := h.1 [(12287, 1), (12288, 1)] rfl 12288 htouched
  exact absurd hin.2 (by decide)

end BufferRequest

end SeL4Sys
