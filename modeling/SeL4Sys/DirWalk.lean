import SeL4Sys.Lookup
import SeL4Sys.Pagefile

/-!
# Walking through a directory

`ls` and `pagefile_init` call `getDirEntry` for the indices 0, 1, 2 and so on until it returns -1.
`getDirEntry` has an entry for exactly the indices of the live entries, whatever holes there are
between them, so the loops go through the live entries in the order of their slots.
-/

namespace SeL4Sys

open Bytes CString

variable {s : FS} {ino : Inode} {σ : Type*} {k c : ℤ} {n : ℕ}

/-! ## The loops over a directory -/

/-- The loop `for (i = 0; getDirEntry(.., i, &dir) == 0; ++i)` from index `i` on. `name` is what the
field `name` of `dir` holds, and the arrays of `getDirEntry` hold anything. The body gets the string in
`dir.name`, up to the size of the field, and `dir.inode`; `none` is an access outside an array. -/
def forEntries (s : FS) (inode : Inode) (buffers : ℕ → Buf)
    (body : σ → List UInt8 × ℕ → Option σ) : ℕ → ℕ → Buf → σ → Option σ
  | 0, _, _, _ => none
  | fuel + 1, i, name, a =>
    match getDirEntry s inode i name (buffers i) with
    | none => some a
    | some dir =>
      (body a (cstr dir.2 nameLength, dir.1)).bind
        (forEntries s inode buffers body fuel (i + 1) dir.2)

/-- The body of the loop of `ls`: `strcat` of the name and of a space. A name that fills its field is
read on behind it. -/
def lsEntry (buf : List UInt8) (dir : List UInt8 × ℕ) : Option (List UInt8) :=
  if dir.1.length < nameLength then some (buf ++ dir.1 ++ [32]) else none

/-- `ls`, with the loop run at most `fuel` times. `none` is a failed assertion, or an access outside
an array. -/
def ls (s : FS) (filename buf : List UInt8) (inode : Inode) (lookupBuffer name : Buf)
    (buffers : ℕ → Buf) (fuel : ℕ) : Option (List UInt8) :=
  let r := readInode s inode filename lookupBuffer
  if r.ret = 0 then forEntries s r.destInode buffers lsEntry fuel 0 name buf else none

/-- The body of the loop of `pagefile_init`, with `sprintf` into the array `name` of the pagefile. -/
def pagefileEntry (w : Swap) (dir : List UInt8 × ℕ) : Option Swap :=
  if (entryPath dir.1).length < pagefileNameSize then some (w.addEntry dir.1) else none

/-- `pagefile_init` on a disk, with the loop run at most `fuel` times. It does not look at what
`readInode` returns. -/
def pagefileInitDisk (s : FS) (inode : Inode) (lookupBuffer name : Buf) (buffers : ℕ → Buf)
    (fuel : ℕ) : Option Swap :=
  forEntries s (readInode s inode pagefilePath lookupBuffer).destInode buffers pagefileEntry fuel 0
    name ⟨[], 0⟩

/-! ## Negative indices -/

/-- The count of live entries does not meet an index that is smaller already. -/
theorem liveLoop_of_lt {b : Buf} (h : k < c) {j : ℕ} :
    (liveLoop b k n j c).1 = j + n ∧ k < (liveLoop b k n j c).2 := by
  induction n generalizing j c with
  | zero => exact ⟨rfl, h⟩
  | succ n ih =>
    unfold liveLoop
    split_ifs with hlive heq
    · omega
    · rw [(ih (by omega)).1]
      exact ⟨by omega, (ih (by omega)).2⟩
    · rw [(ih h).1]
      exact ⟨by omega, (ih h).2⟩

theorem dirEntryLoop_of_lt (h : k < c) {i : ℕ} {b : Buf} : dirEntryLoop s ino k n i c b = none := by
  induction n generalizing i c b with
  | zero => rfl
  | succ n ih =>
    unfold dirEntryLoop
    cases readBlock s ino i b with
    | none => rfl
    | some b' =>
      obtain ⟨hend, hcount⟩ := liveLoop_of_lt (b := b') (n := s.entriesPerBlock) (j := 0) h
      rw [Option.elim_some]
      simp only [hend]
      rw [if_neg (by omega)]
      exact ih hcount

/-- `getDirEntry` at any index. -/
theorem getDirEntry_int (hf : Formatted s) (hcount : ino.blocks ≤ maxBlocks) (k : ℤ)
    (name buffer : Buf) :
    (getDirEntry s ino k name buffer).map (fun dir => (cstr dir.2 nameLength, dir.1))
      = if 0 ≤ k then (liveEntries s.disk ino)[k.toNat]? else none := by
  by_cases hk : 0 ≤ k
  · rw [if_pos hk, ← getDirEntry_eq hf hcount k.toNat name buffer, Int.toNat_of_nonneg hk]
  · unfold getDirEntry
    rw [if_neg hk, dirEntryLoop_of_lt (by omega)]
    rfl

/-! ## What the loops come to -/

/-- The loop from index `i` on goes through the live entries from there, by induction on the
iterations that are left. -/
theorem forEntries_drop (hf : Formatted s) (hcount : ino.blocks ≤ maxBlocks) {buffers : ℕ → Buf}
    {body : σ → List UInt8 × ℕ → Option σ} {fuel i : ℕ} {name : Buf} {a : σ}
    (hfuel : (liveEntries s.disk ino).length < i + fuel) (hi : i ≤ (liveEntries s.disk ino).length) :
    forEntries s ino buffers body fuel i name a
      = ((liveEntries s.disk ino).drop i).foldlM body a := by
  induction fuel generalizing i name a with
  | zero => omega
  | succ fuel ih =>
    have hget := getDirEntry_eq hf hcount i name (buffers i)
    unfold forEntries
    match hdir : getDirEntry s ino i name (buffers i) with
    | none =>
      rw [hdir] at hget
      have hlast := List.getElem?_eq_none_iff.mp hget.symm
      rw [List.drop_eq_nil_of_le hlast]
      rfl
    | some dir =>
      rw [hdir, Option.map_some] at hget
      have ⟨hlt, hentry⟩ := List.getElem?_eq_some_iff.mp hget.symm
      rw [List.drop_eq_getElem_cons hlt, hentry, List.foldlM_cons]
      -- the rest of the loop for whatever the body leaves
      have hrest : forEntries s ino buffers body fuel (i + 1) dir.2
          = fun a' => ((liveEntries s.disk ino).drop (i + 1)).foldlM body a' :=
        funext fun _ => ih (by omega) (by omega)
      show (body a (cstr dir.2 nameLength, dir.1)).bind _ = _
      rw [hrest]
      rfl

theorem forEntries_eq (hf : Formatted s) (hcount : ino.blocks ≤ maxBlocks) (buffers : ℕ → Buf)
    (body : σ → List UInt8 × ℕ → Option σ) {fuel : ℕ} (name : Buf) (a : σ)
    (hfuel : (liveEntries s.disk ino).length < fuel) :
    forEntries s ino buffers body fuel 0 name a = (liveEntries s.disk ino).foldlM body a :=
  forEntries_drop hf hcount (by omega) (Nat.zero_le _)

/-- `pagefile_init` for the names in the directory. -/
theorem foldlM_pagefileEntry (l : List (List UInt8 × ℕ)) (w : Swap) :
    l.foldlM pagefileEntry w
      = if ∀ name ∈ l.map Prod.fst, (entryPath name).length < pagefileNameSize then
          some ((l.map Prod.fst).foldl Swap.addEntry w)
        else none := by
  induction l generalizing w with
  | nil => rfl
  | cons dir l ih =>
    rw [List.foldlM_cons, pagefileEntry]
    simp only [List.map_cons, List.forall_mem_cons]
    by_cases hfit : (entryPath dir.1).length < pagefileNameSize
    · rw [if_pos hfit]
      show l.foldlM pagefileEntry (w.addEntry dir.1) = _
      rw [ih]
      simp only [hfit, true_and, List.foldl_cons]
    · rw [if_neg hfit, if_neg fun h => hfit h.1]
      rfl

/-- `pagefile_init` on a disk is the one for the names in the directory that `readInode` leaves. -/
theorem pagefileInitDisk_eq {inode : Inode} {lookupBuffer name : Buf} {buffers : ℕ → Buf} {fuel : ℕ}
    (hf : Formatted s) (hino : (readInode s inode pagefilePath lookupBuffer).destInode = ino)
    (hcount : ino.blocks ≤ maxBlocks) (hfuel : (liveEntries s.disk ino).length < fuel) :
    pagefileInitDisk s inode lookupBuffer name buffers fuel
      = pagefileInit ((liveEntries s.disk ino).map Prod.fst) := by
  unfold pagefileInitDisk
  rw [hino, forEntries_eq hf hcount _ _ _ _ hfuel, foldlM_pagefileEntry, pagefileInit]

/-- What `ls` and `pagefile_init` do with a directory. -/
structure WalksThrough (s : FS) (ino : Inode) (l : List (List UInt8 × ℕ)) : Prop where
  ls : ∀ filename buf inode lookupBuffer name buffers fuel,
    (readInode s inode filename lookupBuffer).ret = 0 →
    (readInode s inode filename lookupBuffer).destInode = ino → l.length < fuel →
    SeL4Sys.ls s filename buf inode lookupBuffer name buffers fuel = l.foldlM lsEntry buf
  pagefiles : ∀ inode lookupBuffer name buffers fuel,
    (readInode s inode pagefilePath lookupBuffer).destInode = ino → l.length < fuel →
    pagefileInitDisk s inode lookupBuffer name buffers fuel = pagefileInit (l.map Prod.fst)

/-- The entries that `getDirEntry` returns are the live entries, one for each index, the loops over
them take each of them once, and a directory is empty for `is_empty_dir` if none is live. -/
theorem getDirEntry_enumerates (hf : Formatted s) {n : ℕ} (hblocks : ino.blockCount = n)
    (hn : n ≤ maxBlocks) :
    (∀ (k : ℤ) (name buffer : Buf),
      (getDirEntry s ino k name buffer).map (fun dir => (cstr dir.2 nameLength, dir.1))
        = if 0 ≤ k then (liveEntries s.disk ino)[k.toNat]? else none)
      ∧ WalksThrough s ino (liveEntries s.disk ino)
      ∧ ∀ l : Locals, isEmptyDir s ino l = true ↔ ∀ t, ¬ Live s.disk ino t := by
  have hcount : ino.blocks ≤ maxBlocks := by
    unfold Inode.blocks
    rw [hblocks, Int.toNat_natCast]
    exact hn
  refine ⟨getDirEntry_int hf hcount, ⟨?_, ?_⟩, ?_⟩
  · intro filename buf inode lookupBuffer name buffers fuel hret hino hfuel
    unfold SeL4Sys.ls
    rw [if_pos hret, hino, forEntries_eq hf hcount _ _ _ _ hfuel]
  · intro inode lookupBuffer name buffers fuel hino hfuel
    exact pagefileInitDisk_eq hf hino hcount hfuel
  · intro l
    rw [isEmptyDir, Option.isNone_iff_eq_none]
    exact getDirEntry_zero_eq_none_iff hf hcount _ _

/-- The root directory with one entry. -/
theorem getDirEntry_enumerates_one :
    let s := treeFS [97]
    (∀ (k : ℤ) (name buffer : Buf),
      (getDirEntry s oneBlockDir k name buffer).map (fun dir => (cstr dir.2 nameLength, dir.1))
        = if 0 ≤ k then (liveEntries s.disk oneBlockDir)[k.toNat]? else none)
      ∧ WalksThrough s oneBlockDir (liveEntries s.disk oneBlockDir)
      ∧ ∀ l : Locals, isEmptyDir s oneBlockDir l = true ↔ ∀ t, ¬ Live s.disk oneBlockDir t :=
  getDirEntry_enumerates (treeFS_formatted _) (n := 1) rfl (by decide)

end SeL4Sys
