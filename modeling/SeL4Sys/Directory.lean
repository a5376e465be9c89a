import SeL4Sys.DirOps
import SeL4Sys.FileContent

/-!
# Directories as tables of entries

A directory is a file that holds records of 128 bytes. Slot `t` is record `t`, counted over all
blocks; it is live when its inode number is not zero. The loops over a directory go through
the slots in order (`scanDir_spec`).
-/

namespace SeL4Sys

open Bytes CString Loop

variable {s : FS} {d : Disk} {ino : Inode} {t : ℕ}

/-- The number of slots of a directory. -/
def slots (ino : Inode) : ℕ := 8 * ino.blocks

/-- The inode number in slot `t`. -/
def slotInode (d : Disk) (ino : Inode) (t : ℕ) : ℕ := entryInode (fileFrom d ino (128 * t))

/-- The name in slot `t`. -/
def slotName (d : Disk) (ino : Inode) (t : ℕ) : List UInt8 :=
  cstr (entryName (fileFrom d ino (128 * t))) 64

/-- Slot `t` is in use. -/
def Live (d : Disk) (ino : Inode) (t : ℕ) : Prop := t < slots ino ∧ slotInode d ino t ≠ 0

/-- An entry is its 128 bytes. -/
theorem entryInode_congr {e e' : Buf} (h : ∀ i, i < 128 → e' i = e i) :
    entryInode e' = entryInode e :=
  leNat_congr 4 fun _ hj => h _ (by omega)

theorem entryString_congr {e e' : Buf} (h : ∀ i, i < 128 → e' i = e i) :
    cstr (entryName e') 64 = cstr (entryName e) 64 :=
  cstr_congr fun i hi => by
    rw [entryName, entryName, window_apply, window_apply]
    exact h _ (by omega)

/-- Block `k` of the directory is in the buffer. -/
def Holds (d : Disk) (ino : Inode) (k : ℕ) (b : Buf) : Prop :=
  ∀ i, i < 1024 → b i = fileByte d ino (1024 * k + i)

/-- Reading a block puts it into the buffer. -/
theorem holds_readBlock (d : Disk) (ino : Inode) (k : ℕ) (b : Buf) :
    Holds d ino k (patch b 0 1024 (window d ((dataNode k).sector d ino * 512))) := by
  intro i hi
  rw [patch_zero_apply hi, window_apply, fileByte, show (1024 * k + i) / 1024 = k by omega,
    show (1024 * k + i) % 1024 = i by omega]

/-- The entries in the buffer are the slots of the block. -/
theorem Holds.dirEntry_eq {k : ℕ} {b : Buf} (h : Holds d ino k b) (ht : t / 8 = k) {i : ℕ}
    (hi : i < 128) : dirEntry b (t % 8) i = fileFrom d ino (128 * t) i := by
  rw [dirEntry, window_apply, dirEntrySize, fileFrom, h _ (by omega)]
  congr 1
  omega

theorem Holds.entryInode_eq {k : ℕ} {b : Buf} (h : Holds d ino k b) (ht : t / 8 = k) :
    entryInode (dirEntry b (t % 8)) = slotInode d ino t :=
  entryInode_congr fun _ hi => h.dirEntry_eq ht hi

theorem Holds.entryName_eq {k : ℕ} {b : Buf} (h : Holds d ino k b) (ht : t / 8 = k) {i : ℕ}
    (hi : i < 64) : entryName (dirEntry b (t % 8)) i = entryName (fileFrom d ino (128 * t)) i := by
  rw [entryName, entryName, window_apply, window_apply, h.dirEntry_eq ht (by omega)]

/-! ## Setting an entry -/

section setEntry
variable {b : Buf} {j j' v : ℕ} {name : List UInt8}

/-- The other entries of the block are left alone. -/
theorem dirEntry_setEntryInode_of_ne (hne : j' ≠ j) {i : ℕ} (hi : i < 128) :
    dirEntry (setEntryInode b j v) j' i = dirEntry b j' i := by
  simp only [dirEntry, window_apply, setEntryInode, dirEntrySize]
  rw [patch_apply_out (by omega)]

theorem dirEntry_setEntry_of_ne (hne : j' ≠ j) {i : ℕ} (hi : i < 128) :
    dirEntry (setEntryInode (setEntryName b j name) j v) j' i = dirEntry b j' i := by
  rw [dirEntry_setEntryInode_of_ne hne hi]
  simp only [dirEntry, window_apply, setEntryName, dirEntrySize, nameLength]
  rw [patch_apply_out (by omega)]

theorem entryInode_setEntryInode (hv : v < 256 ^ 4) :
    entryInode (dirEntry (setEntryInode b j v) j) = v := by
  rw [entryInode, leNat_of_bytes (v := v), Nat.mod_eq_of_lt hv]
  intro i hi
  rw [Nat.zero_add, dirEntry, window_apply, setEntryInode, patch_apply_add hi]

theorem entryName_setEntry {i : ℕ} (hi : i < 64) :
    entryName (dirEntry (setEntryInode (setEntryName b j name) j v) j) i
      = strncpy (entryName (dirEntry b j)) (bufOf name) 64 i := by
  simp only [entryName, dirEntry, window_apply, setEntryInode, setEntryName, dirEntrySize,
    nameLength]
  rw [patch_apply_out (by omega), ← Nat.add_assoc, patch_apply_add hi]

/-- The name that is set is read back. -/
theorem cstr_setEntry (hname : ∀ x ∈ name, x ≠ 0) (hlen : name.length < 64) :
    cstr (entryName (dirEntry (setEntryInode (setEntryName b j name) j v) j)) 64 = name := by
  rw [cstr_congr fun i hi => entryName_setEntry hi]
  exact cstr_strncpy hname hlen

end setEntry

/-! ## The loop over the entries -/

theorem entriesPerBlock_eq (hf : Formatted s) : s.entriesPerBlock = 8 := by
  rw [FS.entriesPerBlock, hf.blockSize, dirEntrySize]

/-- How the loop ends: at the first slot that passes the test, or at the end of the directory with
the last block in the buffer. -/
inductive ScanSpec (d : Disk) (ino : Inode) (good : ℕ → Bool) (buffer : Buf) : Scan → Prop
  | found (t : ℕ) (b : Buf) (ht : t < slots ino) (hgood : good t = true)
      (hfirst : ∀ u, u < t → good u = false) (hb : Holds d ino (t / 8) b) :
      ScanSpec d ino good buffer (.found (t / 8) (t % 8) b)
  | missing (b : Buf) (hnone : ∀ t, t < slots ino → good t = false)
      (hlast : 0 < ino.blocks → Holds d ino (ino.blocks - 1) b)
      (hempty : ino.blocks = 0 → b = buffer) : ScanSpec d ino good buffer (.missing b)

/-- Reading a block leaves what follows it in memory alone. -/
def SameTail (b b' : Buf) : Prop := ∀ i, 1024 ≤ i → b' i = b i

theorem sameTail_patch (b v : Buf) : SameTail b (patch b 0 1024 v) := fun i hi => by
  rw [patch_apply_out (by omega)]

/-- The loop from block `i` on, when nothing was found before. -/
theorem scanEntries_spec (hf : Formatted s) (hcount : ino.blocks ≤ maxBlocks) {test : Buf → Bool}
    {good : ℕ → Bool} {buffer : Buf} (htest : ∀ t, t < slots ino → ∀ b, Holds s.disk ino (t / 8) b →
      SameTail buffer b → test (dirEntry b (t % 8)) = good t) (n : ℕ) :
    ∀ i b, i + n = ino.blocks → (∀ t, t < 8 * i → good t = false) →
      (0 < i → Holds s.disk ino (i - 1) b) → (i = 0 → b = buffer) → SameTail buffer b →
      ScanSpec s.disk ino good buffer (scanEntries s ino test n i b) := by
  induction n with
  | zero =>
    intro i b hi hnone hlast hempty _
    obtain rfl : i = ino.blocks := by omega
    exact .missing b hnone hlast hempty
  | succ n ih =>
    intro i b hi hnone _ _ htail
    have hk : i < maxBlocks := by omega
    rw [scanEntries, readBlock_eq hf hk, Option.elim_some, entriesPerBlock_eq hf]
    generalize hb' : patch b 0 1024 (window s.disk ((dataNode i).sector s.disk ino * 512)) = b'
    have hholds : Holds s.disk ino i b' := by
      rw [← hb']
      exact holds_readBlock _ _ _ _
    have htail' : SameTail buffer b' := by
      rw [← hb']
      exact fun i hi => (sameTail_patch _ _ i hi).trans (htail i hi)
    -- the tests on the entries of the block are the tests on its slots
    have hbreak : breakIndex 8 (fun j => test (dirEntry b' j))
        = breakIndex 8 fun j => good (8 * i + j) := by
      apply breakIndex_congr
      intro j hj
      have ht := htest (8 * i + j) (by unfold slots; omega) b'
      rw [show (8 * i + j) / 8 = i by omega, show (8 * i + j) % 8 = j by omega] at ht
      exact ht hholds htail'
    simp only [hbreak]
    by_cases hfound : breakIndex 8 (fun j => good (8 * i + j)) < 8
    · rw [if_pos hfound]
      have hgood := breakIndex_spec hfound
      have hmin := fun j (hj : j < breakIndex 8 fun j => good (8 * i + j)) =>
        breakIndex_min (p := fun j => good (8 * i + j)) hj
      generalize breakIndex 8 (fun j => good (8 * i + j)) = j at *
      have hspec : ScanSpec s.disk ino good buffer
          (.found ((8 * i + j) / 8) ((8 * i + j) % 8) b') := by
        apply ScanSpec.found
        · unfold slots
          omega
        · exact hgood
        · intro u hu
          rcases Nat.lt_or_ge u (8 * i) with hlt | hge
          · exact hnone u hlt
          · have := hmin (u - 8 * i) (by omega)
            rwa [show 8 * i + (u - 8 * i) = u by omega] at this
        · rwa [show (8 * i + j) / 8 = i by omega]
      rwa [show (8 * i + j) / 8 = i by omega, show (8 * i + j) % 8 = j by omega] at hspec
    · rw [if_neg hfound]
      apply ih (i + 1) b' (by omega)
      · intro u hu
        rcases Nat.lt_or_ge u (8 * i) with hlt | hge
        · exact hnone u hlt
        · have := breakIndex_min (n := 8) (p := fun j => good (8 * i + j)) (i := u - 8 * i) (by omega)
          rwa [show 8 * i + (u - 8 * i) = u by omega] at this
      · intro _
        exact hholds
      · intro h0
        omega
      · exact htail'

/-- The loop over all entries. The test may read past the end of the block. -/
theorem scanDir_tail_spec (hf : Formatted s) (hcount : ino.blocks ≤ maxBlocks) {test : Buf → Bool}
    {good : ℕ → Bool} {buffer : Buf} (htest : ∀ t, t < slots ino → ∀ b, Holds s.disk ino (t / 8) b →
      SameTail buffer b → test (dirEntry b (t % 8)) = good t) :
    ScanSpec s.disk ino good buffer (scanDir s ino test buffer) := by
  apply scanEntries_spec hf hcount htest ino.blocks 0 buffer (by omega)
  · intro t ht
    omega
  · intro h
    exact absurd h (lt_irrefl 0)
  · exact fun _ => rfl
  · exact fun _ _ => rfl

/-- The loop over all entries, with a test that reads its entry only. -/
theorem scanDir_spec (hf : Formatted s) (hcount : ino.blocks ≤ maxBlocks) {test : Buf → Bool}
    {good : ℕ → Bool} (htest : ∀ t, t < slots ino → ∀ b, Holds s.disk ino (t / 8) b →
      test (dirEntry b (t % 8)) = good t) (buffer : Buf) :
    ScanSpec s.disk ino good buffer (scanDir s ino test buffer) :=
  scanDir_tail_spec hf hcount fun t ht b hb _ => htest t ht b hb

theorem scanEntries_found_tail {test : Buf → Bool} {i j : ℕ} {b' : Buf} (hf : Formatted s)
    (hcount : ino.blocks ≤ maxBlocks) (n : ℕ) : ∀ k b, k + n = ino.blocks →
      scanEntries s ino test n k b = .found i j b' → SameTail b b' := by
  induction n with
  | zero =>
    intro k b _ hscan
    cases hscan
  | succ n ih =>
    intro k b hk hscan
    rw [scanEntries, readBlock_eq hf (by omega), Option.elim_some] at hscan
    simp only at hscan
    split_ifs at hscan with hfound
    · cases hscan
      exact sameTail_patch _ _
    · exact fun l hl => (ih _ _ (by omega) hscan l hl).trans (sameTail_patch _ _ l hl)

theorem scanDir_found_tail {test : Buf → Bool} {i j : ℕ} {b b' : Buf} (hf : Formatted s)
    (hcount : ino.blocks ≤ maxBlocks) (hscan : scanDir s ino test b = .found i j b') : SameTail b b' :=
  scanEntries_found_tail hf hcount ino.blocks 0 b (Nat.zero_add _) hscan

/-- The buffer when block `k` was read into it. -/
def blockIn (d : Disk) (ino : Inode) (buffer : Buf) (k : ℕ) : Buf := fun i =>
  if i < 1024 then fileByte d ino (1024 * k + i) else buffer i

theorem holds_blockIn (d : Disk) (ino : Inode) (buffer : Buf) (k : ℕ) :
    Holds d ino k (blockIn d ino buffer k) := fun _ hi => if_pos hi

theorem Holds.eq_blockIn {k : ℕ} {b buffer : Buf} (h : Holds d ino k b) (htail : SameTail buffer b) :
    b = blockIn d ino buffer k := by
  funext i
  unfold blockIn
  split_ifs with hi
  · exact h i hi
  · exact htail i (by omega)

/-- Whatever the test is, it is made on the blocks one after the other. -/
theorem scanDir_blockIn (hf : Formatted s) (hcount : ino.blocks ≤ maxBlocks) (test : Buf → Bool)
    (buffer : Buf) : ScanSpec s.disk ino
      (fun t => test (dirEntry (blockIn s.disk ino buffer (t / 8)) (t % 8))) buffer
      (scanDir s ino test buffer) :=
  scanDir_tail_spec hf hcount fun t _ b hb htail => by rw [hb.eq_blockIn htail]

/-! ## Enumerating the live entries -/

/-- The name and the inode number in slot `t`, when it is live. -/
def entryAt (d : Disk) (ino : Inode) (t : ℕ) : Option (List UInt8 × ℕ) :=
  if slotInode d ino t ≠ 0 then some (slotName d ino t, slotInode d ino t) else none

/-- The live entries of a directory in the order of the slots. -/
def liveEntries (d : Disk) (ino : Inode) : List (List UInt8 × ℕ) :=
  (List.range (slots ino)).filterMap (entryAt d ino)

/-- The name and the inode number of a record in memory. -/
def viewEntry (e : Buf) : List UInt8 × ℕ := (cstr (entryName e) 64, entryInode e)

theorem viewEntry_congr {e e' : Buf} (h : ∀ i, i < 128 → e' i = e i) :
    viewEntry e' = viewEntry e := by
  rw [viewEntry, viewEntry, entryString_congr h, entryInode_congr h]

theorem Holds.entryAt_eq {k : ℕ} {b : Buf} (h : Holds d ino k b) (ht : t / 8 = k) :
    entryAt d ino t = if entryInode (dirEntry b (t % 8)) ≠ 0 then some (viewEntry (dirEntry b (t % 8)))
      else none := by
  have hname : cstr (entryName (dirEntry b (t % 8))) 64 = slotName d ino t :=
    entryString_congr fun _ hi => h.dirEntry_eq ht hi
  rw [entryAt, viewEntry, hname, h.entryInode_eq ht]

/-- The live entries of a block in the buffer. -/
def liveIn (b : Buf) (j n : ℕ) : List ℕ :=
  (List.range' j n).filter fun l => entryInode (dirEntry b l) ≠ 0

/-- The inner loop of `getDirEntry` ends at the live entry of index `m`, or has counted all. -/
theorem liveLoop_eq (b : Buf) (n : ℕ) : ∀ (j m : ℕ) (c : ℤ), liveLoop b (c + m) n j c
    = (liveIn b j n)[m]?.elim (j + n, c + (liveIn b j n).length) fun l => (l, c + m) := by
  induction n with
  | zero =>
    intro j m c
    simp [liveLoop, liveIn]
  | succ n ih =>
    intro j m c
    rw [liveLoop]
    by_cases hlive : entryInode (dirEntry b j) ≠ 0
    · have hlist : liveIn b j (n + 1) = j :: liveIn b (j + 1) n := by
        rw [liveIn, List.range'_succ, List.filter_cons_of_pos (by simpa using hlive), liveIn]
      rw [if_pos hlive, hlist]
      cases m with
      | zero => simp
      | succ m =>
        have hindex : c + ((m + 1 : ℕ) : ℤ) = c + 1 + m := by
          push_cast
          ring
        rw [if_neg (by omega), hindex, ih, List.getElem?_cons_succ, List.length_cons]
        congr 1
        rw [Prod.mk.injEq]
        push_cast
        omega
    · have hlist : liveIn b j (n + 1) = liveIn b (j + 1) n := by
        rw [liveIn, List.range'_succ, List.filter_cons_of_neg (by simpa using hlive), liveIn]
      rw [if_neg hlive, hlist, ih, show j + 1 + n = j + (n + 1) by omega]

/-- The live entries of a block are those of its slots. -/
theorem Holds.map_liveIn {k : ℕ} {b : Buf} (h : Holds d ino k b) :
    (liveIn b 0 8).map (fun l => viewEntry (dirEntry b l))
      = (List.range' (8 * k) 8).filterMap (entryAt d ino) := by
  have hslots : List.range' (8 * k) 8 = (List.range' 0 8).map (8 * k + ·) := by
    rw [List.map_add_range', Nat.add_zero]
  rw [hslots, List.filterMap_map, liveIn, ← List.filterMap_eq_filter, List.map_filterMap]
  apply List.filterMap_congr
  intro l hl
  have hl' : l < 8 := by simpa using List.mem_range'_1.mp hl
  rw [Function.comp_apply, h.entryAt_eq (by omega), show (8 * k + l) % 8 = l by omega]
  by_cases hlive : entryInode (dirEntry b l) ≠ 0
  · simp [hlive]
  · simp [not_not.mp hlive]

/-- The outer loop from block `i` on. -/
theorem dirEntryLoop_eq (hf : Formatted s) (hcount : ino.blocks ≤ maxBlocks) (n : ℕ) :
    ∀ (i m : ℕ) (c : ℤ) (b : Buf), i + n = ino.blocks →
      (dirEntryLoop s ino (c + m) n i c b).map viewEntry
        = ((List.range' (8 * i) (8 * n)).filterMap (entryAt s.disk ino))[m]? := by
  induction n with
  | zero =>
    intro i m c b hi
    rfl
  | succ n ih =>
    intro i m c b hi
    rw [dirEntryLoop, readBlock_eq hf (by omega), Option.elim_some, entriesPerBlock_eq hf]
    generalize hb' : patch b 0 1024 (window s.disk ((dataNode i).sector s.disk ino * 512)) = b'
    have hholds : Holds s.disk ino i b' := by
      rw [← hb']
      exact holds_readBlock _ _ _ _
    have hsplit : List.range' (8 * i) (8 * (n + 1))
        = List.range' (8 * i) 8 ++ List.range' (8 * (i + 1)) (8 * n) := by
      rw [show 8 * (n + 1) = 8 + 8 * n by ring, ← List.range'_append_1,
        show 8 * (i + 1) = 8 * i + 8 by ring]
    rw [hsplit, List.filterMap_append, ← hholds.map_liveIn, List.getElem?_append, List.length_map]
    have hloop := liveLoop_eq b' 8 0 m c
    by_cases hm : m < (liveIn b' 0 8).length
    · -- the entry is in this block
      rw [List.getElem?_eq_getElem hm, Option.elim_some] at hloop
      have hl : (liveIn b' 0 8)[m] < 8 := by
        have := List.mem_of_mem_filter (List.getElem_mem hm)
        simpa using List.mem_range'_1.mp this
      simp only [hloop]
      rw [if_pos hl, if_pos hm, List.getElem?_map, List.getElem?_eq_getElem hm]
      rfl
    · -- all live entries of the block are counted
      rw [List.getElem?_eq_none (by omega), Option.elim_none] at hloop
      simp only [hloop]
      rw [if_neg (by omega), if_neg hm]
      have hindex : c + (m : ℤ)
          = c + ((liveIn b' 0 8).length : ℤ) + ((m - (liveIn b' 0 8).length : ℕ) : ℤ) := by
        omega
      rw [hindex, ih (i + 1) _ _ b' (by omega)]

/-- `getDirEntry` returns the live entries in order. -/
theorem getDirEntry_eq (hf : Formatted s) (hcount : ino.blocks ≤ maxBlocks) (k : ℕ)
    (name buffer : Buf) :
    (getDirEntry s ino k name buffer).map (fun e => (cstr e.2 64, e.1))
      = (liveEntries s.disk ino)[k]? := by
  have hloop := dirEntryLoop_eq hf hcount ino.blocks 0 k 0 buffer (Nat.zero_add _)
  rw [Int.zero_add, Nat.mul_zero, ← List.range_eq_range'] at hloop
  rw [liveEntries, slots, ← hloop, getDirEntry, Option.map_map]
  congr 1
  funext e
  rw [Function.comp_apply, viewEntry, nameLength, cstr_strncpy_self]

/-- `getDirEntry` at index 0 fails when no slot is live. -/
theorem getDirEntry_zero_eq_none_iff (hf : Formatted s) (hcount : ino.blocks ≤ maxBlocks)
    (name buffer : Buf) :
    getDirEntry s ino 0 name buffer = none ↔ ∀ t, ¬ Live s.disk ino t := by
  have hget := getDirEntry_eq hf hcount 0 name buffer
  rw [← Option.map_eq_none_iff, show (0 : ℤ) = ((0 : ℕ) : ℤ) from rfl, hget,
    List.getElem?_eq_none_iff, Nat.le_zero, List.length_eq_zero_iff, liveEntries,
    List.filterMap_eq_nil_iff]
  constructor
  · intro hall t ht
    have := hall t (List.mem_range.mpr ht.1)
    rw [entryAt, if_pos ht.2] at this
    cases this
  · intro hall t ht
    rw [entryAt, if_neg fun hne => hall t ⟨List.mem_range.mp ht, hne⟩]

end SeL4Sys
