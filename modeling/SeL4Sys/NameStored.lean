import SeL4Sys.EntryAdded

/-!
# The stored name of a new entry

`allocInode` stores a name with `strncpy` into a field of 64 bytes, and a lookup compares as many bytes
as the name has. A longer name is compared with what follows the field: the rest of the entry, the
entries behind it, and the memory behind the block. So the search in the directory ends at the new entry
when the bytes that stood there are those of the rest of the name, and only then.
-/

namespace SeL4Sys

open Bytes CString Loop

variable {s s' : FS} {d : Disk} {ino : Inode} {o x i j k t : ℕ} {b b' buffer e e' : Buf}
  {n : List UInt8}

/-! ## Entries that a name is not found at -/

/-- The entry is empty, or its field has another byte than the name. -/
def Differs (e : Buf) (n : List UInt8) : Prop :=
  entryInode e = 0 ∨ ∃ k, k < 64 ∧ ∃ hk : k < n.length, entryName e k ≠ n[k]

theorem Differs.congr (hdiff : Differs e n) (h : ∀ i, i < 128 → e' i = e i) : Differs e' n := by
  rcases hdiff with hzero | ⟨k, hk, hlen, hne⟩
  · left
    rw [entryInode_congr h, hzero]
  · right
    refine ⟨k, hk, hlen, ?_⟩
    rw [entryName, window_apply] at hne ⊢
    rw [h _ (by omega)]
    exact hne

/-- A comparison with a name has to find every byte of it. -/
theorem matchesName_iff (hn : ∀ y ∈ n, y ≠ 0) :
    matchesName n n.length e = true
      ↔ entryInode e ≠ 0 ∧ ∀ k (hk : k < n.length), entryName e k = n[k] := by
  have hne : ∀ k, k < n.length → bufOf n k ≠ 0 := by
    intro k hk
    rw [bufOf_getElem hk]
    exact hn _ (List.getElem_mem hk)
  rw [matchesName, Bool.and_eq_true, bne_iff_ne, beq_iff_eq, strncmp_eq_zero_iff hne]
  refine and_congr_right fun _ => forall₂_congr fun k hk => ?_
  rw [bufOf_getElem hk]

theorem Differs.not_matches (hdiff : Differs e n) (hn : ∀ y ∈ n, y ≠ 0) :
    matchesName n n.length e = false := by
  rw [Bool.eq_false_iff, ne_eq, matchesName_iff hn]
  rintro ⟨hlive, hbytes⟩
  rcases hdiff with hzero | ⟨k, _, hk, hne⟩
  · exact hlive hzero
  · exact hne (hbytes k hk)

/-- The slots of a directory in which the name is not found. The names in use end within their field, so
the field alone tells a longer name apart. -/
theorem DirOk.differs (hdir : DirOk d ino) (hn : ∀ y ∈ n, y ≠ 0) (hnone : firstBegins d ino n = none)
    (ht : t < slots ino) : Differs (fileFrom d ino (128 * t)) n := by
  by_contra hsame
  rw [Differs, not_or] at hsame
  have ⟨hlive, hbytes⟩ := hsame
  have hshort := hdir.short t ⟨ht, hlive⟩
  have hbegin : n.take 64 <+: slotName d ino t := by
    refine (strncmp_eq_zero_iff_isPrefix (fun y hy => hn y (List.mem_of_mem_take hy))
      (fun i _ => rfl) hshort).mp ((strncmp_eq_zero_iff fun k hk => ?_).mpr fun k hk => ?_)
    · rw [bufOf_getElem hk]
      exact hn _ (List.mem_of_mem_take (List.getElem_mem hk))
    · rw [List.length_take] at hk
      rw [bufOf_getElem (by rw [List.length_take]; exact hk), List.getElem_take]
      by_contra hne
      exact hbytes ⟨k, by omega, by omega, hne⟩
  -- a name of 64 characters or more would begin with one that ends within the field
  have hlen : n.length < 64 := by
    have := hbegin.length_le
    rw [List.length_take] at this
    omega
  rw [List.take_of_length_le hlen.le] at hbegin
  exact Live.firstBegins_ne_none ⟨ht, hlive⟩ hbegin hnone

/-! ## The place of the new entry -/

/-- The first free slot of a directory, its number of slots if there is none. -/
def freeSlot (d : Disk) (ino : Inode) : ℕ := breakIndex (slots ino) fun t => slotInode d ino t == 0

/-- What stands in memory, before the entry is set, where a comparison with the entry reads byte `k` of
the name. A new block is a copy of the last one in the buffer, or of the memory it is in. Past the end of
the block there is nothing that stays. -/
def byteBefore (d : Disk) (ino : Inode) (buffer : Buf) (k : ℕ) : Option UInt8 :=
  let t := freeSlot d ino
  if 1024 ≤ 128 * (t % 8) + 4 + k then none
  else if t < slots ino then some (fileByte d ino (128 * t + 4 + k))
  else if 0 < ino.blocks then some (fileByte d ino (1024 * (ino.blocks - 1) + 4 + k))
  else some (buffer (4 + k))

/-- The bytes of the name that do not fit the field stand behind it. -/
def NameKept (d : Disk) (ino : Inode) (buffer : Buf) (n : List UInt8) : Prop :=
  ∀ k (hk : k < n.length), 64 ≤ k → byteBefore d ino buffer k = some n[k]

/-- A name that fits. -/
theorem nameKept_of_length (hlen : n.length ≤ 64) : NameKept d ino buffer n := by
  intro k hk hge
  omega

/-- Where the entry goes, and what the buffer holds then. -/
structure PlaceSpec (d : Disk) (ino : Inode) (buffer : Buf) (i j : ℕ) (b : Buf) : Prop where
  entry : j < 8
  slot : 8 * i + j = freeSlot d ino
  le : i ≤ ino.blocks
  first : i = ino.blocks → j = 0
  old : i < ino.blocks → Holds d ino i b
  last : i = ino.blocks → 0 < ino.blocks → Holds d ino (ino.blocks - 1) b
  empty : ino.blocks = 0 → b = buffer

theorem EntryPlace.spec (hf : Formatted s) (hdir : DirOk s.disk ino) (hn : ∀ y ∈ n, y ≠ 0)
    (hplace : EntryPlace s ino n buffer i j b) :
    PlaceSpec s.disk ino buffer i j b := by
  have hspec := scanDir_spec hf hdir.count (fun t ht b hb => stopsAlloc_eq hdir hn ht hb) buffer
  cases hplace with
  | slot hscan hempty =>
    rw [hscan] at hspec
    cases hspec with
    | found t _ ht hgood hfirst hb =>
      -- the search stops at a free slot, or at an entry with the name
      have hzero : slotInode s.disk ino t = 0 := by
        rw [← hb.entryInode_eq rfl]
        exact hempty
      have hfree : freeSlot s.disk ino = t := by
        apply breakIndex_eq ht
        · rw [hzero]
          rfl
        · intro u hu
          have := hfirst u hu
          rw [Bool.or_eq_false_iff, decide_eq_false_iff_not] at this
          exact beq_false_of_ne this.1
      have hlt := ht
      unfold slots at hlt
      exact
        { entry := Nat.mod_lt _ (by decide)
          slot := by
            rw [hfree]
            omega
          le := by omega
          first := fun heq => by omega
          old := fun _ => hb
          last := fun heq => by omega
          empty := fun heq => by omega }
  | block hscan =>
    rw [hscan] at hspec
    cases hspec with
    | missing _ hfull hlast hempty =>
      -- no slot is free: the buffer still holds the last block that was read
      have hfree : freeSlot s.disk ino = slots ino := by
        apply breakIndex_eq_bound
        intro u hu
        have := hfull u hu
        rw [Bool.or_eq_false_iff, decide_eq_false_iff_not] at this
        exact beq_false_of_ne this.1
      exact
        { entry := by decide
          slot := by rw [hfree, slots, Nat.add_zero]
          le := le_rfl
          first := fun _ => rfl
          old := fun hlt => absurd hlt (lt_irrefl _)
          last := fun _ => hlast
          empty := hempty }

/-- The byte in the buffer. -/
theorem PlaceSpec.byteBefore_eq (h : PlaceSpec d ino buffer i j b) (hk : 128 * j + 4 + k < 1024) :
    byteBefore d ino buffer k = some (b (128 * j + 4 + k)) := by
  have hj := h.entry
  have hmod : (8 * i + j) % 8 = j := by omega
  unfold byteBefore slots
  simp only [← h.slot, hmod]
  rw [if_neg (by omega)]
  by_cases hi : i < ino.blocks
  · rw [if_pos (by omega), h.old hi _ hk]
    congr 2
    omega
  -- the first entry of a new block
  · have heq : i = ino.blocks := le_antisymm h.le (by omega)
    have hzero := h.first heq
    rw [if_neg (by omega)]
    by_cases hpos : 0 < ino.blocks
    · rw [if_pos hpos, h.last heq hpos _ hk]
      congr 2
      omega
    · rw [if_neg hpos, h.empty (by omega), hzero, Nat.mul_zero, Nat.zero_add]

theorem PlaceSpec.byteBefore_none (h : PlaceSpec d ino buffer i j b) (hk : 1024 ≤ 128 * j + 4 + k) :
    byteBefore d ino buffer k = none := by
  have hj := h.entry
  have hmod : (8 * i + j) % 8 = j := by omega
  unfold byteBefore
  simp only [← h.slot, hmod]
  exact if_pos hk

/-! ## The directory with the new entry -/

/-- A new block brings no entry with the name besides the new one: it is a copy of a block of the
directory, or no other entry in memory has it. -/
def CleanBlock (ino : Inode) (buffer : Buf) (n : List UInt8) : Prop :=
  0 < ino.blocks ∨ ∀ l, 1 ≤ l → l < 8 → Differs (dirEntry buffer l) n

/-- The name is not at any other entry in the buffer. -/
theorem PlaceSpec.differs (h : PlaceSpec d ino buffer i j b) (hdir : DirOk d ino)
    (hn : ∀ y ∈ n, y ≠ 0) (hnone : firstBegins d ino n = none) {l : ℕ} (hl : l < 8) (hne : l ≠ j)
    (hclean : l < j ∨ CleanBlock ino buffer n) : Differs (dirEntry b l) n := by
  -- the entry of a block of the directory
  have hslot : ∀ {k}, k < ino.blocks → Holds d ino k b → Differs (dirEntry b l) n := by
    intro k hk hholds
    have hdiff := hdir.differs hn hnone (t := 8 * k + l) (by unfold slots; omega)
    refine hdiff.congr fun m hm => ?_
    have := hholds.dirEntry_eq (t := 8 * k + l) (by omega) hm
    rwa [show (8 * k + l) % 8 = l by omega] at this
  rcases Nat.lt_or_ge i ino.blocks with hi | hge
  · exact hslot hi (h.old hi)
  · have heq := le_antisymm h.le hge
    have hzero := h.first heq
    rcases Nat.eq_zero_or_pos ino.blocks with hblocks | hpos
    · rw [h.empty hblocks]
      rcases hclean with hlt | hpos | hmem
      · omega
      · omega
      · exact hmem l (by omega) hl
    · exact hslot (by omega) (h.last heq hpos)

section added
variable (hadd : EntryAdded s s' o x i j b n)
  (hspec : PlaceSpec s.disk (loadInode s.disk o) buffer i j b)

include hadd hspec

/-- The slot of the new entry is a slot. -/
theorem EntryAdded.slot_lt : 8 * i + j < slots (loadInode s'.disk o) := by
  have := hspec.entry
  rw [slots, hadd.blocks]
  omega

theorem EntryAdded.blocks_le (hmax : (loadInode s.disk o).blocks < maxBlocks) :
    (loadInode s'.disk o).blocks ≤ maxBlocks := by
  have := hspec.le
  rw [hadd.blocks]
  omega

/-- Every other slot differs from the name, and the ones in front of the new one in any case. -/
theorem EntryAdded.differs (hdir : DirOk s.disk (loadInode s.disk o)) (hn : ∀ y ∈ n, y ≠ 0)
    (hnone : firstBegins s.disk (loadInode s.disk o) n = none) (ht : t < slots (loadInode s'.disk o))
    (hne : t ≠ 8 * i + j) (hclean : t < 8 * i + j ∨ CleanBlock (loadInode s.disk o) buffer n)
    (hb : Holds s'.disk (loadInode s'.disk o) (t / 8) b') : Differs (dirEntry b' (t % 8)) n := by
  have hj := hspec.entry
  have hle := hspec.le
  rw [slots, hadd.blocks] at ht
  by_cases hblock : t / 8 = i
  · -- the block of the new entry
    have hdiff := hspec.differs hdir hn hnone (l := t % 8) (Nat.mod_lt _ (by decide)) (by omega)
      (hclean.imp_left fun hlt => by omega)
    refine hdiff.congr fun m hm => ?_
    rw [hblock] at hb
    have hother : dirEntry (setEntryInode (setEntryName b j n) j x) (t % 8) m = dirEntry b (t % 8) m :=
      dirEntry_setEntry_of_ne (by omega) hm
    rw [← hother]
    simp only [dirEntry, window_apply, dirEntrySize]
    rw [hb _ (by omega), hadd.block _ (by omega)]
  · -- a block that is as it was
    have hdiff := hdir.differs hn hnone (t := t) (by unfold slots; omega)
    refine hdiff.congr fun m hm => ?_
    rw [hb.dirEntry_eq rfl hm, fileFrom, fileFrom, hadd.old _ (by omega) (by omega)]

/-- The bytes of the new entry that a comparison with the name reads. -/
theorem EntryAdded.entryName_eq (hn : ∀ y ∈ n, y ≠ 0) (hb : Holds s'.disk (loadInode s'.disk o) i b')
    (hk : k < n.length) : entryName (dirEntry b' j) k
      = if k < 64 then n[k] else if 128 * j + 4 + k < 1024 then b (128 * j + 4 + k)
        else b' (128 * j + 4 + k) := by
  have hj := hspec.entry
  have hat : entryName (dirEntry b' j) k = b' (128 * j + 4 + k) := by
    rw [entryName, dirEntry, window_apply, window_apply, dirEntrySize]
    congr 1
    omega
  have hset : 128 * j + 4 + k < 1024 →
      entryName (dirEntry b' j) k
        = entryName (dirEntry (setEntryInode (setEntryName b j n) j x) j) k := by
    intro hlt
    rw [hat, hb _ hlt, ← hadd.block _ hlt, entryName, dirEntry, window_apply, window_apply, dirEntrySize]
    congr 1
    omega
  split_ifs with hfield hblock
  -- within the field, behind it in the block, and behind the block
  · rw [hset (by omega), entryName_setEntry hfield, strncpy_apply hn hfield hk]
  · rw [hset hblock, entryName, dirEntry, window_apply, window_apply, setEntryInode, setEntryName,
      dirEntrySize, nameLength, patch_apply_out (by omega), patch_apply_out (by omega)]
    congr 1
    omega
  · exact hat

theorem EntryAdded.entryInode_eq (hf : Formatted s) (hb : Holds s'.disk (loadInode s'.disk o) i b') :
    entryInode (dirEntry b' j) = x := by
  have hj := hspec.entry
  have hlt := IsSlot.lt hf.addressable hadd.slot
  rw [← entryInode_setEntryInode (b := setEntryName b j n) (j := j) hlt]
  refine entryInode_congr fun m hm => ?_
  simp only [dirEntry, window_apply, dirEntrySize]
  rw [hb _ (by omega), hadd.block _ (by omega)]

/-- A comparison of the new entry with its name, when the block is in the buffer. -/
theorem EntryAdded.matchesName_iff (hf : Formatted s) (hn : ∀ y ∈ n, y ≠ 0)
    (hb : Holds s'.disk (loadInode s'.disk o) i b') :
    matchesName n n.length (dirEntry b' j) = true
      ↔ ∀ k (hk : k < n.length), 64 ≤ k →
        byteBefore s.disk (loadInode s.disk o) buffer k = some n[k]
          ∨ 1024 ≤ 128 * j + 4 + k ∧ b' (128 * j + 4 + k) = n[k] := by
  have hpos := hadd.slot.pos
  rw [SeL4Sys.matchesName_iff hn, hadd.entryInode_eq hspec hf hb]
  constructor
  · rintro ⟨_, hbytes⟩ k hk hge
    have hbyte := hbytes k hk
    rw [hadd.entryName_eq hspec hn hb hk, if_neg (by omega)] at hbyte
    split_ifs at hbyte with hblock
    · left
      rw [hspec.byteBefore_eq hblock, hbyte]
    · exact Or.inr ⟨by omega, hbyte⟩
  · refine fun hbytes => ⟨by omega, fun k hk => ?_⟩
    rw [hadd.entryName_eq hspec hn hb hk]
    split_ifs with hfield hblock
    · rfl
    · rcases hbytes k hk (by omega) with hbyte | ⟨hout, _⟩
      · rw [hspec.byteBefore_eq hblock] at hbyte
        exact Option.some.inj hbyte
      · omega
    · rcases hbytes k hk (by omega) with hbyte | ⟨_, hbyte⟩
      · rw [hspec.byteBefore_none (by omega)] at hbyte
        cases hbyte
      · exact hbyte

section search
variable (hf : Formatted s) (hdir : DirOk s.disk (loadInode s.disk o)) (hn : ∀ y ∈ n, y ≠ 0)
  (hnone : firstBegins s.disk (loadInode s.disk o) n = none)
  (hmax : (loadInode s.disk o).blocks < maxBlocks)

include hf hdir hn hnone hmax

/-- The search for the name ends at the new entry if the name is kept. -/
theorem EntryAdded.scan_found (hkept : NameKept s.disk (loadInode s.disk o) buffer n) (c : Buf) :
    ∃ k l b', scanDir s' (loadInode s'.disk o) (matchesName n n.length) c = .found k l b'
      ∧ entryInode (dirEntry b' l) = x := by
  have hj := hspec.entry
  have hslot : (8 * i + j) / 8 = i ∧ (8 * i + j) % 8 = j := by omega
  have hcount := hadd.blocks_le hspec hmax
  have hscan := scanDir_blockIn hadd.formatted hcount (matchesName n n.length) c
  have hnew : matchesName n n.length (dirEntry (blockIn s'.disk (loadInode s'.disk o) c
      ((8 * i + j) / 8)) ((8 * i + j) % 8)) = true := by
    rw [hslot.1, hslot.2, hadd.matchesName_iff hspec hf hn (holds_blockIn _ _ _ _)]
    exact fun k hk hge => Or.inl (hkept k hk hge)
  generalize scanDir s' (loadInode s'.disk o) (matchesName n n.length) c = r at hscan
  cases hscan with
  | found t b' ht hgood hfirst hb =>
    have ht' : t = 8 * i + j := by
      rcases lt_trichotomy t (8 * i + j) with hlt | heq | hgt
      · have hdiff := hadd.differs hspec hdir hn hnone ht hlt.ne (Or.inl hlt) (holds_blockIn _ _ c _)
        rw [hdiff.not_matches hn] at hgood
        cases hgood
      · exact heq
      · rw [hfirst _ hgt] at hnew
        cases hnew
    rw [ht', hslot.1] at hb
    rw [ht', hslot.1, hslot.2]
    exact ⟨_, _, b', rfl, hadd.entryInode_eq hspec hf hb⟩
  | missing b' hmiss _ _ =>
    rw [hmiss _ (hadd.slot_lt hspec)] at hnew
    cases hnew

/-- If the search ends at some entry, whatever stands behind the buffer, then the name is kept. -/
theorem EntryAdded.nameKept (hclean : CleanBlock (loadInode s.disk o) buffer n)
    (hfound : ∀ v, ∃ c, SameTail (fun _ => v) c
      ∧ ∃ k l b', scanDir s' (loadInode s'.disk o) (matchesName n n.length) c = .found k l b') :
    NameKept s.disk (loadInode s.disk o) buffer n := by
  have hj := hspec.entry
  have hslot : (8 * i + j) / 8 = i ∧ (8 * i + j) % 8 = j := by omega
  have hcount := hadd.blocks_le hspec hmax
  intro k hk hge
  -- a buffer with another byte behind the block
  have ⟨c, hc, k', l', b', hscan⟩ := hfound (n[k] + 1)
  have hends := scanDir_blockIn hadd.formatted hcount (matchesName n n.length) c
  rw [hscan] at hends
  cases hends with
  | found t _ ht hgood _ _ =>
    have ht' : t = 8 * i + j := by
      by_contra hne
      have hdiff := hadd.differs hspec hdir hn hnone ht hne (Or.inr hclean) (holds_blockIn _ _ c _)
      rw [hdiff.not_matches hn] at hgood
      cases hgood
    simp only [ht', hslot.1, hslot.2] at hgood
    rcases (hadd.matchesName_iff hspec hf hn (holds_blockIn _ _ _ _)).mp hgood k hk hge with
      hbyte | ⟨hout, hbyte⟩
    · exact hbyte
    · rw [blockIn, if_neg (by omega), hc _ hout] at hbyte
      exact absurd hbyte (by simp)

end search

end added

end SeL4Sys
