import SeL4Sys.BlockCount
import SeL4Sys.OwnershipFree

/-!
# The blocks of one file

`fileBlocks` lists the data blocks and the pointer blocks of a file, in the order in which `allocBlock`
adds them. A file is well formed when they are all different and in use (`BlocksOk`). `allocBlock` adds
one data block to the end of a well-formed file and keeps what it has, and `freeBlock` gives back the
blocks of the list and no others, so that growing an empty file and freeing it restores the allocator.
-/

namespace SeL4Sys

open Bytes IndexTree Function

/-! ## Listing -/

/-- The nodes that come with data block `k`, from the data block upwards. -/
def levelNodes (k : ℕ) : List Node :=
  (List.range (newLevels k + 1)).map fun j => ⟨dataRoot k, (dataNode k).path.drop j⟩

/-- The nodes of a file of `c` blocks. -/
def liveNodes (c : ℕ) : List Node := (List.range c).flatMap levelNodes

/-- The data blocks and pointer blocks of a file. -/
def fileBlocks (d : Disk) (ino : Inode) : List ℕ := (liveNodes ino.blocks).map fun n => n.sector d ino

section nodes
variable {k c : ℕ} {n : Node}

theorem mem_levelNodes (hk : k < maxBlocks) : n ∈ levelNodes k ↔ n.Valid ∧ n.first = k := by
  rw [levelNodes, List.mem_map]
  constructor
  · rintro ⟨j, hj, rfl⟩
    rw [List.mem_range] at hj
    exact ⟨⟨dataRoot_lt k, (dataNode_valid k).isNode.drop j⟩,
      first_drop_dataNode hk (Nat.lt_succ_iff.mp hj)⟩
  · rintro ⟨hvalid, hfirst⟩
    have ⟨j, hj, hn⟩ := hvalid.eq_drop hfirst
    exact ⟨j, List.mem_range.mpr (Nat.lt_succ_iff.mpr hj), hn.symm⟩

theorem mem_liveNodes (hc : c ≤ maxBlocks) : n ∈ liveNodes c ↔ n.Live c := by
  rw [liveNodes, List.mem_flatMap]
  constructor
  · rintro ⟨k, hk, hn⟩
    rw [List.mem_range] at hk
    have ⟨hvalid, hfirst⟩ := (mem_levelNodes (by omega)).mp hn
    exact ⟨hvalid, by omega⟩
  · intro hn
    have hlt := hn.first_lt
    exact ⟨n.first, List.mem_range.mpr hlt, (mem_levelNodes (by omega)).mpr ⟨hn.valid, rfl⟩⟩

/-- The nodes that come with one data block are at different heights. -/
theorem nodup_levelNodes (k : ℕ) : (levelNodes k).Nodup := by
  refine List.Nodup.map_on ?_ List.nodup_range
  intro j hj l hl heq
  rw [List.mem_range] at hj hl
  have hlen := congrArg List.length (Node.mk.inj heq).2
  have hzeros : newLevels k ≤ (dataNode k).path.length := zeros_le_length _
  rw [List.length_drop, List.length_drop] at hlen
  omega

theorem nodup_liveNodes (hc : c ≤ maxBlocks) : (liveNodes c).Nodup := by
  refine List.nodup_flatMap.mpr ⟨fun k _ => nodup_levelNodes k, ?_⟩
  refine List.Nodup.pairwise_of_forall_ne List.nodup_range ?_
  intro k hk l hl hne n hn hn'
  rw [List.mem_range] at hk hl
  have hfirst := ((mem_levelNodes (by omega)).mp hn).2
  have hfirst' := ((mem_levelNodes (by omega)).mp hn').2
  exact hne (hfirst.symm.trans hfirst')

end nodes

theorem map_levelNodes (d : Disk) (ino : Inode) (k : ℕ) :
    ((levelNodes k).map fun n => n.sector d ino) = levelBlocks d ino k := by
  rw [levelNodes, levelBlocks, List.map_map]
  rfl

theorem fileBlocks_eq (d : Disk) (ino : Inode) :
    fileBlocks d ino = (List.range ino.blocks).flatMap (levelBlocks d ino) := by
  rw [fileBlocks, liveNodes, List.map_flatMap]
  simp only [map_levelNodes]

/-! ## Well-formed files -/

/-- The data blocks and pointer blocks of the file are all different, and their bits are set. -/
structure BlocksOk (s : FS) (ino : Inode) : Prop where
  nonneg : 0 ≤ ino.blockCount
  le : ino.blockCount ≤ s.superBlock.bound3
  nodup : (fileBlocks s.disk ino).Nodup
  used : ∀ b ∈ fileBlocks s.disk ino, Used s.superBlock.sectorNum s.disk b

section tree
variable {s : FS} {ino : Inode}

theorem blocks_le_maxBlocks (hf : Formatted s) (h : ino.blockCount ≤ s.superBlock.bound3) :
    ino.blocks ≤ maxBlocks := by
  rw [hf.bound3] at h
  rw [Inode.blocks]
  omega

/-- The file owns its blocks. -/
theorem blocksOk_iff_owned (hf : Formatted s) :
    BlocksOk s ino ↔ Owned s (fun _ : Unit => True) fun _ => ino := by
  constructor
  · intro h
    have hc := blocks_le_maxBlocks hf h.le
    have hle := h.le
    rw [hf.bound3] at hle
    have hinj := (List.nodup_map_iff_inj_on (nodup_liveNodes hc)).mp h.nodup
    refine ⟨fun _ _ => ⟨h.nonneg, hle⟩, ?_, ?_⟩
    · intro _ _ n hn
      exact h.used _ (List.mem_map_of_mem ((mem_liveNodes hc).mpr hn))
    · intro _ _ _ _ n m hn hm heq
      exact ⟨rfl, hinj n ((mem_liveNodes hc).mpr hn) m ((mem_liveNodes hc).mpr hm) heq⟩
  · intro h
    have ⟨hnonneg, hle⟩ := h.count () trivial
    have hc : ino.blocks ≤ maxBlocks := h.blocks_le (x := ()) trivial
    refine ⟨hnonneg, by rwa [hf.bound3], ?_, ?_⟩
    · refine (List.nodup_map_iff_inj_on (nodup_liveNodes hc)).mpr ?_
      intro n hn m hm heq
      exact (h.inj () () trivial trivial n m ((mem_liveNodes hc).mp hn) ((mem_liveNodes hc).mp hm)
        heq).2
    · intro b hb
      have ⟨n, hn, hb⟩ := List.mem_map.mp hb
      rw [← hb]
      exact h.used () trivial n ((mem_liveNodes hc).mp hn)

/-- A file of a family that owns its blocks. -/
theorem Owned.blocksOk {ι : Type*} {P : ι → Prop} {I : ι → Inode} {z : ι} (h : Owned s P I)
    (hf : Formatted s) (hz : P z) : BlocksOk s (I z) := by
  rw [blocksOk_iff_owned hf]
  refine ⟨fun _ _ => h.count z hz, fun _ _ n hn => h.used z hz n hn, ?_⟩
  intro _ _ _ _ n m hn hm heq
  exact ⟨rfl, (h.inj z z hz hz n m hn hm heq).2⟩

/-- One file as the family of the files at one place. -/
theorem BlocksOk.owned_at (h : BlocksOk s ino) (hf : Formatted s) (o : ℕ) :
    Owned s (· = o) fun _ => ino := by
  have hunit := (blocksOk_iff_owned hf).mp h
  refine ⟨fun _ _ => hunit.count () trivial, fun _ _ n hn => hunit.used () trivial n hn, ?_⟩
  intro z w hz hw n m hn hm heq
  exact ⟨hz.trans hw.symm, (hunit.inj () () trivial trivial n m hn hm heq).2⟩

theorem update_unit (ino' : Inode) :
    update (fun _ : Unit => ino) () ino' = fun _ => ino' :=
  funext fun _ => update_self ..

theorem blocksOk_empty (s : FS) {ino : Inode} (h : ino.blockCount = 0) : BlocksOk s ino := by
  have hnil : fileBlocks s.disk ino = [] := by
    rw [fileBlocks, Inode.blocks, h]
    rfl
  refine ⟨h.ge, by rw [h]; exact Int.natCast_nonneg _, ?_, ?_⟩
  · rw [hnil]
    exact List.nodup_nil
  · rw [hnil]
    exact fun _ hb => absurd hb List.not_mem_nil

end tree

/-! ## Adding a block -/

section alloc
variable {s : FS} {ino : Inode} {o : ℕ}

/-- The blocks that `allocBlock` adds come after those that the file has. -/
theorem fileBlocks_alloc {s' : FS} {ino' : Inode} {c : ℕ} (hcount : ino.blocks = c)
    (hcount' : ino'.blocks = c + 1)
    (hold : ∀ n : Node, n ∈ liveNodes c → n.sector s'.disk ino' = n.sector s.disk ino)
    (hnew : ∀ j, j ≤ newLevels c →
      (Node.mk (dataRoot c) ((dataNode c).path.drop j)).sector s'.disk ino' = s.fresh j) :
    fileBlocks s'.disk ino'
      = fileBlocks s.disk ino ++ (List.range (newLevels c + 1)).map s.fresh := by
  rw [fileBlocks, fileBlocks, hcount, hcount', liveNodes, List.range_succ, List.flatMap_append,
    List.map_append, ← liveNodes, List.map_congr_left hold, List.flatMap_singleton, levelNodes,
    List.map_map]
  congr 1
  refine List.map_congr_left fun j hj => ?_
  exact hnew j (Nat.lt_succ_iff.mp (List.mem_range.mp hj))

/-- What `allocBlock` does to a file that can grow, when the searches hit. -/
structure Appends (s s' : FS) (ino ino' : Inode) (o : ℕ) : Prop where
  blockCount : ino'.blockCount = ino.blockCount + 1
  old : ∀ k, k < ino.blocks → blockSector s' ino' k = blockSector s ino k
  new : blockSector s' ino' ino.blocks = some s.takeBlock.2
  tree : BlocksOk s' ino'
  fits : ino.Fits → ino'.Fits
  stored : ino.Fits → loadInode s'.disk o = ino'
  sectorNum : s'.superBlock.sectorNum = s.superBlock.sectorNum
  alloc : SameAlloc (s.takes (newLevels ino.blocks + 1)) s'
  took : Took s s' ((List.range (newLevels ino.blocks + 1)).map s.fresh)
  blocks : fileBlocks s'.disk ino'
    = fileBlocks s.disk ino ++ (List.range (newLevels ino.blocks + 1)).map s.fresh

theorem BlocksOk.alloc (hf : Formatted s) (htree : BlocksOk s ino) (ho : IsSlot s.superBlock.sectorNum o)
    {c : ℕ} (hcount : ino.blockCount = c) (hc : c < maxBlocks)
    (havail : (newLevels c : ℤ) + 1 ≤ s.superBlock.availBlockNum)
    (hget : GetsFreeFor s (newLevels c + 1)) (stack : ℕ → Buf) :
    ∃ s' ino', allocBlock s ino o stack = some (s', ino') ∧ Appends s s' ino ino' o := by
  have hown := (blocksOk_iff_owned hf).mp htree
  have hblocks : ino.blocks = c := by rw [Inode.blocks, hcount, Int.toNat_natCast]
  obtain ⟨s', ino', halloc, hspec⟩ := hown.alloc hf (x := ()) trivial hcount hc hget ho havail stack
  refine ⟨s', ino', halloc, ?_⟩
  have heq := allocBlock_eq (o := o) hf hcount hc havail stack
  rw [halloc, Option.some.injEq] at heq
  have hnew : ∀ j, j ≤ newLevels c →
      (Node.mk (dataRoot c) ((dataNode c).path.drop j)).sector s'.disk ino' = s.fresh j := by
    intro j hj
    have hdisk : s'.disk = allocedDisk s ino c o stack := congrArg (fun q => q.1.disk) heq
    have hino : ino' = allocedInode s ino c := congrArg Prod.snd heq
    rw [hdisk, hino]
    exact alloced_sector_new (x := ()) hf hown trivial hcount hc hget ho stack hj
  have hold : ∀ n : Node, n.Live ino.blocks → n.sector s'.disk ino' = n.sector s.disk ino := by
    intro n hn
    have h := hspec.sector () trivial n hn
    rwa [update_self] at h
  have htook : Took s (s.takes (newLevels c + 1)) ((List.range (newLevels c + 1)).map s.fresh) := by
    have h := (Took.refl hf).takes hget
    rw [List.append_nil] at h
    exact h.perm (List.reverse_perm _)
  have halloc' := hspec.alloc
  rw [hblocks] at halloc'
  refine ⟨hspec.blockCount, ?_, ?_, ?_, hspec.fits, fun hfits => hspec.stored (hspec.fits hfits),
    hspec.sectorNum, hspec.alloc, ?_, ?_⟩
  · intro k hk
    have hlt : k < maxBlocks := by omega
    rw [blockSector_eq hspec.formatted hlt, blockSector_eq hf hlt, hold _ (dataNode_live hlt hk)]
  · rw [blockSector_eq hspec.formatted (by omega)]
    exact congrArg some hspec.new
  · have howned := hspec.owned
    rw [update_unit] at howned
    exact (blocksOk_iff_owned hspec.formatted).mpr howned
  · rw [hblocks]
    exact htook.congr halloc'
  · rw [hblocks]
    have hblocks' : ino'.blocks = c + 1 := by
      rw [Inode.blocks, hspec.blockCount]
      omega
    refine fileBlocks_alloc hblocks hblocks' (fun n hn => hold n ?_) hnew
    rw [hblocks]
    exact (mem_liveNodes hc.le).mp hn

end alloc

/-- **`allocBlock` appends one block.** When its calls of `getAvailBlock` hand out free blocks, a file
that can grow grows by the first of them, and every block that it had stays where it was. -/
theorem allocBlock_appends {s : FS} {ino : Inode} {o : ℕ} (hf : Formatted s) (htree : BlocksOk s ino)
    (hfits : ino.Fits) (ho : IsSlot s.superBlock.sectorNum o)
    (hcount : ino.blockCount < s.superBlock.bound3)
    (havail : calNeededPointerBlocks s.superBlock ino.blockCount + 1 ≤ s.superBlock.availBlockNum)
    (hget : GetsFreeFor s (calNeededPointerBlocks s.superBlock ino.blockCount + 1).toNat)
    (stack : ℕ → Buf) :
    ∃ s' ino', allocBlock s ino o stack = some (s', ino')
      ∧ ino'.blockCount = ino.blockCount + 1
      ∧ (∀ k : ℕ, (k : ℤ) < ino.blockCount → blockSector s' ino' k = blockSector s ino k)
      ∧ blockSector s' ino' ino.blocks = (getAvailBlock s 0).map Prod.snd
      ∧ BlocksOk s' ino'
      ∧ loadInode s'.disk o = ino' := by
  have ⟨c, hc⟩ := Int.eq_ofNat_of_zero_le htree.nonneg
  have hlt : c < maxBlocks := by
    rw [hf.bound3, hc] at hcount
    exact_mod_cast hcount
  rw [hc, calNeededPointerBlocks_eq hf hlt] at havail hget
  have ⟨s', ino', halloc, happ⟩ := htree.alloc hf ho hc hlt havail hget stack
  refine ⟨s', ino', halloc, happ.blockCount, ?_, ?_, happ.tree, happ.stored hfits⟩
  · intro k hk
    exact happ.old k (by rw [Inode.blocks]; omega)
  · rw [happ.new]
    have hhits := takes_hits hf hget (Nat.succ_pos _)
    rw [takeBlock_eq hf hhits, getAvailBlock_eq hf hhits, Option.map_some]

section small

theorem newLevels_zero : newLevels 0 = 0 := by decide

theorem smallFS_isSlot (d : Disk) (inodes blocks : ℤ) {n : ℕ} (hn : n < 8192) :
    IsSlot (smallFS d inodes blocks).superBlock.sectorNum (slotOffset 2106 0 n) := by
  refine ⟨0, n, ?_, ?_, rfl⟩
  · rw [smallFS_sectorNum, groups_small]
    norm_num
  · rw [smallFS_sectorNum, inodesOf_small]
    exact hn

theorem smallFS_empty_nearHole : NearHole .block (smallFS (fun _ => 0) 8192 25) := by
  rw [smallFS_nearHole_iff (by norm_num)]
  exact ⟨0, by norm_num, by norm_num, by decide⟩

theorem calNeededPointerBlocks_small (d : Disk) (inodes blocks : ℤ) :
    calNeededPointerBlocks (smallFS d inodes blocks).superBlock Files.emptyFile.blockCount = 0 := by
  have h := calNeededPointerBlocks_eq (smallFS_formatted d inodes blocks) (by decide : 0 < maxBlocks)
  rwa [newLevels_zero] at h

/-- The small disk with its first twelve blocks in use. -/
def directFS : FS :=
  smallFS (fun p => if p = 3072 then 0xff else if p = 3073 then 0xf0 else 0) 8192 13

/-- A file that has these blocks, one for each direct pointer. -/
def directFile : Inode :=
  { Files.emptyFile with
    blockCount := 12, size := 12288, pointer := fun i => if i < 12 then 2056 + 2 * i else 0 }

theorem directFile_fits : directFile.Fits := by
  constructor <;> simp only [directFile, Files.emptyFile, FitsInt] <;> try norm_num
  · intro i
    split <;> omega

theorem directFS_consistent : Consistent .block directFS := smallFS_consistent (by decide)

theorem directFile_blocksOk : BlocksOk directFS directFile := by
  have hblocks : fileBlocks directFS.disk directFile = (List.range 12).map (dataSector 2106 0) := by
    decide +kernel
  have hbits : ∀ n, n < 12 → poolBit .block 2106 directFS.disk 0 n = true := by decide
  refine ⟨by decide, by decide, by decide +kernel, fun b hb => ?_⟩
  rw [hblocks] at hb
  obtain ⟨n, hn, rfl⟩ := List.mem_map.mp hb
  rw [List.mem_range] at hn
  have hlt : n < blocksOf 2106 0 := by rw [blocksOf_small]; omega
  exact (used_dataSector_iff (by decide) hlt).mpr (hbits n hn)

theorem directFS_needed : calNeededPointerBlocks directFS.superBlock directFile.blockCount = 1 := by
  decide

/-- The pointer block and the data block are found. -/
theorem directFS_nearHole {j : ℕ} (hj : j < 2) : NearHole .block (directFS.takes j) := by
  have hnear : ∀ j, j < 2 → 0 < groups (directFS.takes j).superBlock.sectorNum
      ∧ 1 ≤ ((directFS.takes j).groupDesc 0).avail .block
      ∧ (1 : ℤ) ≤ (((directFS.takes j).groupDesc 0).avail .block + 7) / 8
      ∧ (directFS.takes j).disk (((directFS.takes j).groupDesc 0).bitmap .block * 512 + 1) ≠ 0xff := by
    decide +kernel
  obtain ⟨hgroup, havail, hbyte, hhole⟩ := hnear j hj
  exact ⟨0, 1, hgroup, havail, fun l hl => absurd hl (Nat.not_lt_zero l), by decide, hbyte, hhole⟩

theorem directFS_getsFree : GetsFreeFor directFS 2 :=
  directFS_consistent.getsFreeFor fun _ hj => directFS_nearHole hj

/-- The thirteenth block of a file, for which a pointer block is added as well. -/
theorem allocBlock_appends_indirect :
    ∃ s' ino', allocBlock directFS directFile (slotOffset 2106 0 1) (fun _ _ => 0) = some (s', ino')
      ∧ ino'.blockCount = 13 ∧ BlocksOk s' ino' := by
  have hget : GetsFreeFor directFS
      (calNeededPointerBlocks directFS.superBlock directFile.blockCount + 1).toNat := by
    rw [directFS_needed]
    exact directFS_getsFree
  have ⟨s', ino', halloc, hcount, _, _, htree, _⟩ := allocBlock_appends directFS_consistent.formatted
    directFile_blocksOk directFile_fits (smallFS_isSlot _ _ _ (by norm_num : 1 < 8192)) (by decide)
    (by decide) hget fun _ _ => 0
  exact ⟨s', ino', halloc, hcount, htree⟩

end small

/-! ## Giving all blocks back -/

/-- The blocks of a file in the order in which `freeBlock` gives them back. -/
def freedBlocks (d : Disk) (ino : Inode) (c : ℕ) : List ℕ :=
  (List.range c).reverse.flatMap (levelBlocks d ino)

theorem freedBlocks_succ (d : Disk) (ino : Inode) (c : ℕ) :
    freedBlocks d ino (c + 1) = levelBlocks d ino c ++ freedBlocks d ino c := by
  rw [freedBlocks, List.range_succ, List.reverse_append, List.reverse_singleton,
    List.flatMap_append, List.flatMap_singleton, freedBlocks]

theorem freedBlocks_perm (d : Disk) (ino : Inode) :
    (freedBlocks d ino ino.blocks).Perm (fileBlocks d ino) := by
  rw [fileBlocks_eq, freedBlocks]
  exact (List.reverse_perm _).flatMap_right _

section free
variable {s : FS} {ino : Inode} {o : ℕ}

theorem isData_levelBlocks (hown : Owned s (fun _ : Unit => True) fun _ => ino) {k : ℕ}
    (hk : k < ino.blocks) : ∀ b ∈ levelBlocks s.disk ino k, IsData s.superBlock.sectorNum b := by
  have hle := hown.blocks_le (x := ()) trivial
  intro b hb
  rw [← map_levelNodes] at hb
  have ⟨n, hn, hb⟩ := List.mem_map.mp hb
  have ⟨hvalid, hfirst⟩ := (mem_levelNodes (by omega)).mp hn
  rw [← hb]
  exact hown.isData (x := ()) trivial ⟨hvalid, by omega⟩

/-- The write of the inode makes no difference to the allocator. -/
theorem freeLast_sameAlloc {c : ℕ} (hf : Formatted s)
    (hown : Owned s (fun _ : Unit => True) fun _ => ino) (ho : IsSlot s.superBlock.sectorNum o)
    (hcount : ino.blockCount = c + 1) {s' : FS} {ino' : Inode} {ret : ℤ}
    (hlast : freeLastBlock s ino o = (ret, s', ino')) :
    SameAlloc (s.gives (levelBlocks s.disk ino c)) s' := by
  have hblocks : ino.blocks = c + 1 := by
    rw [Inode.blocks]
    omega
  have hle := hown.blocks_le (x := ()) trivial
  obtain ⟨_, hS, _, _⟩ := gives_spec hf (isData_levelBlocks hown (by omega : c < ino.blocks))
  rw [freeLastBlock_eq hf hcount (by omega) o] at hlast
  have hs' : s' = _ := (congrArg (fun q => q.2.1) hlast).symm
  rw [← hS] at ho
  rw [hs']
  have hslot := changesOnly_slot (s.gives (levelBlocks s.disk ino c)).disk
    { ino with blockCount := (c : ℤ) } ho
  exact hslot.sameAlloc fun i => region_notMem_slot .block _ i _

/-- To the allocator, the loop of `freeBlock` is the calls of `setAllocBlock` it makes: the writes of
the inode make no difference. -/
theorem freeLoop_sameAlloc {c : ℕ} (hf : Formatted s)
    (hown : Owned s (fun _ : Unit => True) fun _ => ino) (ho : IsSlot s.superBlock.sectorNum o)
    (hc : ino.blocks = c) :
    ∃ s' ino', freeBlockLoop o c s ino = (0, s', ino') ∧ ino'.blockCount = 0
      ∧ SameAlloc (s.gives (freedBlocks s.disk ino c)) s' := by
  induction c generalizing s ino with
  | zero =>
    have hnonneg := (hown.count () trivial).1
    rw [Inode.blocks] at hc
    exact ⟨s, ino, rfl, by omega, SameAlloc.refl s⟩
  | succ c ih =>
    have hcount : ino.blockCount = c + 1 := by
      have hnonneg := (hown.count () trivial).1
      rw [Inode.blocks] at hc
      omega
    have hle := hown.blocks_le (x := ()) trivial
    obtain ⟨s₁, ino₁, hlast, hspec⟩ := hown.freeLast hf (x := ()) trivial hcount ho
    have hino₁ : ino₁ = { ino with blockCount := (c : ℤ) } := hspec.inode
    have hlevel := freeLast_sameAlloc hf hown ho hcount hlast
    have howned := hspec.owned
    rw [update_unit] at howned
    obtain ⟨s', ino', hrest, hzero, hsame⟩ := ih hspec.formatted howned
      (by rw [hspec.sectorNum]; exact ho) (by rw [hino₁, Inode.blocks, Int.toNat_natCast])
    refine ⟨s', ino', ?_, hzero, ?_⟩
    · rw [freeBlockLoop, hlast, if_neg (by norm_num)]
      exact hrest
    · -- the blocks that are left are where they were
      have hblocks : freedBlocks s₁.disk ino₁ c = freedBlocks s.disk ino c := by
        refine List.flatMap_congr fun k hk => ?_
        rw [List.mem_reverse, List.mem_range] at hk
        rw [← map_levelNodes, ← map_levelNodes]
        refine List.map_congr_left fun n hn => ?_
        obtain ⟨hvalid, hfirst⟩ := (mem_levelNodes (by omega)).mp hn
        rw [hino₁, sector_withBlockCount]
        exact hown.sector_eq hspec.changes (y := ()) trivial ⟨hvalid, by omega⟩
      rw [hblocks] at hsame
      have hdata := fun k => isData_levelBlocks hown (k := k)
      obtain ⟨hf', hS, _, _⟩ := gives_spec hf (hdata c (by omega))
      rw [freedBlocks_succ, gives_append]
      refine SameAlloc.trans (hlevel.gives hf' ?_) hsame
      intro b hb
      obtain ⟨k, hk, hb⟩ := List.mem_flatMap.mp hb
      rw [List.mem_reverse, List.mem_range] at hk
      rw [hS]
      exact hdata k (by omega) b hb

/-- `freeBlock` gives back the blocks of a well-formed file. -/
theorem BlocksOk.free (hf : Formatted s) (htree : BlocksOk s ino)
    (ho : IsSlot s.superBlock.sectorNum o) :
    ∃ s' ino', freeBlock s ino o = (0, s', ino') ∧ ino'.blockCount = 0
      ∧ Gave s s' (fileBlocks s.disk ino) := by
  have hown := (blocksOk_iff_owned hf).mp htree
  have ⟨s', ino', hfree, hzero, hsame⟩ := freeLoop_sameAlloc hf hown ho rfl
  have hperm := freedBlocks_perm s.disk ino
  have hgave := gave_gives hf (hperm.nodup_iff.mpr htree.nodup) fun b hb =>
    htree.used b (hperm.mem_iff.mp hb)
  exact ⟨s', ino', hfree, hzero, (hgave.congr hsame).perm hperm⟩

end free

/-! ## Growing an empty file and freeing it -/

/-- Calls of `allocBlock` for one file, one for each element of the list, that all return 0. -/
def allocBlocks (o : ℕ) : FS → Inode → List (ℕ → Buf) → Option (FS × Inode)
  | s, ino, [] => some (s, ino)
  | s, ino, stack :: rest =>
    (allocBlock s ino o stack).bind fun q => allocBlocks o q.1 q.2 rest

/-- Every `getAvailBlock` of these calls finds a hole near the start of the bitmap. -/
def AllocsNear (o : ℕ) : FS → Inode → List (ℕ → Buf) → Prop
  | _, _, [] => True
  | s, ino, stack :: rest =>
    (∀ j : ℕ, (j : ℤ) ≤ calNeededPointerBlocks s.superBlock ino.blockCount →
      NearHole .block (s.takes j))
    ∧ ∀ q, allocBlock s ino o stack = some q → AllocsNear o q.1 q.2 rest

section restore
variable {s : FS} {ino : Inode} {o : ℕ}

/-- A disk has fewer blocks than a file could have. -/
theorem BlocksOk.blocks_lt (hf : Formatted s) (h : BlocksOk s ino) : ino.blocks < maxBlocks := by
  have hown := (blocksOk_iff_owned hf).mp h
  have hle : ino.blocks ≤ maxBlocks := hown.blocks_le (x := ()) trivial
  have hlive : ∀ k, k < ino.blocks → (dataNode k).Live ino.blocks := fun k hk =>
    dataNode_live (by omega) hk
  have hcard : (Finset.range ino.blocks).card ≤ (Finset.range (2 ^ 23)).card := by
    refine Finset.card_le_card_of_injOn (fun k => (dataNode k).sector s.disk ino) ?_ ?_
    · intro k hk
      have hk : k < ino.blocks := Finset.mem_range.mp (Finset.mem_coe.mp hk)
      refine Finset.mem_coe.mpr (Finset.mem_range.mpr ?_)
      exact (hown.isData (x := ()) trivial (hlive k hk)).lt_sectors hf.addressable
    · intro k hk l hl heq
      have hk : k < ino.blocks := Finset.mem_range.mp (Finset.mem_coe.mp hk)
      have hl : l < ino.blocks := Finset.mem_range.mp (Finset.mem_coe.mp hl)
      have hnode := (hown.inj () () trivial trivial _ _ (hlive k hk) (hlive l hl) heq).2
      exact dataNode_inj (by omega) (by omega) hnode
  rw [Finset.card_range, Finset.card_range] at hcard
  exact lt_of_le_of_lt hcard (by rw [maxBlocks]; norm_num)

/-- Calls that hit grow the file by what they take. The induction is on the calls that are left. -/
theorem allocs_took {s₀ : FS} {rest : List (ℕ → Buf)} {s' : FS} {ino' : Inode}
    (hcons : Consistent .block s) (htree : BlocksOk s ino) (ho : IsSlot s.superBlock.sectorNum o)
    (htook : Took s₀ s (fileBlocks s.disk ino)) (hnear : AllocsNear o s ino rest)
    (hallocs : allocBlocks o s ino rest = some (s', ino')) :
    BlocksOk s' ino' ∧ Took s₀ s' (fileBlocks s'.disk ino') := by
  induction rest generalizing s ino with
  | nil =>
    cases hallocs
    exact ⟨htree, htook⟩
  | cons stack rest ih =>
    have hf := hcons.formatted
    obtain ⟨c, hc⟩ := Int.eq_ofNat_of_zero_le htree.nonneg
    have hlt : c < maxBlocks := by
      have h := htree.blocks_lt hf
      rwa [Inode.blocks, hc, Int.toNat_natCast] at h
    obtain ⟨⟨s₁, ino₁⟩, halloc₁, hrest⟩ := Option.bind_eq_some_iff.mp hallocs
    obtain ⟨hholes, hlater⟩ := hnear
    rw [hc, calNeededPointerBlocks_eq hf hlt] at hholes
    -- the call has returned, so its check of the free blocks has passed
    have havail : (newLevels c : ℤ) + 1 ≤ s.superBlock.availBlockNum := by
      by_contra hlow
      rw [allocBlock, hc, calNeededPointerBlocks_eq hf hlt, if_pos (by omega)] at halloc₁
      cases halloc₁
    have hget : GetsFreeFor s (newLevels c + 1) :=
      hcons.getsFreeFor fun j hj => hholes j (by omega)
    obtain ⟨s₂, ino₂, halloc', happ⟩ := htree.alloc hf ho hc hlt havail hget stack
    rw [halloc₁] at halloc'
    cases halloc'
    have hblocks : ino.blocks = c := by rw [Inode.blocks, hc, Int.toNat_natCast]
    have halloc := happ.alloc
    rw [hblocks] at halloc
    refine ih ((hcons.takes hget).sameAlloc halloc) happ.tree ?_ ?_ (hlater _ halloc₁) hrest
    · rw [happ.sectorNum]
      exact ho
    · rw [happ.blocks]
      exact htook.trans happ.took

end restore

/-- **`freeBlock` releases exactly the blocks of the file.** Growing an empty file and freeing it
restores the allocator when every search for a block finds a hole near the start of the bitmap. -/
theorem freeBlock_releases {s : FS} (hf : Formatted s) {o : ℕ} (ho : IsSlot s.superBlock.sectorNum o) :
    (∀ ino, BlocksOk s ino → ∃ s' ino', freeBlock s ino o = (0, s', ino') ∧ ino'.blockCount = 0
      ∧ Gave s s' (fileBlocks s.disk ino))
    ∧ (Consistent .block s → ∀ ino rest s' ino', ino.blockCount = 0 → AllocsNear o s ino rest →
      allocBlocks o s ino rest = some (s', ino') →
        ∃ s'' ino'', freeBlock s' ino' o = (0, s'', ino'') ∧ SameBlocks s s'') := by
  refine ⟨fun ino htree => htree.free hf ho, ?_⟩
  intro hcons ino rest s' ino' hempty hnear hallocs
  have htree := blocksOk_empty s hempty
  have hnil : fileBlocks s.disk ino = [] := by
    rw [fileBlocks, Inode.blocks, hempty]
    rfl
  have hstart : Took s s (fileBlocks s.disk ino) := by
    rw [hnil]
    exact Took.refl hf
  obtain ⟨htree', htook⟩ := allocs_took hcons htree ho hstart hnear hallocs
  rw [← htook.sectorNum] at ho
  obtain ⟨s'', ino'', hfree, _, hgave⟩ := htree'.free htook.formatted ho
  exact ⟨s'', ino'', hfree, htook.restore hgave⟩

/-- A file with twelve data blocks is freed, and one block is added to an empty file and given back. -/
theorem freeBlock_releases_small :
    (∃ s' ino', freeBlock directFS directFile (slotOffset 2106 0 1) = (0, s', ino') ∧ ino'.blockCount = 0
      ∧ Gave directFS s' (fileBlocks directFS.disk directFile))
    ∧ ∃ s' ino' s'' ino'',
      allocBlocks (slotOffset 2106 0 1) (smallFS (fun _ => 0) 8192 25) Files.emptyFile [fun _ _ => 0]
        = some (s', ino')
      ∧ freeBlock s' ino' (slotOffset 2106 0 1) = (0, s'', ino'')
      ∧ SameBlocks (smallFS (fun _ => 0) 8192 25) s'' := by
  refine ⟨(freeBlock_releases directFS_consistent.formatted (smallFS_isSlot _ _ _ (by norm_num))).1
    directFile directFile_blocksOk, ?_⟩
  have hcons : Consistent .block (smallFS (fun _ => 0) 8192 25) := smallFS_consistent (by decide)
  have hneeded := calNeededPointerBlocks_small (fun _ => 0) 8192 25
  have hnear : AllocsNear (slotOffset 2106 0 1) (smallFS (fun _ => 0) 8192 25) Files.emptyFile
      [fun _ _ => 0] := by
    refine ⟨fun j hj => ?_, fun _ _ => trivial⟩
    rw [hneeded] at hj
    rw [show j = 0 by omega]
    exact smallFS_empty_nearHole
  obtain ⟨q, hq⟩ : ∃ q, allocBlock (smallFS (fun _ => 0) 8192 25) Files.emptyFile
      (slotOffset 2106 0 1) (fun _ _ => 0) = some q := by
    rw [allocBlock, hneeded]
    exact ⟨_, if_neg (by decide)⟩
  have hallocs : allocBlocks (slotOffset 2106 0 1) (smallFS (fun _ => 0) 8192 25) Files.emptyFile
      [fun _ _ => 0] = some (q.1, q.2) := by
    rw [allocBlocks, hq]
    rfl
  have hslot := smallFS_isSlot (fun _ => 0) 8192 25 (by norm_num : 1 < 8192)
  obtain ⟨s'', ino'', hfree, hsame⟩ :=
    (freeBlock_releases hcons.formatted hslot).2 hcons _ _ _ _ rfl hnear hallocs
  exact ⟨q.1, q.2, s'', ino'', hallocs, hfree, hsame⟩

/-! ### A block that was in use -/

section packed
open AllocRun

/-- The first block of a file goes into its first pointer. -/
theorem allocBlock_empty_eq {s : FS} (hf : Formatted s) {ino : Inode} (hempty : ino.blockCount = 0)
    (havail : 1 ≤ s.superBlock.availBlockNum) (o : ℕ) (stack : ℕ → Buf) :
    allocBlock s ino o stack = some (finishAlloc s.takeBlock.1
      { ino with pointer := update ino.pointer 0 s.takeBlock.2 } o) := by
  have hneeded : calNeededPointerBlocks s.superBlock ino.blockCount = 0 := by
    have h := calNeededPointerBlocks_eq hf (by decide : 0 < maxBlocks)
    rw [newLevels_zero] at h
    rw [hempty]
    exact h
  have hbound : (0 : ℕ) < s.takeBlock.1.superBlock.bound0 := by
    rw [SuperBlock.bound0, pointerNum]
    norm_num
  have hlast : allocLastBlock s.takeBlock.1 ino o s.takeBlock.2 stack
      = some (finishAlloc s.takeBlock.1
          { ino with pointer := update ino.pointer 0 s.takeBlock.2 } o) := by
    unfold allocLastBlock
    simp only [hempty, Int.toNat_zero, if_pos hbound]
  rw [allocBlock, hneeded, if_neg (by omega)]
  simp only [hlast, Option.getD_some]

/-- With blocks 0 to 23 in use and one left, an empty file is given block 16, which another file has.
Freeing it clears the bit of that block. -/
theorem packed_not_restored :
    ∃ s' ino' s'' ino'',
      Consistent .block packed
      ∧ allocBlocks (slotOffset 2106 0 1) packed Files.emptyFile [fun _ _ => 0] = some (s', ino')
      ∧ freeBlock s' ino' (slotOffset 2106 0 1) = (0, s'', ino'')
      ∧ ¬ SameBlocks packed s'' := by
  have hrun : ((allocBlocks (slotOffset 2106 0 1) packed Files.emptyFile [fun _ _ => 0]).map fun q =>
      let r := freeBlock q.1 q.2 (slotOffset 2106 0 1)
      (r.1, poolBit .block 2106 r.2.1.disk 0 16)) = some (0, false) := by decide +kernel
  obtain ⟨q, halloc, hq⟩ := Option.map_eq_some_iff.mp hrun
  have ⟨hret, hclear⟩ := Prod.mk.inj hq
  refine ⟨q.1, q.2, _, _, packed_consistent, halloc, Prod.ext hret rfl, fun hsame => ?_⟩
  have hbit := hsame.bits 0 16 (by decide) (by decide)
  have hset : poolBit .block 2106 packed.disk 0 16 = true := by decide
  exact absurd (hclear.symm.trans (hbit.trans hset)) (by decide)

end packed

end SeL4Sys
