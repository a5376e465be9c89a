import SeL4Sys.Lib.Bytes
import Mathlib.Data.List.Sort

/-!
# The check of a program

What `sel4utils_configure_process_custom` looks at in a program before it goes on: `elf_newFile` of libelf,
which stands in front of an assertion, and the load of the segments in `elf.c` of libsel4utils. A load can
stop at a fatal log message or at the assertion on the entry point. When it returns `NULL` instead, the
configuration ends early, its return value is dropped, and the kernel halts when the thread that was not
made is given a name. So a program is loaded or the system stops.
-/

namespace SeL4Sys

open Bytes

/-! ## `elf_newFile` -/

/-- `elf_check_magic` -/
def elfCheckMagic (file : Buf) : Bool := file 0 == 0x7f && file 1 == 0x45 && file 2 == 0x4c && file 3 == 0x46

/-- `elf32_checkFile`: the header, by the offsets of its fields. -/
def elf32CheckFile (file : Buf) (size : ℕ) : ℤ :=
  if size < 52 then -1
  else if !elfCheckMagic file then -1
  -- e_ident[EI_CLASS] is ELFCLASS32
  else if file 4 ≠ 1 then -1
  -- e_phentsize and e_shentsize
  else if leNat file 42 2 ≠ 32 then -1
  else if leNat file 46 2 ≠ 40 then -1
  -- e_shstrndx and e_shnum
  else if leNat file 50 2 ≥ leNat file 48 2 then -1
  else 0

/-- A table of `num` entries at `off`, whose end is computed in 32 bits. -/
def elf32CheckTable (size off entSize num : ℕ) : ℤ :=
  let tableEnd := (off + entSize * num) % 2 ^ 32
  if size < tableEnd ∨ tableEnd < off then -1 else 0

/-- `elf32_checkProgramHeaderTable` -/
def elf32CheckProgramHeaderTable (file : Buf) (size : ℕ) : ℤ :=
  elf32CheckTable size (leNat file 28 4) (leNat file 42 2) (leNat file 44 2)

/-- `elf32_checkSectionTable` -/
def elf32CheckSectionTable (file : Buf) (size : ℕ) : ℤ :=
  elf32CheckTable size (leNat file 32 4) (leNat file 46 2) (leNat file 48 2)

/-- `elf_newFile`. `elf64_checkFile` fails on a machine of 32 bits. -/
def elfNewFile (file : Buf) (size : ℕ) : ℤ :=
  if elf32CheckFile file size ≠ 0 then -1
  else if elf32CheckProgramHeaderTable file size < 0 then elf32CheckProgramHeaderTable file size
  else elf32CheckSectionTable file size

/-! ## The segments -/

/-- `sel4utils_elf_region_t`, with where the segment stands in the file. -/
structure ElfRegion where
  elfVstart : ℕ
  size : ℕ
  canRead : Bool
  canWrite : Bool
  offset : ℕ
  fileSize : ℕ

/-- The region of the program header at `ph`, with the rights of `rights_from_elf`. -/
def ElfRegion.ofHeader (file : Buf) (ph : ℕ) : ElfRegion where
  elfVstart := leNat file (ph + 8) 4
  size := leNat file (ph + 20) 4
  canRead := (leNat file (ph + 24) 4).testBit 2 || (leNat file (ph + 24) 4).testBit 0
  canWrite := (leNat file (ph + 24) 4).testBit 1
  offset := leNat file (ph + 4) 4
  fileSize := leNat file (ph + 16) 4

/-- `read_regions`: the headers of type `PT_LOAD`. -/
def readRegions (file : Buf) : List ElfRegion :=
  ((List.range (leNat file 44 2)).map fun i => leNat file 28 4 + 32 * i).filter
    (fun ph => leNat file ph 4 == 1) |>.map (ElfRegion.ofHeader file)

/-- Region `a` lies below `b`; the end is computed in 32 bits. -/
def ElfRegion.below (a b : ElfRegion) : Bool := (a.elfVstart + a.size) % 2 ^ 32 ≤ b.elfVstart

/-- `compare_regions` comes to no fatal error in the sort: of two regions one lies below the other. Two that
overlap cannot be put in order without comparing two that do. -/
def regionsApart (regions : List ElfRegion) : Bool := regions.Pairwise fun a b => a.below b || b.below a

/-- `ROUND_UP` to a page. -/
def roundUp (n : ℕ) : ℕ := (n + 4095) / 4096 * 4096 % 2 ^ 32

/-- The loop of `prepare_reservations` behind a region with the reservation of `size` bytes at `start` and
the rights given. It ends with an error when two regions share a frame and one is not readable, and with a
fatal one when the frame cannot be moved or the regions share more than it. -/
def prepareReservations (start size : ℕ) (canRead canWrite : Bool) : List ElfRegion → Bool
  | [] => true
  | r :: regions =>
    let resStart := r.elfVstart / 4096 * 4096
    let resTop := roundUp (r.elfVstart + r.size)
    let resSize := (resTop + 2 ^ 32 - resStart) % 2 ^ 32
    if resStart < (start + size) % 2 ^ 32 then
      if !(canRead && r.canRead) then false
      else if !canWrite && r.canWrite then
        4096 ≤ size && prepareReservations resStart resSize r.canRead r.canWrite regions
      else
        let resStart := roundUp (start + size + 1)
        let resSize := (resTop + 2 ^ 32 - resStart) % 2 ^ 32
        (roundUp r.size + 2 ^ 32 - resSize) % 2 ^ 32 != 4096
          && prepareReservations resStart resSize r.canRead r.canWrite regions
    else prepareReservations resStart resSize r.canRead r.canWrite regions

/-- `elf_getProgramSegment` finds the segment in the file, and `load_segment` has room for it. -/
def ElfRegion.inFile (size : ℕ) (r : ElfRegion) : Bool :=
  let segmentEnd := (r.offset + r.fileSize) % 2 ^ 32
  segmentEnd ≤ size && r.offset ≤ segmentEnd && r.fileSize ≤ r.size

/-- `sel4utils_elf_load` returns an entry point. Whether the reservations, frames and capabilities that it
asks for are granted depends on what the machine has left. -/
def elfLoad (file : Buf) (size : ℕ) (granted : Bool) : Bool :=
  let regions := readRegions file
  regionsApart regions && prepareReservations 0 0 false false (regions.insertionSort fun a b => a.below b)
    && granted && regions.all (ElfRegion.inFile size)
    -- assert(entry_point != 0)
    && leNat file 24 4 != 0

/-- `sel4utils_configure_process_custom` gets past its assertions. For an empty program it looks for a file
without a name in the archive, which holds none. -/
def elfLoads (elfFile : Buf) (elfSize : ℤ) (granted : Bool) : Bool :=
  elfSize ≠ 0 && 0 ≤ elfNewFile elfFile (toUnsigned 4 elfSize)
    && elfLoad elfFile (toUnsigned 4 elfSize) granted

end SeL4Sys
