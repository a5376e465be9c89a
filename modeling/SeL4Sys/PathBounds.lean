import SeL4Sys.PathReads
import SeL4Sys.PathSplit

/-!
# The characters that the path functions touch

The positions of the path that `is_dir_path` and `find_last_of` read and the positions of the array
`father_path` that `get_father_path` writes, in a whole call of `syscall_open` or `syscall_unlink`. The
array has `NAME_LENGTH` bytes; a path without a separator in front of its last character makes
`find_last_of` return -1, which becomes the number of bytes to copy.
-/

namespace SeL4Sys

open Bytes CString

variable {s : FS} {p q : List UInt8} {x : UInt8} {mode : ℤ} {l : Locals}

/-! ## The accesses -/

/-- A write to `father_path` or a read of the path. -/
inductive PathAccess
  | father (index : ℤ)
  | path (index : ℤ)
deriving DecidableEq

/-- The index is one of the array, or of a character of the path. -/
def PathAccess.Inside (path : List UInt8) : PathAccess → Prop
  | .father i => 0 ≤ i ∧ i < nameLength
  | .path i => 0 ≤ i ∧ i < path.length

/-- The reads of the loop of `find_last_of`. -/
def findLastLoopReads (str : List UInt8) (token : UInt8) : ℕ → List PathAccess
  | 0 => []
  | i + 1 => .path i :: if str.getD i 0 = token then [] else findLastLoopReads str token i

/-- The reads of `find_last_of`. -/
def findLastOfReads (str : List UInt8) (token : UInt8) (last : ℤ) : List PathAccess :=
  findLastLoopReads str token ((if last < str.length then last else str.length - 1) + 1).toNat

/-- The accesses of `get_father_path`. `strncpy` writes as many bytes as its last argument says, which
is an unsigned number of 32 bits. -/
def getFatherPathAccesses (src : List UInt8) : List PathAccess :=
  let lastPos := findLastOf src slash (src.length - 2)
  findLastOfReads src slash (src.length - 2) ++
    if lastPos = 0 then [.father 0, .father 1]
    else (List.range (lastPos % 2 ^ 32).toNat).map (fun i => .father i) ++ [.father lastPos]

/-- The accesses of both calls where they take the path apart: for the directory, and for the name if
the directory is found. -/
def splitAccesses (s : FS) (path : List UInt8) (l : Locals) : List PathAccess :=
  getFatherPathAccesses path ++ (getFatherPath path).elim [] fun fatherPath =>
    if (readInode s l.fatherInode fatherPath l.fatherBuffer).ret ≠ 0 then []
    else findLastOfReads path slash (path.length - 1)

/-- The accesses of `syscall_open`. After a read in front of the path nothing is known. -/
def openAccesses (s : FS) (path : List UInt8) (mode : ℤ) (l : Locals) : List PathAccess :=
  if (readInode s l.destInode path l.lookupBuffer).ret = 0 then []
  else if createMode mode = false then []
  else
    .path (path.length - 1) :: (isDirPath path).elim [] fun dirPath =>
      if dirPath = true ∧ isDirMode mode = false then [] else splitAccesses s path l

/-- The accesses of `syscall_unlink`. -/
def unlinkAccesses (s : FS) (path : List UInt8) (l : Locals) : List PathAccess :=
  let dest := readInode s l.destInode path l.lookupBuffer
  if dest.ret ≠ 0 then []
  else if dest.destInode.type = directoryType ∧ isEmptyDir s dest.destInode l = false then []
  else splitAccesses s path l

/-! ## Reading the path -/

theorem findLastLoopReads_inside {m : ℕ} (hm : m ≤ p.length) {a : PathAccess}
    (ha : a ∈ findLastLoopReads p slash m) : a.Inside p := by
  induction m with
  | zero => exact absurd ha List.not_mem_nil
  | succ i ih =>
    unfold findLastLoopReads at ha
    rcases List.mem_cons.mp ha with rfl | ha
    · exact ⟨by omega, by omega⟩
    · split_ifs at ha
      · exact absurd ha List.not_mem_nil
      · exact ih (by omega) ha

/-- `find_last_of` reads characters of the path only, wherever it is to start. -/
theorem findLastOfReads_inside {last : ℤ} {a : PathAccess} (ha : a ∈ findLastOfReads p slash last) :
    a.Inside p := by
  apply findLastLoopReads_inside _ ha
  split_ifs <;> omega

/-! ## Writing the directory -/

/-- There is a separator in front of the last character, and fewer than `NAME_LENGTH` characters in
front of the last one of them. -/
def FatherFits (p : List UInt8) : Prop :=
  ∃ d n x, p = d ++ slash :: n ++ [x] ∧ slash ∉ n ∧ d.length < nameLength

/-- In terms of what `find_last_of` finds. -/
theorem fatherFits_concat_iff : FatherFits (q ++ [x])
    ↔ 0 ≤ findLastLoop q slash q.length ∧ findLastLoop q slash q.length < nameLength := by
  have hpos : ∀ {d n}, slash ∉ n → findLastLoop (d ++ slash :: n) slash (d ++ slash :: n).length
      = d.length := by
    intro d n hn
    apply findLastLoop_append hn _ le_rfl
    rw [List.length_append, List.length_cons]
    omega
  constructor
  · intro ⟨d, n, y, heq, hn, hfit⟩
    have hq : q = d ++ slash :: n := (List.append_inj' heq rfl).1
    rw [hq, hpos hn]
    exact ⟨by omega, by exact_mod_cast hfit⟩
  · intro ⟨hge, hlt⟩
    have hmem : slash ∈ q := by
      by_contra hno
      rw [findLastLoop_of_notMem hno le_rfl] at hge
      omega
    have ⟨d, n, hq, hn⟩ := exists_last_slash hmem
    refine ⟨d, n, x, by rw [hq], hn, ?_⟩
    rw [hq, hpos hn] at hlt
    exact_mod_cast hlt

theorem not_fatherFits_nil : ¬ FatherFits [] := by
  intro ⟨d, n, x, heq, _⟩
  simp at heq

/-- `get_father_path` stays inside the array exactly if the directory fits. -/
theorem getFatherPathAccesses_inside_iff :
    (∀ a ∈ getFatherPathAccesses p, a.Inside p) ↔ FatherFits p := by
  unfold getFatherPathAccesses
  rcases List.eq_nil_or_concat' p with rfl | ⟨q, x, rfl⟩
  · refine iff_of_false (fun h => ?_) not_fatherFits_nil
    have hlast : PathAccess.Inside [] (.father (-1)) := h _ (by simp [findLastOf, findLastLoop])
    exact absurd hlast.1 (by decide)
  · rw [fatherFits_concat_iff, findLastOf_concat]
    simp only [List.forall_mem_append]
    have hread : ∀ a ∈ findLastOfReads (q ++ [x]) slash ((q ++ [x]).length - 2),
        a.Inside (q ++ [x]) := fun _ => findLastOfReads_inside
    generalize findLastLoop q slash q.length = pos
    constructor
    · rintro ⟨_, hwrites⟩
      -- the last write is at the position of the separator
      by_cases hzero : pos = 0
      · rw [hzero]
        decide
      · rw [if_neg hzero] at hwrites
        exact hwrites (.father pos) (by simp)
    · rintro ⟨hge, hlt⟩
      refine ⟨hread, ?_⟩
      split_ifs with hzero
      · simp [PathAccess.Inside]
      · intro a ha
        rcases List.mem_append.mp ha with ha | ha
        · obtain ⟨i, hi, hai⟩ := List.mem_map.mp ha
          rw [List.mem_range, Int.emod_eq_of_lt hge (by simp only [nameLength] at hlt; omega)] at hi
          rw [← hai]
          exact ⟨by omega, by omega⟩
        · rw [List.mem_singleton.mp ha]
          exact ⟨hge, hlt⟩

/-- The search for the name reads the path only. -/
theorem splitAccesses_inside_iff : (∀ a ∈ splitAccesses s p l, a.Inside p) ↔ FatherFits p := by
  unfold splitAccesses
  rw [List.forall_mem_append, getFatherPathAccesses_inside_iff, and_iff_left]
  intro a ha
  match getFatherPath p, ha with
  | none, ha => exact absurd ha List.not_mem_nil
  | some d, ha =>
    rw [Option.elim_some] at ha
    split_ifs at ha
    · exact absurd ha List.not_mem_nil
    · exact findLastOfReads_inside ha

/-! ## The calls -/

/-- `is_dir_path` needs a character, and `get_father_path` a directory that fits. -/
theorem openAccesses_inside_iff (hmissing : (readInode s l.destInode p l.lookupBuffer).ret ≠ 0)
    (hcreate : createMode mode = true) :
    (∀ a ∈ openAccesses s p mode l, a.Inside p)
      ↔ (p.getLast? = some slash ∧ isDirMode mode = false) ∨ FatherFits p := by
  unfold openAccesses
  rw [if_neg hmissing, if_neg (by rw [hcreate]; decide), List.forall_mem_cons]
  rcases List.eq_nil_or_concat' p with rfl | ⟨q, x, rfl⟩
  · refine iff_of_false (fun h => absurd h.1.1 (by decide)) ?_
    intro h
    rcases h with h | h
    · exact absurd h.1 (by simp)
    · exact not_fatherFits_nil h
  · have hlast : PathAccess.Inside (q ++ [x]) (.path ((q ++ [x]).length - 1)) := by
      rw [List.length_append, List.length_singleton]
      exact ⟨by omega, by rw [List.length_append, List.length_singleton]; omega⟩
    rw [isDirPath_concat, Option.elim_some, List.getLast?_concat, Option.some.injEq,
      and_iff_right hlast]
    by_cases hdir : x = slash ∧ isDirMode mode = false
    · rw [if_pos (by simpa using hdir)]
      exact iff_of_true (fun a ha => absurd ha List.not_mem_nil) (Or.inl hdir)
    · rw [if_neg (by simpa using hdir), splitAccesses_inside_iff]
      exact ⟨Or.inr, fun h => h.resolve_left hdir⟩

/-- `syscall_unlink` takes apart the paths that it finds, unless they lead to a directory that is not
empty. -/
theorem unlinkAccesses_inside_iff (hfound : (readInode s l.destInode p l.lookupBuffer).ret = 0) :
    (∀ a ∈ unlinkAccesses s p l, a.Inside p)
      ↔ ((readInode s l.destInode p l.lookupBuffer).destInode.type = directoryType
          ∧ isEmptyDir s (readInode s l.destInode p l.lookupBuffer).destInode l = false)
        ∨ FatherFits p := by
  have hsplit : unlinkAccesses s p l
      = if (readInode s l.destInode p l.lookupBuffer).destInode.type = directoryType
          ∧ isEmptyDir s (readInode s l.destInode p l.lookupBuffer).destInode l = false then []
        else splitAccesses s p l := if_neg (not_not.mpr hfound)
  rw [hsplit]
  split_ifs with hfull
  · exact iff_of_true (fun a ha => absurd ha List.not_mem_nil) (Or.inl hfull)
  · rw [splitAccesses_inside_iff]
    exact ⟨Or.inr, fun h => h.resolve_left hfull⟩

/-- A call that gets as far as splitting the path stays inside the path and the array exactly if the
directory in the path fits. -/
theorem accesses_inside_iff (s : FS) (path : List UInt8) (mode : ℤ) (l : Locals) :
    ((∀ a ∈ openAccesses s path mode l, a.Inside path)
      ↔ (readInode s l.destInode path l.lookupBuffer).ret = 0 ∨ createMode mode = false
        ∨ (path.getLast? = some slash ∧ isDirMode mode = false) ∨ FatherFits path)
    ∧ ((∀ a ∈ unlinkAccesses s path l, a.Inside path)
      ↔ (readInode s l.destInode path l.lookupBuffer).ret ≠ 0
        ∨ ((readInode s l.destInode path l.lookupBuffer).destInode.type = directoryType
          ∧ isEmptyDir s (readInode s l.destInode path l.lookupBuffer).destInode l = false)
        ∨ FatherFits path) := by
  constructor
  · by_cases hfound : (readInode s l.destInode path l.lookupBuffer).ret = 0
    · refine iff_of_true ?_ (Or.inl hfound)
      rw [openAccesses, if_pos hfound]
      exact fun a ha => absurd ha List.not_mem_nil
    by_cases hcreate : createMode mode = true
    · rw [openAccesses_inside_iff hfound hcreate, hcreate]
      simp [hfound]
    · have hcreate : createMode mode = false := by simpa using hcreate
      refine iff_of_true ?_ (Or.inr (Or.inl hcreate))
      rw [openAccesses, if_neg hfound, if_pos hcreate]
      exact fun a ha => absurd ha List.not_mem_nil
  · by_cases hfound : (readInode s l.destInode path l.lookupBuffer).ret = 0
    · rw [unlinkAccesses_inside_iff hfound]
      exact ⟨Or.inr, fun h => h.resolve_left (not_not.mpr hfound)⟩
    · refine iff_of_true ?_ (Or.inl hfound)
      have hnone : unlinkAccesses s path l = [] := if_pos hfound
      rw [hnone]
      exact fun a ha => absurd ha List.not_mem_nil

/-- `open("a", O_CREAT)`: the path has no separator, so -1 is taken for the length of the directory.
`open("", O_CREAT)` reads the byte in front of the path. -/
theorem open_writes_before_array :
    .father (-1) ∈ openAccesses (dirFS 0) [97] 64 zeroLocals
      ∧ ¬ PathAccess.Inside [97] (.father (-1))
      ∧ .father 64 ∈ openAccesses (dirFS 0) [97] 64 zeroLocals
      ∧ ¬ PathAccess.Inside [97] (.father 64)
      ∧ .path (-1) ∈ openAccesses (dirFS 0) [] 64 zeroLocals
      ∧ ¬ PathAccess.Inside [] (.path (-1)) := by
  have hmissing : (readInode (dirFS 0) zeroLocals.destInode [97] zeroLocals.lookupBuffer).ret = -1 :=
    readInode_malformed (Or.inl (by decide))
  have hempty : (readInode (dirFS 0) zeroLocals.destInode [] zeroLocals.lookupBuffer).ret = -1 :=
    readInode_malformed (Or.inl (by decide))
  have hdir : isDirPath [97] = some false := by decide
  -- there is no separator to find
  have hpos : findLastOf [97] slash (([97] : List UInt8).length - 2) = -1 := by decide
  have hwrites : ∀ a ∈ getFatherPathAccesses [97], a ∈ openAccesses (dirFS 0) [97] 64 zeroLocals := by
    intro a ha
    rw [openAccesses, hmissing, if_neg (by decide), if_neg (by decide), hdir, Option.elim_some,
      if_neg (by decide)]
    exact List.mem_cons_of_mem _ (List.mem_append_left _ ha)
  refine ⟨hwrites _ ?_, fun h => absurd h.1 (by decide), hwrites _ ?_, fun h => absurd h.2 (by decide),
    ?_, fun h => absurd h.1 (by decide)⟩
  · unfold getFatherPathAccesses
    simp only [hpos]
    simp
  · unfold getFatherPathAccesses
    simp only [hpos]
    apply List.mem_append_right
    rw [if_neg (by decide)]
    apply List.mem_append_left
    exact List.mem_map.mpr ⟨64, List.mem_range.mpr (by decide), rfl⟩
  · rw [openAccesses, hempty, if_neg (by decide), if_neg (by decide)]
    exact List.mem_cons_self

end SeL4Sys
