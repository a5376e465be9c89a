import SeL4Sys.PageContent

/-!
# The contents of pages over whole runs

Every small step keeps the bytes of every page, apart from a store to the byte. For the stores of the
server this needs that the page is known to be dirty or has no pagefile: its own entry in the page
table does not see them.
-/

namespace SeL4Sys

open Function

variable {R : VmRules} {s s' : Sys} {b : Backing} {P P' Q : Proc} {r : Backing × Proc}
  {p i f vaddr : ℕ} {o : Fin pageSize} {v : UInt8}

/-- Byte `o` of the page of VFrame `i` is `v`. -/
def ByteAt (b : Backing) (P : Proc) (i : ℕ) (o : Fin pageSize) (v : UInt8) : Prop :=
  (content b P i).map (fun page => page o) = some v

/-- The address is that of byte `o` of the page of VFrame `i`. -/
def Proc.Hits (P : Proc) (i : ℕ) (o : Fin pageSize) (vaddr : ℕ) : Prop :=
  offsetOf vaddr = o ∧ ∃ r, (P.vframe i).reserve = some r ∧ pageOf r.start = pageOf vaddr

/-- The page at the address has no pagefile yet, or its entry in the page table is dirty. -/
def Proc.Unsaved (P : Proc) (vaddr : ℕ) : Prop :=
  ∀ i r, (P.vframe i).inRAM = true → (P.vframe i).reserve = some r →
    pageOf r.start = pageOf vaddr →
    (P.vframe i).pagefile = none ∨ (getStatusBits P.vspace vaddr).2 = true

theorem ByteAt.isSome (h : ByteAt b P i o v) : (content b P i).isSome := by
  have ⟨page, hpage, _⟩ := Option.map_eq_some_iff.mp h
  rw [hpage]
  rfl

/-! ## Small steps -/

/-- An access to a mapped page: the entry keeps its frame, and frames may change. -/
def Proc.access (P : Proc) (page f : ℕ) (a d : Bool) (frame : ℕ → Page) : Proc :=
  { P with vspace := update P.vspace page (.mapped f a d), frame := frame }

section access
variable {page : ℕ} {a d : Bool} (a' d' : Bool) (frame : ℕ → Page)

theorem access_vspace (h : P.vspace page = .mapped f a d) {q g : ℕ} {a₁ d₁ : Bool}
    (hq : P.vspace q = .mapped g a₁ d₁) : ∃ a₂ d₂,
      (P.access page f a' d' frame).vspace q = .mapped g a₂ d₂ := by
  by_cases heq : q = page
  · rw [heq, h] at hq
    cases hq
    refine ⟨a', d', ?_⟩
    rw [heq]
    exact update_self ..
  · exact ⟨a₁, d₁, (update_of_ne heq ..).trans hq⟩

/-- The contents after an access: the same frames with what they hold now. -/
theorem content_access (htable : P.Table) (h : P.vspace page = .mapped f a d)
    (hram : (P.vframe i).inRAM = true) : ∃ r g a₁ d₁,
      (P.vframe i).reserve = some r ∧ P.vspace (pageOf r.start) = .mapped g a₁ d₁
      ∧ content b P i = some (P.frame g)
      ∧ content b (P.access page f a' d' frame) i = some (frame g) := by
  have ⟨r, g, a₁, d₁, hr, hmap⟩ := htable.resident i hram
  have ⟨a₂, d₂, hmap'⟩ := access_vspace a' d' frame h hmap
  exact ⟨r, g, a₁, d₁, hr, hmap, content_inRAM hram hr hmap,
    content_inRAM (P := P.access page f a' d' frame) hram hr hmap'⟩

theorem content_access_absent (hram : (P.vframe i).inRAM = false) :
    content b (P.access page f a' d' frame) i = content b P i := by
  rw [content_absent hram, content_absent (P := P.access page f a' d' frame) hram]
  rfl

/-- A load keeps all contents. -/
theorem content_access_same (htable : P.Table) (h : P.vspace page = .mapped f a d) (i : ℕ) :
    content b (P.access page f a' d' P.frame) i = content b P i := by
  by_cases hram : (P.vframe i).inRAM = true
  · have ⟨r, g, a₁, d₁, _, _, hold, hnew⟩ :=
      content_access (b := b) a' d' P.frame htable h hram
    rw [hold, hnew]
  · exact content_access_absent _ _ _ (by simpa using hram)

/-- A store keeps all other bytes. -/
theorem byteAt_store (htable : P.Table) (h : P.vspace (pageOf vaddr) = .mapped f a d) (byte : UInt8)
    (hmiss : ¬ P.Hits i o vaddr) (hbyte : ByteAt b P i o v) :
    ByteAt b (P.access (pageOf vaddr) f a' d' (storeByte P.frame f vaddr byte)) i o v := by
  by_cases hram : (P.vframe i).inRAM = true
  · have ⟨r, g, a₁, d₁, hr, hmap, hold, hnew⟩ := content_access (b := b) a' d'
      (storeByte P.frame f vaddr byte) htable h hram
    rw [ByteAt, hold, Option.map_some] at hbyte
    rw [ByteAt, hnew, Option.map_some, ← hbyte, storeByte]
    by_cases hg : g = f
    · -- the same frame is the same page, and so the offset is another one
      rw [hg] at hmap ⊢
      have hpage := htable.single _ _ f a₁ d₁ a d hmap h
      have hne : o ≠ offsetOf vaddr := fun heq => hmiss ⟨heq.symm, r, hr, hpage⟩
      rw [update_self, update_of_ne hne]
    · rw [update_of_ne hg]
  · rw [ByteAt, content_access_absent _ _ _ (by simpa using hram)]
    exact hbyte

/-- After an access the meaning of the dirty bits is kept when the page is dirty, or has no pagefile,
or its frame is unchanged. -/
theorem clean_access (htable : P.Table) (hclean : Clean b P) (h : P.vspace page = .mapped f a d)
    (hframe : ∀ g, g ≠ f → frame g = P.frame g)
    (hself : d' = false → ∀ i r, (P.vframe i).inRAM = true → (P.vframe i).reserve = some r →
      pageOf r.start = page → (P.vframe i).pagefile ≠ none → d = false ∧ frame f = P.frame f) :
    Clean b (P.access page f a' d' frame) := by
  intro i r g a₁ name hram hr hmap hfile
  have hmap : update P.vspace page (.mapped f a' d') (pageOf r.start) = .mapped g a₁ false :=
    hmap
  show _ = frame g
  by_cases hpage : pageOf r.start = page
  · rw [hpage, update_self] at hmap
    cases hmap
    have hfile' : (P.vframe i).pagefile ≠ none := by
      rw [show (P.vframe i).pagefile = some name from hfile]
      exact fun h => by cases h
    have ⟨hd, hsame⟩ := hself rfl i r hram hr hpage hfile'
    rw [hd, ← hpage] at h
    rw [hsame]
    exact hclean i r f a name hram hr h hfile
  · rw [update_of_ne hpage] at hmap
    have hg : g ≠ f := by
      intro heq
      rw [heq] at hmap
      exact hpage (htable.single _ _ f _ _ _ _ hmap h)
    rw [hframe g hg]
    exact hclean i r g a₁ name hram hr hmap hfile

end access

theorem storeByte_of_ne {frame : ℕ → Page} {g : ℕ} (byte : UInt8) (h : g ≠ f) :
    storeByte frame f vaddr byte g = frame g :=
  update_of_ne h ..

/-- A page that is reserved keeps all contents. -/
theorem keeps_reservePage (hok : P.Ok) (hclean : Clean b P) (hbound : P.SwapBound) (vaddr : ℕ) :
    Keeps b P (b, P.reservePage vaddr) := by
  have hlast : ((P.reservePage vaddr).vframe P.vframes).pagefile = none := by
    rw [Proc.reservePage_vframe_self]
    rfl
  refine ⟨?_, ?_⟩
  · intro j hsome
    -- a VFrame past the end has no contents
    have hj : j ≠ P.vframes := by
      intro heq
      have hram : (P.vframe j).inRAM = false := by
        by_contra hram
        have := hok.table.within j (by simpa using hram)
        omega
      have hfile : (P.vframe j).pagefile = none := by
        by_contra hne
        have := (hbound j hne).1
        omega
      rw [content_absent hram, hfile] at hsome
      cases hsome
    by_cases hram : (P.vframe j).inRAM = true
    · have ⟨r, g, a, d, hr, hmap⟩ := hok.table.resident j hram
      rw [content_inRAM hram hr hmap, content_inRAM (P := P.reservePage vaddr) _ _
        (Proc.reservePage_mapped.mpr hmap)]
      · rfl
      · rw [Proc.reservePage_vframe_of_ne hj]
        exact hram
      · rw [Proc.reservePage_vframe_of_ne hj]
        exact hr
    · have hram : (P.vframe j).inRAM = false := by simpa using hram
      rw [content_absent hram, content_absent, Proc.reservePage_vframe_of_ne hj]
      rw [Proc.reservePage_vframe_of_ne hj]
      exact hram
  · intro j r g a name hram hr hmap hfile
    have hj : j ≠ P.vframes := by
      intro heq
      rw [heq] at hfile
      rw [show ((P.reservePage vaddr).vframe P.vframes).pagefile = some name from hfile] at hlast
      cases hlast
    have hvframe : (P.reservePage vaddr).vframe j = P.vframe j := Proc.reservePage_vframe_of_ne hj
    rw [hvframe] at hram hr hfile
    exact hclean j r g a name hram hr (Proc.reservePage_mapped.mp hmap) hfile

/-! ## Steps of the system -/

/-- The stores that keep byte `o` of the page of VFrame `i` of process `p`. A store of the server
has to be to an unsaved page. -/
def keepRules (p i : ℕ) (o : Fin pageSize) : VmRules where
  store q P vaddr := q = p → ¬ P.Hits i o vaddr
  project q P vaddr := P.Unsaved vaddr ∧ (q = p → ¬ P.Hits i o vaddr)
  alloc _ _ _ := True

/-- What the contents of pages rest on: the dirty bits mean what they should, the pagefiles are not
shared and none is used before the memory is full. -/
structure Sys.Saved (s : Sys) : Prop where
  procs : s.ProcsOk
  swap : s.SwapOk
  bound : ∀ p P, s.proc p = some P → P.SwapBound
  clean : ∀ p P, s.proc p = some P → Clean s.toBacking P

/-- The pagefile that the picked page is saved to belongs to no other page. -/
theorem Picks.name_ne {P₁ : Proc} {rv : Reservation} {d : Bool} {u : ℕ} (hs : s.SwapOk)
    (hP : s.proc p = some P) (hpicks : Picks P P₁ u rv f d) (hok : P.Ok) {x : ℕ × ℕ}
    (hx : x ≠ (p, u)) : s.link x ≠ some (pageOut s.swap (P₁.vframe u)).name := by
  match hfile : (P.vframe u).pagefile with
  | none =>
    rw [pageOut, hpicks.aged.pagefile, hfile]
    exact hs.getPagefile_ne x
  | some name =>
    rw [pageOut, hpicks.aged.pagefile, hfile]
    intro hlink
    have hself : s.link (p, u) = some name := by
      rw [link_of_proc hP, Proc.link, if_pos (hok.table.within u hpicks.inRAM), hfile]
    exact hx (hs.unique x (p, u) name hlink hself)

theorem Proc.SwapBound.link (h : P.SwapBound) (i : ℕ) : P.link i = (P.vframe i).pagefile := by
  rw [Proc.link]
  split_ifs with hlt
  · rfl
  · by_contra hne
    exact hlt (h i (Ne.symm hne)).1

/-- The pagefiles of other processes and of this one are not written, apart from the one of the page
that is picked. -/
def FilesKept (s : Sys) (p : ℕ) (b : Backing) : Prop :=
  ∀ q Q j name, q ≠ p → s.proc q = some Q → (Q.vframe j).pagefile = some name →
    b.file name = s.file name

/-- `alloc_frame` keeps the contents of all pages. -/
theorem allocFrame_keeps (hs : s.Saved) (hP : s.proc p = some P) (hn : i < P.vframes)
    (h : allocFrame s.toBacking P i = some r) : Keeps s.toBacking P r ∧ FilesKept s p r.1 := by
  have hok := hs.procs p P hP
  have hbound := hs.bound p P hP
  cases allocFrame_allocated hok h with
  | new res hr hnew => exact ⟨keeps_allotted hok hbound hn hr hnew, fun _ _ _ _ _ _ _ => rfl⟩
  | replaced res rv u f P₁ d hr hfull hpicks =>
    have hname := fun x => hpicks.name_ne (x := x) hs.swap hP hok
    refine ⟨hpicks.keeps hok (hs.clean p P hP) hn hr ?_, ?_⟩
    · intro j hj
      have hne := hname (p, j) (fun heq => hj (congrArg Prod.snd heq))
      rw [link_of_proc hP, hbound.link] at hne
      exact hne
    · intro q Q j name hq hQ hfile
      have hne := hname (q, j) (fun heq => hq (congrArg Prod.fst heq))
      rw [link_of_proc hQ, (hs.bound q Q hQ).link, hfile] at hne
      exact Picks.backing_file_of_ne fun heq => hne (congrArg some heq)

/-- What a small step of process `q` keeps, with the byte of process `p` that is watched. -/
structure ProcKept (s : Sys) (q : ℕ) (P : Proc) (p i : ℕ) (o : Fin pageSize)
    (r : Backing × Proc) : Prop where
  clean : Clean r.1 r.2
  byte : q = p → ∀ v, ByteAt s.toBacking P i o v → ByteAt r.1 r.2 i o v
  files : FilesKept s q r.1

theorem Keeps.procKept {q : ℕ} (h : Keeps s.toBacking P r) (hfiles : FilesKept s q r.1) :
    ProcKept s q P p i o r where
  clean := h.clean
  byte _ v hbyte := by
    rw [ByteAt, h.content i hbyte.isSome]
    exact hbyte
  files := hfiles

theorem ProcStep.kept {q : ℕ} (hs : s.Saved) (hP : s.proc q = some P)
    (h : ProcStep (keepRules p i o) q (s.toBacking, P) r) : ProcKept s q P p i o r := by
  have hok := hs.procs q P hP
  have hclean := hs.clean q P hP
  have hbound := hs.bound q P hP
  cases h with
  | @load _ _ page f a d hmap =>
    show ProcKept s q P p i o (s.toBacking, P.access page f true d P.frame)
    refine ⟨?_, ?_, fun _ _ _ _ _ _ _ => rfl⟩
    · exact clean_access _ _ _ hok.table hclean hmap (fun _ _ => rfl)
        fun hd _ _ _ _ _ _ => ⟨hd, rfl⟩
    · intro _ v hbyte
      show ByteAt s.toBacking (P.access page f true d P.frame) i o v
      rw [ByteAt, content_access_same _ _ hok.table hmap]
      exact hbyte
  | @store _ _ vaddr f a d byte hmap hrule =>
    show ProcKept s q P p i o
      (s.toBacking, P.access (pageOf vaddr) f true true (storeByte P.frame f vaddr byte))
    refine ⟨?_, ?_, fun _ _ _ _ _ _ _ => rfl⟩
    · exact clean_access _ _ _ hok.table hclean hmap (fun g hg => storeByte_of_ne byte hg)
        fun hd => by cases hd
    · exact fun hq v hbyte => byteAt_store _ _ hok.table hmap byte (hrule hq) hbyte
  | @project _ _ vaddr f a d byte hmap hrule =>
    have hsame : ({ P with frame := storeByte P.frame f vaddr byte } : Proc)
        = P.access (pageOf vaddr) f a d (storeByte P.frame f vaddr byte) := by
      rw [Proc.access, ← hmap, update_eq_self]
    rw [hsame]
    refine ⟨?_, ?_, fun _ _ _ _ _ _ _ => rfl⟩
    · apply clean_access _ _ _ hok.table hclean hmap (fun g hg => storeByte_of_ne byte hg)
      intro hd j rj hram hrj hpage hfile
      -- the server sets no dirty bit, so the page must be one that is saved anyway
      have hunsaved := hrule.1 j rj hram hrj hpage
      rw [getStatusBits, hmap] at hunsaved
      rcases hunsaved with hnone | hdirty
      · exact absurd hnone hfile
      · rw [hd] at hdirty
        cases hdirty
    · exact fun hq v hbyte => byteAt_store _ _ hok.table hmap byte (hrule.2 hq) hbyte
  | heap _ _ => exact ⟨hclean, fun _ _ hbyte => hbyte, fun _ _ _ _ _ _ _ => rfl⟩
  | @reserve _ _ vaddr _ =>
    exact (keeps_reservePage hok hclean hbound vaddr).procKept fun _ _ _ _ _ _ _ => rfl
  | alloc hn _ halloc =>
    obtain ⟨hkeeps, hfiles⟩ := allocFrame_keeps hs hP hn halloc
    exact hkeeps.procKept hfiles

/-- Contents depend on the pagefile of the page only. -/
theorem content_files {b b' : Backing}
    (h : ∀ name, (P.vframe i).pagefile = some name → b'.file name = b.file name) :
    content b' P i = content b P i := by
  rw [content, content]
  split_ifs
  · rfl
  · cases hfile : (P.vframe i).pagefile with
    | none => rfl
    | some name => rw [Option.map_some, Option.map_some, h name hfile]

theorem Clean.files {b b' : Backing} (hclean : Clean b P)
    (h : ∀ i name, (P.vframe i).pagefile = some name → b'.file name = b.file name) :
    Clean b' P := by
  intro i r f a name hram hr hmap hfile
  rw [h i name hfile]
  exact hclean i r f a name hram hr hmap hfile

/-- Byte `o` of the page of VFrame `i` of process `p` is `v`. -/
def Sys.ByteIs (s : Sys) (p i : ℕ) (o : Fin pageSize) (v : UInt8) : Prop :=
  ∃ P, s.proc p = some P ∧ ByteAt s.toBacking P i o v

/-- A small step of a process keeps what the contents rest on, and the byte. -/
theorem Sys.Saved.proc {q : ℕ} (hs : s.Saved) (hP : s.proc q = some P)
    (h : ProcStep (keepRules p i o) q (s.toBacking, P) r) :
    (s.setProc q r).Saved ∧ (s.ByteIs p i o v → (s.setProc q r).ByteIs p i o v) := by
  have hkept := h.kept hs hP
  have hfiles : ∀ q' Q, q' ≠ q → s.proc q' = some Q → ∀ j name,
      (Q.vframe j).pagefile = some name → r.1.file name = s.file name :=
    fun q' Q hq hQ j name => hkept.files q' Q j name hq hQ
  refine ⟨⟨?_, ?_, ?_, ?_⟩, ?_⟩
  · exact hs.procs.setProc (h.ok (hs.procs q P hP))
  · exact hs.swap.linkStep hP (h.linkStep (hs.procs q P hP))
  · intro q' Q hQ
    by_cases hq : q' = q
    · rw [hq, setProc_proc_self] at hQ
      rw [← Option.some.inj hQ]
      exact h.swapBound (hs.procs q P hP) (hs.bound q P hP)
    · rw [setProc_proc_of_ne hq] at hQ
      exact hs.bound q' Q hQ
  · intro q' Q hQ
    by_cases hq : q' = q
    · rw [hq, setProc_proc_self] at hQ
      rw [← Option.some.inj hQ]
      exact hkept.clean
    · rw [setProc_proc_of_ne hq] at hQ
      exact (hs.clean q' Q hQ).files (hfiles q' Q hq hQ)
  · intro ⟨Q, hQ, hbyte⟩
    by_cases hq : q = p
    · rw [← hq, hP] at hQ
      rw [← Option.some.inj hQ] at hbyte
      refine ⟨r.2, ?_, hkept.byte hq v hbyte⟩
      rw [← hq]
      exact setProc_proc_self
    · refine ⟨Q, (setProc_proc_of_ne (Ne.symm hq)).trans hQ, ?_⟩
      rw [ByteAt, setProc_toBacking, content_files (hfiles p Q (Ne.symm hq) hQ i)]
      exact hbyte

theorem Sys.Saved.procSteps {q : ℕ} (hs : s.Saved) (hP : s.proc q = some P)
    (h : Relation.ReflTransGen (ProcStep (keepRules p i o) q) (s.toBacking, P) r) :
    (s.setProc q r).Saved ∧ (s.ByteIs p i o v → (s.setProc q r).ByteIs p i o v) := by
  induction h with
  | refl =>
    rw [setProc_self hP]
    exact ⟨hs, id⟩
  | tail _ hstep ih =>
    have hnext := ih.1.proc (v := v) setProc_proc_self hstep
    rw [setProc_setProc] at hnext
    exact ⟨hnext.1, fun h => hnext.2 (ih.2 h)⟩

theorem syscallKill_file (q : ℕ) : (syscallKill s q).file = s.file := by
  rw [syscallKill]
  split <;> rfl

theorem Sys.Saved.kill (hs : s.Saved) (q : ℕ) :
    (syscallKill s q).Saved
      ∧ (s.ByteIs p i o v → (syscallKill s q).proc p ≠ none → (syscallKill s q).ByteIs p i o v) := by
  have hold : ∀ q' Q, (syscallKill s q).proc q' = some Q → s.proc q' = some Q := by
    intro q' Q hQ
    rw [syscallKill_proc] at hQ
    split_ifs at hQ
    exact hQ
  have hfile : ∀ name, (syscallKill s q).file name = s.file name := by
    intro name
    rw [syscallKill_file]
  refine ⟨⟨?_, hs.swap.kill q, ?_, ?_⟩, ?_⟩
  · exact fun q' Q hQ => hs.procs q' Q (hold q' Q hQ)
  · exact fun q' Q hQ => hs.bound q' Q (hold q' Q hQ)
  · exact fun q' Q hQ => (hs.clean q' Q (hold q' Q hQ)).files fun _ name _ => hfile name
  · intro ⟨P, hP, hbyte⟩ hlive
    have ⟨Q, hQ⟩ := Option.ne_none_iff_exists'.mp hlive
    have heq := hold p Q hQ
    rw [hP] at heq
    rw [← Option.some.inj heq] at hQ
    refine ⟨P, hQ, ?_⟩
    rw [ByteAt, content_files fun name _ => hfile name]
    exact hbyte

theorem Sys.Saved.start {q : ℕ} {image : ℕ → Bool} (hs : s.Saved) (hq : s.proc q = none)
    (hnew : newProcess (imageSpace image) = some P) :
    (s.setProc q (s.toBacking, P)).Saved
      ∧ (s.ByteIs p i o v → (s.setProc q (s.toBacking, P)).ByteIs p i o v) := by
  have hnone := (newProcess_stackOk hnew).1.pagefile
  refine ⟨⟨hs.procs.setProc (newProcess_ok hnew), hs.swap.start hq hnew, ?_, ?_⟩, ?_⟩
  · intro q' Q hQ
    by_cases hne : q' = q
    · rw [hne, setProc_proc_self] at hQ
      rw [← Option.some.inj hQ]
      exact fun j hj => absurd (hnone j) hj
    · rw [setProc_proc_of_ne hne] at hQ
      exact hs.bound q' Q hQ
  · intro q' Q hQ
    by_cases hne : q' = q
    · rw [hne, setProc_proc_self] at hQ
      rw [← Option.some.inj hQ]
      intro j r f a name _ _ _ hfile
      rw [hnone j] at hfile
      cases hfile
    · rw [setProc_proc_of_ne hne] at hQ
      exact hs.clean q' Q hQ
  · intro ⟨Q, hQ, hbyte⟩
    have hne : p ≠ q := by
      intro heq
      rw [heq, hq] at hQ
      cases hQ
    exact ⟨Q, (setProc_proc_of_ne hne).trans hQ, hbyte⟩

/-- An operation that keeps to the rules keeps what the contents rest on, and the byte while the
process lives. -/
theorem Sys.Saved.big (hs : s.Saved) (h : VmBig (keepRules p i o) s s') :
    s'.Saved ∧ (s.ByteIs p i o v → s'.proc p ≠ none → s'.ByteIs p i o v) := by
  cases h with
  | proc hP hsteps =>
    have hkept := hs.procSteps (v := v) hP hsteps
    exact ⟨hkept.1, fun hbyte _ => hkept.2 hbyte⟩
  | kill q => exact hs.kill q
  | start hq hnew =>
    have hkept := hs.start (p := p) (i := i) (o := o) (v := v) hq hnew
    exact ⟨hkept.1, fun hbyte _ => hkept.2 hbyte⟩

theorem bootSys_saved {names : List Name} {w : Swap} {file : Name → Page}
    (hinit : pagefileInit names = some w) (hboot : BootNames names) : (bootSys w file).Saved where
  procs := bootSys_procsOk
  swap := bootSys_swapOk hinit hboot
  bound _ _ h := by cases h
  clean _ _ h := by cases h

/-- A store of the server is to an unsaved page. -/
def ProjectsUnsaved (s : Sys) : VmOp → Prop
  | .project p vaddr _ => ∀ P, s.proc p = some P → P.Unsaved vaddr
  | _ => True

/-- The operation does not store to byte `o` of the page of VFrame `i` of process `p`. -/
def Misses (p i : ℕ) (o : Fin pageSize) (s : Sys) : VmOp → Prop
  | .write q vaddr _ => q = p → ∀ P, s.proc q = some P → ¬ P.Hits i o vaddr
  | .project q vaddr _ => q = p → ∀ P, s.proc q = some P → ¬ P.Hits i o vaddr
  | _ => True

theorem keepRules_allows {op : VmOp} (hop : ProjectsUnsaved s op) (hmiss : Misses p i o s op) :
    (keepRules p i o).Allows s op := by
  cases op with
  | write q vaddr byte => exact fun P hP hq => hmiss hq P hP
  | project q vaddr byte => exact fun P hP => ⟨hop P hP, fun hq => hmiss hq P hP⟩
  | fault q vaddr ip => exact fun _ _ => ⟨fun _ => trivial, fun _ _ _ => trivial⟩
  | _ => trivial

/-- An operation keeps every byte that it does not store to. -/
theorem execVm_byteIs {op : VmOp} (hs : s.Saved) (hop : ProjectsUnsaved s op)
    (hmiss : Misses p i o s op) (h : execVm s op = some s') (hbyte : s.ByteIs p i o v)
    (hlive : s'.proc p ≠ none) : s'.ByteIs p i o v :=
  (hs.big (hs.procs.big (keepRules_allows hop hmiss) h)).2 hbyte hlive

/-- The process of an operation on a process. -/
def VmOp.sender : VmOp → ℕ
  | .read p _ => p
  | .write p _ _ => p
  | .project p _ _ => p
  | .fault p _ _ => p
  | .brk p _ => p
  | .start _ => 0
  | .kill p => p

theorem misses_of_ne {op : VmOp} (h : op.sender ≠ p) : Misses p i o s op := by
  cases op with
  | write q vaddr byte => exact fun hq => absurd hq h
  | project q vaddr byte => exact fun hq => absurd hq h
  | _ => trivial

theorem execVm_saved {op : VmOp} (hs : s.Saved) (hop : ProjectsUnsaved s op)
    (h : execVm s op = some s') : s'.Saved := by
  have hmiss : Misses (op.sender + 1) 0 0 s op := misses_of_ne (Nat.ne_of_lt (Nat.lt_succ_self _))
  exact (hs.big (v := 0) (hs.procs.big (keepRules_allows hop hmiss) h)).1

theorem VmRun.saved {ok : Sys → VmOp → Prop} (hrule : ∀ s op, ok s op → ProjectsUnsaved s op)
    (hs : s.Saved) (h : VmRun ok s s') : s'.Saved := by
  induction h with
  | refl => exact hs
  | tail _ hstep ih =>
    have ⟨op, hop, hexec⟩ := hstep
    exact execVm_saved ih (hrule _ op hop) hexec

/-- VFrame `i` of process `p` is in the list, with the reservation and the contents given. -/
def Sys.ContentIs (s : Sys) (p i : ℕ) (res : Option Reservation) (page : Page) : Prop :=
  ∃ P, s.proc p = some P ∧ i < P.vframes ∧ (P.vframe i).reserve = res
    ∧ content s.toBacking P i = some page

/-- An operation that does not store to the page keeps its contents. -/
theorem execVm_contentIs {op : VmOp} {res : Option Reservation} {page : Page} (hs : s.Saved)
    (hop : ProjectsUnsaved s op) (hmiss : ∀ o, Misses p i o s op) (h : execVm s op = some s')
    (hcontent : s.ContentIs p i res page) (hlive : s'.proc p ≠ none) :
    s'.ContentIs p i res page := by
  have ⟨P, hP, hi, hres, hpage⟩ := hcontent
  have ⟨P', hP'⟩ := Option.ne_none_iff_exists'.mp hlive
  have hbig := hs.procs.big (VmRules.all_allows s op) h
  have ⟨hi', hres'⟩ := hbig.reserve_eq hs.procs hP hP' hi
  have hbyte : ∀ o, ByteAt s'.toBacking P' i o (page o) := by
    intro o
    have hold : s.ByteIs p i o (page o) := ⟨P, hP, by rw [ByteAt, hpage]; rfl⟩
    have ⟨Q, hQ, hnew⟩ := execVm_byteIs hs hop (hmiss o) h hold hlive
    rw [hP'] at hQ
    rw [Option.some.inj hQ]
    exact hnew
  have ⟨page', hpage'⟩ := Option.isSome_iff_exists.mp (hbyte 0).isSome
  refine ⟨P', hP', hi', hres'.trans hres, ?_⟩
  rw [hpage', Option.some.injEq]
  funext o
  have := hbyte o
  rw [ByteAt, hpage', Option.map_some] at this
  exact Option.some.inj this

end SeL4Sys
