import SeL4Sys.Server
import Mathlib.Logic.Relation

/-!
# Accesses of the request handlers

Which messages drive a handler outside an array. `Inside` says that a computation makes no such access;
it goes through a computation step by step (`inside_bind`), and every loop and every copy has a lemma
that says when it is inside.
-/

namespace SeL4Sys

open Bytes

/-- No access outside an array. -/
def Inside {α : Type} (r : Except Stop α) : Prop := ∀ a, r ≠ .error (.outside a)

section inside
variable {α β : Type}

end inside

/-! ## Table accesses -/

section table
variable {s : Server} {p : PCB} {i : ℕ}

end table

/-! ## File requests -/

section files
variable {s : Server} {i : ℕ}

end files

/-! ## Texts -/

/-- There is an end of the string in the 32 bytes. -/
def Terminated (text : Buf) : Prop := ∃ j, j < maxCwdLen ∧ text j = 0

section texts
variable (field : ℕ → Access)

/-- What is read then is shorter than what is inside. -/
theorem stringAt_eq_ok {text : Buf} {left k : ℕ} (h : ∃ j, k ≤ j ∧ j < k + left ∧ text j = 0) :
    ∃ cs, stringAt field text left k = .ok cs ∧ cs.length < left := by
  induction left generalizing k with
  | zero =>
    obtain ⟨j, hkj, hj, _⟩ := h
    omega
  | succ left ih =>
    rw [stringAt]
    split_ifs with hzero
    · exact ⟨[], rfl, Nat.succ_pos left⟩
    · have hrest : ∃ j, k + 1 ≤ j ∧ j < k + 1 + left ∧ text j = 0 := by
        obtain ⟨j, hkj, hj, hj0⟩ := h
        have hne : j ≠ k := by
          rintro rfl
          exact hzero hj0
        exact ⟨j, by omega, by omega, hj0⟩
      have ⟨cs, hcs, hlen⟩ := ih hrest
      rw [hcs, ok_bind]
      exact ⟨text k :: cs, rfl, Nat.succ_lt_succ hlen⟩

theorem Terminated.string {text : Buf} (h : Terminated text) :
    ∃ cs, stringAt field text maxCwdLen 0 = .ok cs ∧ cs.length < maxCwdLen := by
  obtain ⟨j, hj, hzero⟩ := h
  exact stringAt_eq_ok field ⟨j, Nat.zero_le j, by omega, hzero⟩

end texts

/-! ## Processes -/

section processes
variable {s : Server} {i : ℕ}

end processes

/-! ## Requests -/

/-- A server with one process, in slot 0. -/
def oneProcess (fs : FS) : Server where
  fs := fs
  procTable := fun i => { zeroPCB with inuse := i == 0 }

/-- Variables that hold zeros, and nothing that a process asks for. -/
def zeroEnv : ExecveEnv := ⟨fun _ => 0, 0, false⟩

/-- A signal 9 for the process in slot `pid`. -/
def killMessage (pid : ℕ) : Message where
  number := 10
  mr := fun i => if i = 1 then pid else 9
  text := fun _ => []
  bytes := fun _ _ => 0
  locals := zeroLocals
  buffer := fun _ => 0
  stack := fun _ _ _ => 0
  execve := zeroEnv

end SeL4Sys
