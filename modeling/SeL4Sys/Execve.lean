import SeL4Sys.OpenRefused
import SeL4Sys.Requests

/-!
# Starting a program

`syscall_execve` from the path to the new process. The open, the read, the slot and the load follow one
another without a look at what the step before has returned, so the call goes on with the -1 of a failed
open as the place of an inode, and an assertion fails when there is no slot or the file is no program.
-/

namespace SeL4Sys

open Bytes

section
variable {s : Server} {parent : ℕ} {path : List UInt8} {m : Message}

end

end SeL4Sys
