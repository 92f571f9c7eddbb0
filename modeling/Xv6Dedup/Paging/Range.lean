import Xv6Dedup.Paging.Supply

/-!
# Mapping a range of addresses

`mappages` with 32-bit addresses as it is in the source: the loop ends on the page
of the last byte, and both the page and the physical address wrap.
-/

set_option autoImplicit false

namespace Xv6Dedup.Paging.Range

open Program

abbrev PTE_P : Nat := 1
abbrev PTE_W : Nat := 2
abbrev PTE_U : Nat := 4

/-- The number of pages of the address space. -/
abbrev PAGES : Nat := 0x100000

/-- A page table entry in which `PTE_P` is set. -/
def ofWord (word : Nat) : Entry where
  frame := word / PGSIZE
  write := decide (word &&& PTE_W ≠ 0)
  user := decide (word &&& PTE_U ≠ 0)

/-- The loop of `mappages`; `none` if it has not ended after `fuel` rounds. -/
def mapUntil (d perm last : Nat) : (fuel a pa : Nat) → VmM (Option Int)
  | 0, _, _ => pure none
  | fuel + 1, a, pa => do
    let mapped ← mappage d a (ofWord (pa ||| perm ||| PTE_P))
    if mapped = false then pure (some (-1))
    else if a = last then pure (some 0)
    else mapUntil d perm last fuel ((a + 1) % PAGES) ((pa + PGSIZE) % 2 ^ 32)

def lastPage (va size : Nat) : Nat := (va + size + (2 ^ 32 - 1)) % 2 ^ 32 / PGSIZE

def mappages (d va size pa perm : Nat) : VmM (Option Int) :=
  mapUntil d perm (lastPage va size) PAGES (va / PGSIZE) pa

/-- The `k`-th page from page `a` on. -/
def pageAt (a k : Nat) : Nat := (a + k) % PAGES

def entryAt (perm pa k : Nat) : Entry := ofWord ((pa + k * PGSIZE) % 2 ^ 32 ||| perm ||| PTE_P)

def entries (perm count a pa : Nat) : List (Nat × Entry) :=
  (List.range count).map fun k => (pageAt a k, entryAt perm pa k)

variable {Hidden : List Bool → Prop} {vm next : Vm} {d perm last a pa count fuel : Nat} {dir : Pgdir}

/-- How many pages follow the first one of the range. -/
def following (va size : Nat) : Nat := (lastPage va size + PAGES - va / PGSIZE) % PAGES

end Xv6Dedup.Paging.Range
