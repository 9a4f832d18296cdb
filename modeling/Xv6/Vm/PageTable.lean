import Xv6.Lib.Hoare
import Xv6.Panic
import Xv6.Vm.Copy

/-!
# Page tables

The functions of `kernel/vm.c` on physical memory, and the allocator of `kernel/kalloc.c` they use. Memory
is a page of bytes for each page address; the kernel's own map of it is the identity. The free list is a
list of page addresses. A page-table page has 512 entries of eight bytes.
-/

namespace Xv6.Vm

open Function (update)

/-- A physical address. -/
abbrev Pa := BitVec 64

/-- A page-table entry. -/
abbrev Pte := BitVec 64

/-- The page at each page address. -/
abbrev Ram := Pa → Bytes PGSIZE

structure State where
  /-- the page at each page address -/
  ram : Ram
  freelist : List Pa

abbrev VmM := EStateM Panic State

def panic {α : Type} (m : Panic) : VmM α := fun s => .error m s

/-! ## Addresses and entries -/

def PTE_V : Pte := 1
def PTE_R : Pte := 2
def PTE_W : Pte := 4
def PTE_X : Pte := 8
def PTE_U : Pte := 16

def pgroundup (sz : BitVec 64) : BitVec 64 := (sz + 4095) &&& ~~~ 4095

def pgrounddown (a : BitVec 64) : BitVec 64 := a &&& ~~~ 4095

/-- `PA2PTE` -/
def pa2pte (pa : Pa) : Pte := (pa >>> 12) <<< 10

/-- `PTE2PA` -/
def pte2pa (pte : Pte) : Pa := (pte >>> 10) <<< 12

/-- `PTE_FLAGS` -/
def pteFlags (pte : Pte) : Pte := pte &&& 0x3FF

/-- `PX`: one of the three 9-bit page-table indices of a virtual address. -/
def px (level : Nat) (va : BitVec 64) : Fin 512 :=
  ⟨((va >>> (12 + 9 * level)) &&& 0x1FF).toNat, by
    rw [BitVec.toNat_and]
    exact Nat.lt_of_le_of_lt Nat.and_le_right (by decide)⟩

/-- Entry `i` of a page-table page. -/
def entries (ram : Ram) (pt : Pa) (i : Fin 512) : Pte := (ram pt).field 64 (8 * i.val)

def load (pt : Pa) (i : Fin 512) : VmM Pte := fun s => .ok (entries s.ram pt i) s

def store (pt : Pa) (i : Fin 512) (pte : Pte) : VmM Unit := fun s =>
  .ok () { s with ram := update s.ram pt ((s.ram pt).setField (8 * i.val) pte) }

/-- `memset(pa, c, PGSIZE)` -/
def memset (pa : Pa) (c : BitVec 8) : VmM Unit := fun s => .ok () { s with ram := update s.ram pa fun _ => c }

/-! ## `kernel/kalloc.c` -/

def PHYSTOP : Nat := 0x80000000 + 128 * 1024 * 1024

/-- Allocate one page of physical memory. -/
def kalloc : VmM (Option Pa) := fun s =>
  match s.freelist with
  | [] => .ok none s
  | r :: rest => .ok (some r) { ram := update s.ram r fun _ => 5, freelist := rest }

/-- Free a page of physical memory; the kernel ends at `kend`. -/
def kfree (kend : Nat) (pa : Pa) : VmM Unit := fun s =>
  if pa.toNat % PGSIZE ≠ 0 ∨ pa.toNat < kend ∨ pa.toNat ≥ PHYSTOP then .error .kfree s
  else .ok () { ram := update s.ram pa fun _ => 1, freelist := pa :: s.freelist }

/-! ## `walk` -/

/-- The address of an entry. -/
structure PtePtr where
  page : Pa
  i : Fin 512

/-- The loop of `walk`, from a page-table page of the given level down to one of level 0. -/
def walkLoop (va : BitVec 64) (alloc : Bool) : Nat → Pa → VmM (Option Pa)
  | 0, pagetable => return some pagetable
  | level + 1, pagetable => do
    let pte ← load pagetable (px (level + 1) va)
    if pte &&& PTE_V ≠ 0 then walkLoop va alloc level (pte2pa pte)
    else if alloc then do
      match ← kalloc with
      | none => return none
      | some page => do
        memset page 0
        store pagetable (px (level + 1) va) (pa2pte page ||| PTE_V)
        walkLoop va alloc level page
    else return none

/-- The address of the entry in `pagetable` that corresponds to virtual address `va`. If `alloc`, create any required
page-table pages. -/
def walk (pagetable : Pa) (va : BitVec 64) (alloc : Bool) : VmM (Option PtePtr) :=
  if va.toNat ≥ MAXVA then panic .walk
  else do
    let page ← walkLoop va alloc 2 pagetable
    return page.map fun p => ⟨p, px 0 va⟩

/-- The physical address of a user page, or 0 if it is not mapped. -/
def walkaddr (pagetable : Pa) (va : BitVec 64) : VmM Pa :=
  if va.toNat ≥ MAXVA then return 0
  else do
    match ← walk pagetable va false with
    | none => return 0
    | some pte => do
      let pte ← load pte.page pte.i
      if pte &&& PTE_V = 0 then return 0
      else if pte &&& PTE_U = 0 then return 0
      else return pte2pa pte

/-! ## Mappings -/

/-- The loop of `mappages` from address `a` to `last`; the first argument bounds its iterations. -/
def mappagesLoop (pagetable : Pa) (last : BitVec 64) (perm : BitVec 32) : Nat → (a pa : BitVec 64) → VmM Int
  | 0, _, _ => return 0
  | k + 1, a, pa => do
    match ← walk pagetable a true with
    | none => return -1
    | some pte => do
      if (← load pte.page pte.i) &&& PTE_V ≠ 0 then panic .remap
      else do
        store pte.page pte.i (pa2pte pa ||| perm.signExtend 64 ||| PTE_V)
        if a = last then return 0 else mappagesLoop pagetable last perm k (a + 4096) (pa + 4096)

/-- Create entries for virtual addresses starting at `va` that refer to physical addresses starting at `pa`.
Addresses of pages come round to `last` after `(last - a) / PGSIZE` steps. -/
def mappages (pagetable : Pa) (va size pa : BitVec 64) (perm : BitVec 32) : VmM Int :=
  let a := pgrounddown va
  let last := pgrounddown (va + size - 1)
  mappagesLoop pagetable last perm ((last - a).toNat / PGSIZE + 1) a pa

/-- One pass of the loop of `uvmunmap`. -/
def unmapPage (kend : Nat) (pagetable : Pa) (doFree : Bool) (a : BitVec 64) : VmM Unit := do
  match ← walk pagetable a false with
  | none => panic .uvmunmapWalk
  | some ptr => do
    let pte ← load ptr.page ptr.i
    if pte &&& PTE_V = 0 then panic .uvmunmapNotMapped
    else if pteFlags pte = PTE_V then panic .uvmunmapNotLeaf
    else do
      (if doFree then kfree kend (pte2pa pte) else pure ())
      store ptr.page ptr.i 0

/-- The loop of `uvmunmap` from address `a` to `last`. -/
def uvmunmapLoop (kend : Nat) (pagetable : Pa) (doFree : Bool) (last : BitVec 64) : Nat → BitVec 64 → VmM Unit
  | 0, _ => return ()
  | k + 1, a =>
    if a < last then do
      unmapPage kend pagetable doFree a
      uvmunmapLoop kend pagetable doFree last k (a + 4096)
    else return ()

/-- Remove `npages` of mappings starting from `va`. -/
def uvmunmap (kend : Nat) (pagetable : Pa) (va npages : BitVec 64) (doFree : Bool) : VmM Unit :=
  if va.toNat % PGSIZE ≠ 0 then panic .uvmunmapNotAligned
  else uvmunmapLoop kend pagetable doFree (va + npages * 4096) (2 ^ 64 / PGSIZE) va

/-! ## User page tables -/

/-- Create an empty user page table. -/
def uvmcreate : VmM (Option Pa) := do
  match ← kalloc with
  | none => return none
  | some pagetable => do
    memset pagetable 0
    return some pagetable

/-- Deallocate user pages to bring the process size from `oldsz` to `newsz`; returns the new process size. The number of
pages is an `int`. -/
def uvmdealloc (kend : Nat) (pagetable : Pa) (oldsz newsz : BitVec 64) : VmM (BitVec 64) :=
  if newsz ≥ oldsz then return oldsz
  else do
    (if pgroundup newsz < pgroundup oldsz then
      uvmunmap kend pagetable (pgroundup newsz)
        ((((pgroundup oldsz - pgroundup newsz) / 4096).setWidth 32).signExtend 64) true
    else pure ())
    return newsz

/-- The loop of `uvmalloc` from address `a`; `oldsz` is rounded up. -/
def uvmallocLoop (kend : Nat) (pagetable : Pa) (oldsz newsz : BitVec 64) : Nat → BitVec 64 → VmM (BitVec 64)
  | 0, _ => return newsz
  | k + 1, a =>
    if a < newsz then do
      match ← kalloc with
      | none => do
        let _ ← uvmdealloc kend pagetable a oldsz
        return 0
      | some mem => do
        memset mem 0
        if (← mappages pagetable a 4096 mem ((PTE_W ||| PTE_X ||| PTE_R ||| PTE_U).setWidth 32)) ≠ 0 then do
          kfree kend mem
          let _ ← uvmdealloc kend pagetable a oldsz
          return 0
        else uvmallocLoop kend pagetable oldsz newsz k (a + 4096)
    else return newsz

/-- Allocate entries and physical memory to grow a process from `oldsz` to `newsz`; returns the new size or 0. -/
def uvmalloc (kend : Nat) (pagetable : Pa) (oldsz newsz : BitVec 64) : VmM (BitVec 64) :=
  if newsz < oldsz then return oldsz
  else uvmallocLoop kend pagetable (pgroundup oldsz) newsz (2 ^ 64 / PGSIZE) (pgroundup oldsz)

instance neZero_512 : NeZero 512 := ⟨by decide⟩

/-- Recursively free page-table pages. The first argument bounds the depth of the recursion, which a table
of three levels does not exceed: a deeper one would run over the end of the kernel stack. -/
def freewalk (kend : Nat) : Nat → Pa → VmM Unit
  | 0, _ => panic .kerneltrap
  | level + 1, pagetable => do
    Hoare.loop (fun i => do
      let pte ← load pagetable (Fin.ofNat 512 i)
      if pte &&& PTE_V ≠ 0 ∧ pte &&& (PTE_R ||| PTE_W ||| PTE_X) = 0 then do
        freewalk kend level (pte2pa pte)
        store pagetable (Fin.ofNat 512 i) 0
      else if pte &&& PTE_V ≠ 0 then panic .freewalkLeaf
      else pure ()) 0 512
    kfree kend pagetable

/-- Free user memory pages, then free page-table pages. -/
def uvmfree (kend : Nat) (pagetable : Pa) (sz : BitVec 64) : VmM Unit := do
  (if sz > 0 then uvmunmap kend pagetable 0 (pgroundup sz / 4096) true else pure ())
  freewalk kend 3 pagetable

/-! ## `uvmcopy` -/

/-- `memmove(dst, src, PGSIZE)` -/
def memmovePage (dst src : Pa) : VmM Unit := fun s => .ok () { s with ram := update s.ram dst (s.ram src) }

/-- One pass of the loop of `uvmcopy`: whether the page at `i` was copied. -/
def copyPage (kend : Nat) (old new : Pa) (i : BitVec 64) : VmM Bool := do
  match ← walk old i false with
  | none => panic .uvmcopyPte
  | some ptr => do
    let pte ← load ptr.page ptr.i
    if pte &&& PTE_V = 0 then panic .uvmcopyPage
    else do
      match ← kalloc with
      | none => return false
      | some mem => do
        memmovePage mem (pte2pa pte)
        if (← mappages new i 4096 mem ((pteFlags pte).setWidth 32)) ≠ 0 then do
          kfree kend mem
          return false
        else return true

def uvmcopyLoop (kend : Nat) (old new : Pa) (sz : BitVec 64) : Nat → BitVec 64 → VmM Int
  | 0, _ => return 0
  | k + 1, i =>
    if i < sz then do
      if ← copyPage kend old new i then uvmcopyLoop kend old new sz k (i + 4096)
      else do
        uvmunmap kend new 0 (i / 4096) true
        return -1
    else return 0

/-- Given a parent process's page table, copy its memory into a child's page table. -/
def uvmcopy (kend : Nat) (old new : Pa) (sz : BitVec 64) : VmM Int := uvmcopyLoop kend old new sz (2 ^ 64 / PGSIZE) 0

/-! ## User memory -/

section Copies

variable {m : Nat}

/-- How many bytes the loops below handle in the page of `va`. -/
def chunk (va len : BitVec 64) : BitVec 64 :=
  let n := 4096 - (va - pgrounddown va)
  if n > len then len else n

def loadPage (pa : Pa) : VmM (Bytes PGSIZE) := fun s => .ok (s.ram pa) s

/-- `memmove` of `n` bytes into the page at `pa`. -/
def storeBytes (pa : Pa) (off : Nat) (src : Nat → BitVec 8) (n : Nat) : VmM Unit := fun s =>
  .ok () { s with ram := update s.ram pa ((s.ram pa).store off src n) }

def copyoutLoop (pagetable : Pa) (src : Nat → BitVec 8) : Nat → Nat → (dstva len : BitVec 64) → VmM Int
  | 0, _, _, _ => return 0
  | k + 1, i, dstva, len =>
    if len = 0 then return 0
    else do
      let va0 := pgrounddown dstva
      let pa0 ← walkaddr pagetable va0
      if pa0 = 0 then return -1
      else do
        let n := chunk dstva len
        storeBytes pa0 (dstva - va0).toNat (fun j => src (i + j)) n.toNat
        copyoutLoop pagetable src k (i + n.toNat) (va0 + 4096) (len - n)

/-- Copy `len` bytes from `src` to virtual address `dstva`. Every iteration copies a byte, so `len`
iterations are enough. -/
def copyout (pagetable : Pa) (dstva : BitVec 64) (src : Nat → BitVec 8) (len : BitVec 64) : VmM Int :=
  copyoutLoop pagetable src len.toNat 0 dstva len

def copyinLoop (pagetable : Pa) : Nat → Bytes m → Nat → (srcva len : BitVec 64) → VmM (Bytes m × Int)
  | 0, dst, _, _, _ => return (dst, 0)
  | k + 1, dst, i, srcva, len =>
    if len = 0 then return (dst, 0)
    else do
      let va0 := pgrounddown srcva
      let pa0 ← walkaddr pagetable va0
      if pa0 = 0 then return (dst, -1)
      else do
        let n := chunk srcva len
        let pg ← loadPage pa0
        copyinLoop pagetable k (dst.store i (fun j => pg.get ((srcva - va0).toNat + j)) n.toNat) (i + n.toNat)
          (va0 + 4096) (len - n)

/-- Copy `len` bytes from virtual address `srcva` to offset `i` of a buffer. -/
def copyin (pagetable : Pa) (dst : Bytes m) (i : Nat) (srcva len : BitVec 64) : VmM (Bytes m × Int) :=
  copyinLoop pagetable len.toNat dst i srcva len

def copyinstrLoop (pagetable : Pa) : Nat → Bytes m → Nat → (srcva max : BitVec 64) → VmM (Bytes m × Int)
  | 0, dst, _, _, _ => return (dst, -1)
  | k + 1, dst, i, srcva, max =>
    if max = 0 then return (dst, -1)
    else do
      let va0 := pgrounddown srcva
      let pa0 ← walkaddr pagetable va0
      if pa0 = 0 then return (dst, -1)
      else do
        let pg ← loadPage pa0
        let (dst', i', max', gotNull) := UserMem.copystr pg (chunk srcva max).toNat dst i (srcva - va0).toNat max.toNat
        if gotNull then return (dst', 0) else copyinstrLoop pagetable k dst' i' (va0 + 4096) (BitVec.ofNat 64 max')

/-- Copy a NUL-terminated string of at most `max` bytes from virtual address `srcva` to offset `i` of a buffer. -/
def copyinstr (pagetable : Pa) (dst : Bytes m) (i : Nat) (srcva max : BitVec 64) : VmM (Bytes m × Int) :=
  copyinstrLoop pagetable max.toNat dst i srcva max

end Copies

end Xv6.Vm
