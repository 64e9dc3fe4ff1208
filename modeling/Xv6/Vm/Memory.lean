import Xv6.Lib.Bytes
import Xv6.Lib.Prog
import Mathlib.Logic.Function.Basic

/-!
# Physical memory and page tables

The functions of `kalloc.c` and `vm.c`. Memory is an array of pages; a physical address `a` is the byte
`a % PGSIZE` of the page `a / PGSIZE`, and a page-table entry is the 64-bit word at its address. Numbers
of type `uint64` are kept below `2 ^ 64` by an explicit remainder wherever the source can overflow.

The free pages are a list; the links that `kfree` stores in them are not kept. `kalloc` may refuse at
any call, as `refuses` says, beside failing when no page is free: other users of the memory are not
modelled.
-/

namespace Xv6

abbrev PGSIZE : ℕ := 4096
abbrev MAXVA : ℕ := 2 ^ 38
abbrev TRAMPOLINE : ℕ := MAXVA - PGSIZE
abbrev TRAPFRAME : ℕ := TRAMPOLINE - PGSIZE
abbrev KERNBASE : ℕ := 0x80000000
abbrev PHYSTOP : ℕ := KERNBASE + 128 * 1024 * 1024

abbrev PTE_V : ℕ := 1
abbrev PTE_R : ℕ := 2
abbrev PTE_W : ℕ := 4
abbrev PTE_X : ℕ := 8
abbrev PTE_U : ℕ := 16

def PGROUNDUP (sz : ℕ) : ℕ := (sz + PGSIZE - 1) % 2 ^ 64 / PGSIZE * PGSIZE

def PGROUNDDOWN (a : ℕ) : ℕ := a / PGSIZE * PGSIZE

/-- Shift a physical address to the right place for a page-table entry. -/
def PA2PTE (pa : ℕ) : ℕ := pa / 4096 * 1024

def PTE2PA (pte : ℕ) : ℕ := pte / 1024 * 4096 % 2 ^ 64

def PTE_FLAGS (pte : ℕ) : ℕ := pte % 1024

/-- The 9-bit page-table index of a virtual address at a level. -/
def PX (level va : ℕ) : ℕ := va / 2 ^ (12 + 9 * level) % 512

/-- `pte & flag` -/
def has (pte flag : ℕ) : Bool := pte &&& flag != 0

abbrev Page := Bytes PGSIZE

/-- The panics of the functions below. -/
inductive VmPanic
  /-- `copyout` reads a page-table entry that is not there. -/
  | nullPte
  /-- "kfree" -/
  | kfree
  /-- "walk" -/
  | walk
  /-- "mappages: va not aligned" -/
  | mapVa
  /-- "mappages: size not aligned" -/
  | mapSize
  /-- "mappages: size" -/
  | mapZero
  /-- "mappages: remap" -/
  | remap
  /-- "uvmunmap: not aligned" -/
  | unmapVa
  /-- "freewalk: leaf" -/
  | freewalkLeaf
  /-- "uvmclear" -/
  | uvmclear
  /-- "loadseg: address should exist" -/
  | loadseg
  /-- The bound on a loop or a recursion was too small. -/
  | outOfFuel
  deriving DecidableEq, Repr

/-- The memory and its allocator. `kend` is the first address after the kernel. -/
structure Vm where
  mem : ℕ → Page
  free : List ℕ
  refuses : ℕ → Bool
  kend : ℕ

abbrev VmM := Prog Vm VmPanic

namespace Vm

variable (s : Vm)

/-- The page-table entry at the address `a`. -/
def pte (a : ℕ) : ℕ := Bytes.rdle (s.mem (a / PGSIZE)) (a % PGSIZE) 8

def setPage (pa : ℕ) (d : Page) : Vm := { s with mem := Function.update s.mem (pa / PGSIZE) d }

def setPte (a v : ℕ) : Vm := s.setPage a (Bytes.wrle (s.mem (a / PGSIZE)) (a % PGSIZE) v 8)

/-- The allocator has answered one call. -/
def answered : Vm := { s with refuses := fun n => s.refuses (n + 1) }

end Vm

/-! ## `kalloc.c` -/

/-- Allocate a page, filled with junk; 0 if there is none. -/
def kalloc : VmM ℕ := do
  let s ← Prog.get
  Prog.modify Vm.answered
  if s.refuses 0 then pure 0
  else
    match s.free with
    | [] => pure 0
    | pa :: rest =>
      Prog.modify fun s => { s with free := rest }.setPage pa fun _ => 5
      pure pa

/-- Free a page and fill it with junk. -/
def kfree (pa : ℕ) : VmM Unit := do
  let s ← Prog.get
  if pa % PGSIZE ≠ 0 ∨ pa < s.kend ∨ PHYSTOP ≤ pa then Prog.panic .kfree
  else Prog.modify fun s => { s with free := pa :: s.free }.setPage pa fun _ => 1

/-- The number of free pages. -/
def kfreepages : VmM ℕ := do return (← Prog.get).free.length % 2 ^ 32

/-! ## `vm.c` -/

def readPte (a : ℕ) : VmM ℕ := do return (← Prog.get).pte a

def writePte (a v : ℕ) : VmM Unit := Prog.modify (·.setPte a v)

/-- `memset(pa, 0, PGSIZE)` -/
def clearPage (pa : ℕ) : VmM Unit := Prog.modify (·.setPage pa Bytes.zero)

/-- The loop of `walk`, from `level` down: the page-table page of level 0. -/
def walkDown (va : ℕ) (alloc : Bool) : ℕ → ℕ → VmM (Option ℕ)
  | 0, pagetable => pure (some pagetable)
  | level + 1, pagetable => do
    let a := pagetable + 8 * PX (level + 1) va
    let pte ← readPte a
    if has pte PTE_V then walkDown va alloc level (PTE2PA pte)
    else if !alloc then pure none
    else
      let page ← kalloc
      if page = 0 then pure none
      else
        clearPage page
        writePte a (PA2PTE page ||| PTE_V)
        walkDown va alloc level page

/-- The address of the page-table entry for `va`, 0 if there is no page for it. -/
def walk (pagetable va : ℕ) (alloc : Bool) : VmM ℕ := do
  if MAXVA ≤ va then Prog.panic .walk
  else
    match ← walkDown va alloc 2 pagetable with
    | none => pure 0
    | some page => pure (page + 8 * PX 0 va)

/-- The physical address of a user page, 0 if it is not mapped. -/
def walkaddr (pagetable va : ℕ) : VmM ℕ := do
  if MAXVA ≤ va then pure 0
  else
    let a ← walk pagetable va false
    if a = 0 then pure 0
    else
      let pte ← readPte a
      if !has pte PTE_V then pure 0
      else if !has pte PTE_U then pure 0
      else pure (PTE2PA pte)

/-- The loop of `mappages`: map `n` more pages. -/
def mapLoop (pagetable perm : ℕ) : ℕ → ℕ → ℕ → VmM ℤ
  | 0, _, _ => pure 0
  | n + 1, va, pa => do
    let a ← walk pagetable va true
    if a = 0 then pure (-1)
    else
      let pte ← readPte a
      if has pte PTE_V then Prog.panic .remap
      else
        writePte a (PA2PTE pa ||| perm ||| PTE_V)
        mapLoop pagetable perm n ((va + PGSIZE) % 2 ^ 64) ((pa + PGSIZE) % 2 ^ 64)

def mappages (pagetable va size pa perm : ℕ) : VmM ℤ := do
  if va % PGSIZE ≠ 0 then Prog.panic .mapVa
  else if size % PGSIZE ≠ 0 then Prog.panic .mapSize
  else if size = 0 then Prog.panic .mapZero
  else mapLoop pagetable perm (size / PGSIZE) va pa

/-- An empty page table, 0 if there is no memory. -/
def uvmcreate : VmM ℕ := do
  let page ← kalloc
  if page = 0 then pure 0
  else
    clearPage page
    pure page

/-- The loop of `uvmunmap`: unmap `n` more pages. -/
def unmapLoop (pagetable : ℕ) (doFree : Bool) : ℕ → ℕ → VmM Unit
  | 0, _ => pure ()
  | n + 1, va => do
    let a ← walk pagetable va false
    if a = 0 then unmapLoop pagetable doFree n (va + PGSIZE)
    else
      let pte ← readPte a
      if !has pte PTE_V then unmapLoop pagetable doFree n (va + PGSIZE)
      else
        if doFree then kfree (PTE2PA pte)
        writePte a 0
        unmapLoop pagetable doFree n (va + PGSIZE)

/-- Remove the mappings of `npages` pages. The loop ends at `va + npages*PGSIZE` as the source computes
it. -/
def uvmunmap (pagetable va npages : ℕ) (doFree : Bool) : VmM Unit := do
  if va % PGSIZE ≠ 0 then Prog.panic .unmapVa
  else unmapLoop pagetable doFree (((va + npages * PGSIZE) % 2 ^ 64 - va) / PGSIZE) va

/-- A C `int` made of the low 32 bits of `n`, as a `uint64`. -/
def intToUint64 (n : ℕ) : ℕ :=
  if n % 2 ^ 32 < 2 ^ 31 then n % 2 ^ 32 else 2 ^ 64 - 2 ^ 32 + n % 2 ^ 32

/-- Shrink user memory from `oldsz` to `newsz`. -/
def uvmdealloc (pagetable oldsz newsz : ℕ) : VmM ℕ := do
  if oldsz ≤ newsz then pure oldsz
  else
    if PGROUNDUP newsz < PGROUNDUP oldsz then
      uvmunmap pagetable (PGROUNDUP newsz)
        (intToUint64 ((PGROUNDUP oldsz - PGROUNDUP newsz) / PGSIZE)) true
    pure newsz

/-- The loop of `uvmalloc`; every pass takes a page, which bounds it. -/
def allocLoop (pagetable start newsz xperm : ℕ) : ℕ → ℕ → VmM ℕ
  | 0, _ => Prog.panic .outOfFuel
  | fuel + 1, a => do
    if newsz ≤ a then pure newsz
    else
      let page ← kalloc
      if page = 0 then
        let _ ← uvmdealloc pagetable a start
        pure 0
      else
        clearPage page
        let r ← mappages pagetable a PGSIZE page (PTE_R ||| PTE_U ||| xperm)
        if r ≠ 0 then
          kfree page
          let _ ← uvmdealloc pagetable a start
          pure 0
        else allocLoop pagetable start newsz xperm fuel ((a + PGSIZE) % 2 ^ 64)

/-- Grow user memory from `oldsz` to `newsz`; 0 on failure. -/
def uvmalloc (pagetable oldsz newsz xperm : ℕ) : VmM ℕ := do
  if newsz < oldsz then pure oldsz
  else
    let s ← Prog.get
    allocLoop pagetable (PGROUNDUP oldsz) newsz xperm (s.free.length + 1) (PGROUNDUP oldsz)

/-- The body of the loop of `freewalk`, with the recursive call `free`. -/
def freeEntry (free : ℕ → VmM Unit) (pagetable i : ℕ) : VmM Unit := do
  let pte ← readPte (pagetable + 8 * i)
  if has pte PTE_V && !has pte (PTE_R ||| PTE_W ||| PTE_X) then
    free (PTE2PA pte)
    writePte (pagetable + 8 * i) 0
  else if has pte PTE_V then Prog.panic .freewalkLeaf
  else pure ()

/-- Free page-table pages down to `depth` levels. -/
def freewalk : ℕ → ℕ → VmM Unit
  | 0, _ => Prog.panic .outOfFuel
  | depth + 1, pagetable => do
    Prog.each (freeEntry (freewalk depth) pagetable) (List.range 512)
    kfree pagetable

theorem freewalk_succ (depth pagetable : ℕ) : freewalk (depth + 1) pagetable = (do
    Prog.each (freeEntry (freewalk depth) pagetable) (List.range 512)
    kfree pagetable) := rfl

-- its loop of 512 entries is not to be evaluated by accident
attribute [irreducible] freewalk

/-- Free user memory, then the page table. -/
def uvmfree (pagetable sz : ℕ) : VmM Unit := do
  if 0 < sz then uvmunmap pagetable 0 (PGROUNDUP sz / PGSIZE) true
  freewalk 3 pagetable

/-- The loop of `uvmcopy`: copy `n` more pages from the address `i` on. -/
def copyPages (old new : ℕ) : ℕ → ℕ → VmM ℤ
  | 0, _ => pure 0
  | n + 1, i => do
    let a ← walk old i false
    if a = 0 then copyPages old new n (i + PGSIZE)
    else
      let pte ← readPte a
      if !has pte PTE_V then copyPages old new n (i + PGSIZE)
      else
        let page ← kalloc
        if page = 0 then
          uvmunmap new 0 (i / PGSIZE) true
          pure (-1)
        else
          Prog.modify fun s => s.setPage page (s.mem (PTE2PA pte / PGSIZE))
          let r ← mappages new i PGSIZE page (PTE_FLAGS pte)
          if r ≠ 0 then
            kfree page
            uvmunmap new 0 (i / PGSIZE) true
            pure (-1)
          else copyPages old new n (i + PGSIZE)

/-- Copy the user memory below `sz`. -/
def uvmcopy (old new sz : ℕ) : VmM ℤ := copyPages old new ((sz + PGSIZE - 1) / PGSIZE) 0

/-- Take a page away from the user. -/
def uvmclear (pagetable va : ℕ) : VmM Unit := do
  let a ← walk pagetable va false
  if a = 0 then Prog.panic .uvmclear
  else
    let pte ← readPte a
    writePte a (if has pte PTE_U then pte - PTE_U else pte)

def ismapped (pagetable va : ℕ) : VmM Bool := do
  let a ← walk pagetable va false
  if a = 0 then pure false
  else return has (← readPte a) PTE_V

/-- The memory of the process that runs: what `myproc()` points to. -/
structure UserMem where
  pagetable : ℕ
  sz : ℕ

/-- Allocate and map a page that was grown lazily; its physical address, or 0. -/
def vmfault (p : UserMem) (pagetable va : ℕ) : VmM ℕ := do
  if p.sz ≤ va then pure 0
  else
    if ← ismapped pagetable (PGROUNDDOWN va) then pure 0
    else
      let page ← kalloc
      if page = 0 then pure 0
      else
        clearPage page
        let r ← mappages p.pagetable (PGROUNDDOWN va) PGSIZE page (PTE_W ||| PTE_U ||| PTE_R)
        if r ≠ 0 then
          kfree page
          pure 0
        else pure page

/-- The page that `copyin` and `copyout` use for the address `va0`; 0 if they fail. -/
def userPage (p : UserMem) (pagetable va0 : ℕ) : VmM ℕ := do
  let pa ← walkaddr pagetable va0
  if pa = 0 then vmfault p pagetable va0 else pure pa

/-- `copyout`, with the bytes at `src`. Every pass of its loop copies a byte at least, so that `fuel`
need not be more than their number. -/
def copyoutLoop (p : UserMem) (pagetable : ℕ) : ℕ → ℕ → List UInt8 → VmM ℤ
  | _, _, [] => pure 0
  | 0, _, _ :: _ => Prog.panic .outOfFuel
  | fuel + 1, dstva, src => do
    let va0 := PGROUNDDOWN dstva
    if MAXVA ≤ va0 then pure (-1)
    else
      let pa0 ← userPage p pagetable va0
      if pa0 = 0 then pure (-1)
      else
        let a ← walk pagetable va0 false
        if a = 0 then Prog.panic .nullPte
        else
          let pte ← readPte a
          if !has pte PTE_W then pure (-1)
          else
            let n := min (PGSIZE - (dstva - va0)) src.length
            Prog.modify fun s =>
              s.setPage pa0 (Bytes.put (s.mem (pa0 / PGSIZE)) (dstva - va0) (src.take n))
            copyoutLoop p pagetable fuel ((va0 + PGSIZE) % 2 ^ 64) (src.drop n)

/-- Copy bytes to user memory: 0 on success, -1 on failure. -/
def copyout (p : UserMem) (pagetable dstva : ℕ) (src : List UInt8) : VmM ℤ :=
  copyoutLoop p pagetable src.length dstva src

/-- `copyin` of `len` bytes, with the bytes it has stored at `dst`. -/
def copyinLoop (p : UserMem) (pagetable : ℕ) : ℕ → ℕ → ℕ → List UInt8 → VmM (ℤ × List UInt8)
  | _, _, 0, dst => pure (0, dst)
  | 0, _, _ + 1, _ => Prog.panic .outOfFuel
  | fuel + 1, srcva, len, dst => do
    let va0 := PGROUNDDOWN srcva
    let pa0 ← userPage p pagetable va0
    if pa0 = 0 then pure (-1, dst)
    else
      let n := min (PGSIZE - (srcva - va0)) len
      let s ← Prog.get
      copyinLoop p pagetable fuel ((va0 + PGSIZE) % 2 ^ 64) (len - n)
        (dst ++ Bytes.slice (s.mem (pa0 / PGSIZE)) (srcva - va0) n)

/-- Copy bytes from user memory: 0 or -1, and the bytes stored at `dst`. -/
def copyin (p : UserMem) (pagetable srcva len : ℕ) : VmM (ℤ × List UInt8) :=
  copyinLoop p pagetable len srcva len []

/-- `copyinstr` of at most `max` bytes, with the bytes it has stored at `dst`. -/
def copyinstrLoop (pagetable : ℕ) : ℕ → ℕ → ℕ → List UInt8 → VmM (ℤ × List UInt8)
  | _, _, 0, dst => pure (-1, dst)
  | 0, _, _ + 1, _ => Prog.panic .outOfFuel
  | fuel + 1, srcva, max, dst => do
    let va0 := PGROUNDDOWN srcva
    let pa0 ← walkaddr pagetable va0
    if pa0 = 0 then pure (-1, dst)
    else
      let n := min (PGSIZE - (srcva - va0)) max
      let s ← Prog.get
      let bytes := Bytes.slice (s.mem (pa0 / PGSIZE)) (srcva - va0) n
      -- the inner loop copies up to the first zero byte
      if bytes.contains 0 then pure (0, dst ++ bytes.takeWhile (· != 0) ++ [0])
      else copyinstrLoop pagetable fuel ((va0 + PGSIZE) % 2 ^ 64) (max - n) (dst ++ bytes)

/-- Copy a null-terminated string from user memory. -/
def copyinstr (pagetable srcva max : ℕ) : VmM (ℤ × List UInt8) :=
  copyinstrLoop pagetable max srcva max []

end Xv6
