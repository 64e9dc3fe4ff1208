import Xv6.Proc.Table
import Xv6.Vm.Memory

/-!
# Processes and their memory

What `proc.c`, `exec.c`, `sysproc.c` and `pipe.c` do with memory: page tables, trapframes and pipes are
allocated and freed, and a process grows, shrinks, forks and executes a file. Of `struct proc` the fields
are kept that these functions use for it. The registers that the kernel saves in a trapframe are not
modelled, and neither is the choice of the child that `kwait` finds.
-/

namespace Xv6

open Function

/-- The trampoline and the trapframe are mapped at the same addresses in every process. -/
def procPagetable (trampoline trapframe : ℕ) : VmM ℕ := do
  let pagetable ← uvmcreate
  if pagetable = 0 then pure 0
  else if (← mappages pagetable TRAMPOLINE PGSIZE trampoline (PTE_R ||| PTE_X)) < 0 then
    uvmfree pagetable 0
    pure 0
  else if (← mappages pagetable TRAPFRAME PGSIZE trapframe (PTE_R ||| PTE_W)) < 0 then
    uvmunmap pagetable TRAMPOLINE 1 false
    uvmfree pagetable 0
    pure 0
  else pure pagetable

def procFreepagetable (pagetable sz : ℕ) : VmM Unit := do
  uvmunmap pagetable TRAMPOLINE 1 false
  uvmunmap pagetable TRAPFRAME 1 false
  uvmfree pagetable sz

/-! ## The files that are executed -/

abbrev ELF_MAGIC : ℕ := 0x464C457F
abbrev ELF_PROG_LOAD : ℕ := 1
abbrev USERSTACK : ℕ := 1
abbrev MAXARG : ℕ := 32

/-- The fields of `struct proghdr` that are used. -/
structure Proghdr where
  type : ℕ
  flags : ℕ
  off : ℕ
  vaddr : ℕ
  filesz : ℕ
  memsz : ℕ
  vaddr_lt : vaddr < 2 ^ 64
  filesz_lt : filesz < 2 ^ 64
  memsz_lt : memsz < 2 ^ 64

/-- What `readi` finds in a file: `none` where it does not return as many bytes as asked for. -/
structure ElfFile where
  /-- `magic` and `phnum` -/
  elf : Option (ℕ × ℕ)
  /-- The program header at an index. -/
  proghdr : ℕ → Option Proghdr
  /-- The bytes at an offset. -/
  bytes : ℕ → ℕ → Option (List UInt8)

/-- An argument is a string that `sys_exec` has copied to a page. -/
abbrev Arg := {l : List UInt8 // l.length < PGSIZE}

def flags2perm (flags : ℕ) : ℕ :=
  (if has flags 1 then PTE_X else 0) ||| (if has flags 2 then PTE_W else 0)

/-- The loop of `loadseg`, from `i` on. The index is a `uint`. -/
def loadsegLoop (pagetable va : ℕ) (file : ElfFile) (offset sz : ℕ) : ℕ → ℕ → VmM ℤ
  | 0, _ => Prog.panic .outOfFuel
  | fuel + 1, i => do
    if sz ≤ i then pure 0
    else
      let pa ← walkaddr pagetable ((va + i) % 2 ^ 64)
      if pa = 0 then Prog.panic .loadseg
      else
        match file.bytes ((offset + i) % 2 ^ 32) (min (sz - i) PGSIZE) with
        | none => pure (-1)
        | some bytes =>
          Prog.modify fun s => s.setPage pa (Bytes.put (s.mem (pa / PGSIZE)) 0 bytes)
          loadsegLoop pagetable va file offset sz fuel ((i + PGSIZE) % 2 ^ 32)

/-- Load a segment; its offset and size are passed as `uint`. -/
def loadseg (pagetable va : ℕ) (file : ElfFile) (offset sz : ℕ) : VmM ℤ :=
  loadsegLoop pagetable va file (offset % 2 ^ 32) (sz % 2 ^ 32) (sz % 2 ^ 32 / PGSIZE + 2) 0

/-- The loop over the program headers, `n` of them from the index `i` on: whether they were all loaded,
and the size of the memory. -/
def loadSegments (pagetable : ℕ) (file : ElfFile) : ℕ → ℕ → ℕ → VmM (Bool × ℕ)
  | 0, _, sz => pure (true, sz)
  | n + 1, i, sz => do
    match file.proghdr i with
    | none => pure (false, sz)
    | some ph =>
      if ph.type ≠ ELF_PROG_LOAD then loadSegments pagetable file n (i + 1) sz
      else if ph.memsz < ph.filesz then pure (false, sz)
      else if (ph.vaddr + ph.memsz) % 2 ^ 64 < ph.vaddr then pure (false, sz)
      else if ph.vaddr % PGSIZE ≠ 0 then pure (false, sz)
      else
        let sz1 ← uvmalloc pagetable sz ((ph.vaddr + ph.memsz) % 2 ^ 64) (flags2perm ph.flags)
        if sz1 = 0 then pure (false, sz)
        else if (← loadseg pagetable ph.vaddr file ph.off ph.filesz) < 0 then pure (false, sz1)
        else loadSegments pagetable file n (i + 1) sz1

/-- `sp -= n; sp -= sp % 16` -/
def pushDown (sp n : ℕ) : ℕ :=
  let sp := (sp + 2 ^ 64 - n) % 2 ^ 64
  sp - sp % 16

/-- The loop that copies the arguments to the new stack: the stack pointer and the addresses of the
strings so far, `none` on failure. -/
def pushArgs (p : UserMem) (pagetable stackbase : ℕ) : List Arg → ℕ → List ℕ → VmM (Option (ℕ × List ℕ))
  | [], sp, ustack => pure (some (sp, ustack))
  | arg :: argv, sp, ustack => do
    if MAXARG ≤ ustack.length then pure none
    else
      let sp := pushDown sp (arg.val.length + 1)
      if sp < stackbase then pure none
      else if (← copyout p pagetable sp (arg.val ++ [0])) < 0 then pure none
      else pushArgs p pagetable stackbase argv sp (ustack ++ [sp])

/-- The eight bytes of a `uint64`. -/
def leBytes (v : ℕ) : List UInt8 := (List.range 8).map fun k => UInt8.ofNat (v / 256 ^ k)

/-- The new user image, up to the commit: the page table and the size, and whether all went well. -/
def buildImage (p : UserMem) (pagetable : ℕ) (file : ElfFile) (phnum : ℕ) (argv : List Arg) :
    VmM (Bool × ℕ) := do
  match ← loadSegments pagetable file phnum 0 0 with
  | (false, sz) => pure (false, sz)
  | (true, sz) =>
    let sz := PGROUNDUP sz
    let sz1 ← uvmalloc pagetable sz ((sz + (USERSTACK + 1) * PGSIZE) % 2 ^ 64) PTE_W
    if sz1 = 0 then pure (false, sz)
    else
      uvmclear pagetable (sz1 - (USERSTACK + 1) * PGSIZE)
      let stackbase := sz1 - USERSTACK * PGSIZE
      match ← pushArgs p pagetable stackbase argv sz1 [] with
      | none => pure (false, sz1)
      | some (sp, ustack) =>
        let sp := pushDown sp ((ustack.length + 1) * 8)
        if sp < stackbase then pure (false, sz1)
        else if (← copyout p pagetable sp ((ustack ++ [0]).flatMap leBytes)) < 0 then pure (false, sz1)
        else pure (true, sz1)

/-! ## The process table -/

/-- The fields of `struct proc` that belong to memory. -/
structure PMem where
  state : ProcState
  pagetable : ℕ
  sz : ℕ
  trapframe : ℕ

/-- A pipe lives in a page of its own; there is no pipe when `page` is 0. -/
structure PipePage where
  page : ℕ
  readopen : Bool
  writeopen : Bool

/-- The memory of all processes. `trampoline` is the address of the trampoline code. -/
structure Space where
  vm : Vm
  proc : Slot → PMem
  pipe : ℕ → PipePage
  trampoline : ℕ

abbrev SpM := Prog Space VmPanic

namespace Space

/-- Run a function of `vm.c`. -/
def call {α : Type} (f : VmM α) : SpM α := Prog.zoom Space.vm (fun vm s => { s with vm := vm }) f

def setProc (p : Slot) (x : PMem) (s : Space) : Space := { s with proc := update s.proc p x }

/-- What `myproc()` points to. -/
def user (s : Space) (p : Slot) : UserMem := ⟨(s.proc p).pagetable, (s.proc p).sz⟩

def freeproc (p : Slot) : SpM Unit := do
  let x := (← Prog.get).proc p
  if x.trapframe ≠ 0 then call (kfree x.trapframe)
  Prog.modify (setProc p { x with trapframe := 0 })
  if x.pagetable ≠ 0 then call (procFreepagetable x.pagetable x.sz)
  Prog.modify (setProc p ⟨.unused, 0, 0, 0⟩)

/-- Take the first `UNUSED` slot and give it a trapframe and a page table. -/
def allocproc : SpM (Option Slot) := do
  let s ← Prog.get
  match (List.finRange NPROC).find? fun p => (s.proc p).state = .unused with
  | none => pure none
  | some p =>
    let sz := (s.proc p).sz
    let trapframe ← call kalloc
    if trapframe = 0 then
      Prog.modify (setProc p ⟨.used, (s.proc p).pagetable, sz, 0⟩)
      freeproc p
      pure none
    else
      let pagetable ← call (procPagetable s.trampoline trapframe)
      Prog.modify (setProc p ⟨.used, pagetable, sz, trapframe⟩)
      if pagetable = 0 then
        freeproc p
        pure none
      else pure (some p)

/-- `sz + n` for a `uint64` and an `int`. -/
def addInt (sz : ℕ) (n : ℤ) : ℕ := (((sz : ℤ) + n) % 2 ^ 64).toNat

def growproc (p : Slot) (n : ℤ) : SpM ℤ := do
  let x := (← Prog.get).proc p
  if 0 < n then
    if TRAPFRAME < addInt x.sz n then pure (-1)
    else
      let sz ← call (uvmalloc x.pagetable x.sz (addInt x.sz n) PTE_W)
      if sz = 0 then pure (-1)
      else
        Prog.modify (setProc p { x with sz := sz })
        pure 0
  else if n < 0 then
    let sz ← call (uvmdealloc x.pagetable x.sz (addInt x.sz n))
    Prog.modify (setProc p { x with sz := sz })
    pure 0
  else pure 0

abbrev SBRK_EAGER : ℤ := 1

def sysSbrk (p : Slot) (n t : ℤ) : SpM ℤ := do
  let x := (← Prog.get).proc p
  if t = SBRK_EAGER ∨ n < 0 then
    if (← growproc p n) < 0 then pure (-1) else pure x.sz
  else if addInt x.sz n < x.sz then pure (-1)
  else if TRAPFRAME < addInt x.sz n then pure (-1)
  else
    Prog.modify (setProc p { x with sz := addInt x.sz n })
    pure x.sz

/-- Fork: -1, or the slot of the child. -/
def kfork (p : Slot) : SpM ℤ := do
  match ← allocproc with
  | none => pure (-1)
  | some np =>
    let s ← Prog.get
    if (← call (uvmcopy (s.proc p).pagetable (s.proc np).pagetable (s.proc p).sz)) < 0 then
      freeproc np
      pure (-1)
    else
      Prog.modify (setProc np { s.proc np with state := .runnable, sz := (s.proc p).sz })
      return (np.val : ℤ)

/-- `kexec`, after `namei` has found the file or not. -/
def kexec (p : Slot) (file : Option ElfFile) (argv : List Arg) : SpM ℤ := do
  let s ← Prog.get
  match file with
  | none => pure (-1)
  | some file =>
    match file.elf with
    | none => pure (-1)
    | some (magic, phnum) =>
      if magic ≠ ELF_MAGIC then pure (-1)
      else
        let pagetable ← call (procPagetable s.trampoline (s.proc p).trapframe)
        if pagetable = 0 then pure (-1)
        else
          match ← call (buildImage (s.user p) pagetable file phnum argv) with
          | (false, sz) =>
            call (procFreepagetable pagetable sz)
            pure (-1)
          | (true, sz) =>
            -- commit to the user image
            Prog.modify (setProc p { s.proc p with pagetable := pagetable, sz := sz })
            call (procFreepagetable (s.proc p).pagetable (s.proc p).sz)
            return (argv.length : ℤ)

/-- The process keeps its memory until its parent waits for it. -/
def kexit (p : Slot) : SpM ℤ := do
  let s ← Prog.get
  Prog.modify (setProc p { s.proc p with state := .zombie })
  pure 0

/-- `kwait(addr)` has found the `ZOMBIE` child `pp`, with the bytes of its `xstate`. -/
def kwait (p : Slot) (addr : ℕ) (pp : Slot) (xstate : List UInt8) : SpM ℤ := do
  let s ← Prog.get
  if addr ≠ 0 then
    if (← call (copyout (s.user p) (s.proc p).pagetable addr xstate)) < 0 then pure (-1)
    else
      freeproc pp
      pure 0
  else
    freeproc pp
    pure 0

/-- A page fault at `va`. -/
def fault (p : Slot) (va : ℕ) : SpM ℤ := do
  let s ← Prog.get
  return (← call (vmfault (s.user p) (s.proc p).pagetable va) : ℕ)

/-- `pipealloc`, where `files` says whether there were two free files, for a new pipe `k`. -/
def pipealloc (k : ℕ) (files : Bool) : SpM ℤ := do
  if !files then pure (-1)
  else
    let page ← call kalloc
    if page = 0 then pure (-1)
    else
      Prog.modify fun s => { s with pipe := update s.pipe k ⟨page, true, true⟩ }
      pure 0

/-- `pipeclose` of one end of the pipe `k`. -/
def pipeclose (k : ℕ) (writable : Bool) : SpM ℤ := do
  let x := (← Prog.get).pipe k
  let x : PipePage := if writable then { x with writeopen := false } else { x with readopen := false }
  if x.readopen = false ∧ x.writeopen = false then
    call (kfree x.page)
    Prog.modify fun s => { s with pipe := update s.pipe k ⟨0, false, false⟩ }
    pure 0
  else
    Prog.modify fun s => { s with pipe := update s.pipe k x }
    pure 0

end Space

end Xv6
