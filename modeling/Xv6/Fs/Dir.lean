import Xv6.Fs.Inode
import Xv6.Vm.Memory

/-!
# Contents, directories and paths

The upper half of `fs.c`: reading and writing the contents of inodes, directories as lists of
entries of 16 bytes (a 16-bit inode number and a name of at most 14 bytes), and path lookup.
-/

namespace Xv6

/-- A mapped page of user memory. -/
structure UserPage where
  bytes : ℕ → UInt8
  writable : Bool

/-- User memory by page number, as `walkaddr` and `vmfault` find it. -/
abbrev UserView : Type := ℕ → Option UserPage

/-- `copyin`: the bytes that were copied before the first page that is not there, and whether all of
them were. A page takes one step; `n` bounds the number of steps. -/
def UserView.copyin (m : UserView) : ℕ → ℕ → ℕ → List UInt8 × Bool
  | 0, _, _ => ([], true)
  | n + 1, va, len =>
    if len = 0 then ([], true)
    else
      match m (va / PGSIZE) with
      | none => ([], false)
      | some pg =>
        let k := min len (PGSIZE - va % PGSIZE)
        let (bs, ok) := UserView.copyin m n (va + k) (len - k)
        ((List.range k).map (fun i => pg.bytes (va % PGSIZE + i)) ++ bs, ok)

/-- `copyout`: do all pages of the range accept the bytes? -/
def UserView.copyout (m : UserView) : ℕ → ℕ → ℕ → Bool
  | 0, _, _ => true
  | n + 1, va, len =>
    if len = 0 then true
    else
      match m (va / PGSIZE) with
      | none => false
      | some pg =>
        let k := min len (PGSIZE - va % PGSIZE)
        pg.writable && UserView.copyout m n (va + k) (len - k)

/-- Where the bytes of a write come from. -/
inductive Src
  | kernel (bytes : List UInt8)
  | user (m : UserView) (addr : ℕ)

/-- `either_copyin` of `len` bytes from offset `i` of the source. -/
def Src.copyin (i len : ℕ) : Src → List UInt8 × Bool
  | kernel bytes => ((bytes.drop i).take len, true)
  | user m addr => m.copyin len (addr + i) len

/-- Where the bytes of a read go. -/
inductive Dst
  | kernel
  | user (m : UserView) (addr : ℕ)

/-- `either_copyout` of `len` bytes to offset `i` of the destination. -/
def Dst.copyout (i len : ℕ) : Dst → Bool
  | kernel => true
  | user m addr => m.copyout len (addr + i) len

variable (sb : Superblock)

/-! ## Contents -/

/-- The loop of `readi`, with `tot` of `n` bytes done: the value of `tot` at its end and the bytes
copied. A block takes one step; the first argument bounds the number of steps. -/
def readiLoop (e : Iptr) (dst : Dst) (n : ℕ) : ℕ → ℕ → ℕ → FsM (ℤ × List UInt8)
  | 0, tot, _ => pure (tot, [])
  | fuel + 1, tot, off =>
    if tot < n then do
      let addr ← bmap sb e (off / BSIZE)
      if addr = 0 then pure ((tot : ℤ), [])
      else
        let data ← disk (bread addr)
        let m := min (n - tot) (BSIZE - off % BSIZE)
        if dst.copyout tot m = false then
          disk (brelse addr)
          pure (-1, [])
        else
          disk (brelse addr)
          let (r, bs) ← readiLoop e dst n fuel (tot + m) (off + m)
          pure (r, Bytes.slice data (off % BSIZE) m ++ bs)
    else pure ((tot : ℤ), [])

/-- Read data from an inode: the number of bytes read and the bytes. Offsets and lengths are 32-bit
numbers. -/
def readi (e : Iptr) (dst : Dst) (off n : ℕ) : FsM (ℤ × List UInt8) := do
  let ip ← getInode e
  if ip.d.size < off ∨ (off + n) % 2 ^ 32 < off then pure (0, [])
  else
    let n := if ip.d.size < off + n then ip.d.size - off else n
    readiLoop sb e dst n n 0 off

/-- The loop of `writei`, with `tot` of `n` bytes done: the values of `tot` and `off` at its end. -/
def writeiLoop (e : Iptr) (src : Src) (n : ℕ) : ℕ → ℕ → ℕ → FsM (ℕ × ℕ)
  | 0, tot, off => pure (tot, off)
  | fuel + 1, tot, off =>
    if tot < n then do
      let addr ← bmap sb e (off / BSIZE)
      if addr = 0 then pure (tot, off)
      else
        let data ← disk (bread addr)
        let m := min (n - tot) (BSIZE - off % BSIZE)
        let (bs, ok) := src.copyin tot m
        disk (setData addr (Bytes.put data (off % BSIZE) bs))
        if ok = false then
          disk (brelse addr)
          pure (tot, off)
        else
          disk (logWrite addr)
          disk (brelse addr)
          writeiLoop e src n fuel (tot + m) (off + m)
    else pure (tot, off)

/-- Write data to an inode: the number of bytes written, or -1. -/
def writei (e : Iptr) (src : Src) (off n : ℕ) : FsM ℤ := do
  let ip ← getInode e
  if ip.d.size < off ∨ (off + n) % 2 ^ 32 < off then pure (-1)
  else if MAXFILE * BSIZE < off + n then pure (-1)
  else
    let (tot, off) ← writeiLoop sb e src n n 0 off
    setDinode e fun d => if d.size < off then { d with size := off } else d
    iupdate sb e
    pure tot

/-! ## Directories -/

abbrev DIRSIZ : ℕ := 14

/-- The string in a field of `DIRSIZ` bytes. -/
def cstr (l : List UInt8) : List UInt8 := (l.take DIRSIZ).takeWhile (· ≠ 0)

/-- `strncpy` into a field of `DIRSIZ` bytes. -/
def strncpy (name : List UInt8) : List UInt8 :=
  cstr name ++ List.replicate (DIRSIZ - (cstr name).length) 0

/-- The inode number of a directory entry. -/
def direntInum (de : List UInt8) : ℕ := (de.getD 0 0).toNat + 256 * (de.getD 1 0).toNat

/-- The name of a directory entry. -/
def direntName (de : List UInt8) : List UInt8 := cstr (de.drop 2)

/-- The names "." and "..". -/
def dot : List UInt8 := [46]
def dotdot : List UInt8 := [46, 46]

/-- A directory entry. -/
def dirent (name : List UInt8) (inum : ℕ) : List UInt8 :=
  UInt8.ofNat inum :: UInt8.ofNat (inum / 256) :: strncpy name

/-- `sizeof(struct dirent)` -/
abbrev DESIZE : ℕ := 16

/-- The loop of `dirlookup` over the offsets. -/
def dirlookupLoop (e : Iptr) (name : List UInt8) : List ℕ → FsM (Option (Iptr × ℕ))
  | [] => pure none
  | k :: ks => do
    let (r, de) ← readi sb e .kernel (DESIZE * k) DESIZE
    if r ≠ DESIZE then Prog.panic .dirlookupRead
    else if direntInum de = 0 then dirlookupLoop e name ks
    else if direntName de = cstr name then
      let ip ← iget (direntInum de)
      pure (some (ip, DESIZE * k))
    else dirlookupLoop e name ks

/-- The number of entries that a loop over a directory visits. -/
def nslots (size : ℕ) : ℕ := (size + DESIZE - 1) / DESIZE

/-- Look for a directory entry in a directory: its inode and its offset. -/
def dirlookup (e : Iptr) (name : List UInt8) : FsM (Option (Iptr × ℕ)) := do
  let ip ← getInode e
  if ip.d.type ≠ T_DIR then Prog.panic .notDir
  else dirlookupLoop sb e name (List.range (nslots ip.d.size))

/-- The loop of `dirlink`: the offset of the first empty entry, or the end. -/
def dirlinkLoop (e : Iptr) : ℕ → ℕ → FsM ℕ
  | 0, k => pure (DESIZE * k)
  | n + 1, k => do
    let (r, de) ← readi sb e .kernel (DESIZE * k) DESIZE
    if r ≠ DESIZE then Prog.panic .dirlinkRead
    else if direntInum de = 0 then pure (DESIZE * k)
    else dirlinkLoop e n (k + 1)

/-- Write a new directory entry; false on failure. -/
def dirlink (e : Iptr) (name : List UInt8) (inum : ℕ) : FsM Bool := do
  match ← dirlookup sb e name with
  | some (ip, _) =>
    iput sb ip
    pure false
  | none =>
    let ip ← getInode e
    let off ← dirlinkLoop sb e (nslots ip.d.size) 0
    let r ← writei sb e (.kernel (dirent name inum)) off DESIZE
    pure (r = DESIZE)

/-! ## Paths -/

/-- The character '/'. -/
def slash : UInt8 := 47

/-- The next path element, cut to `DIRSIZ` bytes, and the path after it. -/
def skipelem (path : List UInt8) : Option (List UInt8 × List UInt8) :=
  match path.dropWhile (· = slash) with
  | [] => none
  | s =>
    some ((s.takeWhile (· ≠ slash)).take DIRSIZ, (s.dropWhile (· ≠ slash)).dropWhile (· = slash))

/-- The loop of `namex` from the inode `e`. A path element takes one step; the first argument bounds
the number of steps. -/
def namexLoop (nameiparent : Bool) : ℕ → Iptr → List UInt8 → List UInt8 →
    FsM (Option (Iptr × List UInt8))
  | 0, e, _, name => if nameiparent then do iput sb e; pure none else pure (some (e, name))
  | fuel + 1, e, path, name =>
    match skipelem path with
    | none => if nameiparent then do iput sb e; pure none else pure (some (e, name))
    | some (name, rest) => do
      ilock sb e
      let ip ← getInode e
      if ip.d.type ≠ T_DIR then
        iunlockput sb e
        pure none
      else if nameiparent ∧ rest = [] then
        iunlock e
        pure (some (e, name))
      else
        match ← dirlookup sb e name with
        | none =>
          iunlockput sb e
          pure none
        | some (next, _) =>
          iunlockput sb e
          namexLoop nameiparent fuel next rest name

/-- Look up the inode for a path name, starting at the root or at the working directory. If
`nameiparent`, return the inode for the parent and the final path element. -/
def namex (cwd : Iptr) (path : List UInt8) (nameiparent : Bool) :
    FsM (Option (Iptr × List UInt8)) := do
  let e ← (if path.head? = some slash then iget ROOTINO else idup cwd)
  namexLoop sb nameiparent path.length e path []

def namei (cwd : Iptr) (path : List UInt8) : FsM (Option Iptr) := do
  let r ← namex sb cwd path false
  pure (r.map Prod.fst)

def nameiparent (cwd : Iptr) (path : List UInt8) : FsM (Option (Iptr × List UInt8)) :=
  namex sb cwd path true

end Xv6
