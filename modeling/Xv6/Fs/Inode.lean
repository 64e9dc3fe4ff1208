import Mathlib.Data.List.FinRange
import Xv6.Disk.Log
import Xv6.Proc.Table

/-!
# Blocks and inodes

The lower half of `fs.c`: the block allocator, the inode table and the contents of inodes. The state
is the store below, the table of in-memory inodes, the file table and what processes hold. An inode
in memory is named by its index in the table. Calls are serialised, so the locks of the table and of
the inodes are not modelled: they are always free when they are taken.
-/

namespace Xv6

open Function

/-! ## The format of the disk -/

/-- The fields of the super block that the kernel uses. -/
structure Superblock where
  size : ℕ
  ninodes : ℕ
  logstart : ℕ
  inodestart : ℕ
  bmapstart : ℕ

/-- Root i-number. -/
def ROOTINO : ℕ := 1

abbrev NDIRECT : ℕ := 12

/-- `BSIZE / sizeof(uint)` -/
abbrev NINDIRECT : ℕ := 256

/-- `NDIRECT + NINDIRECT` -/
abbrev MAXFILE : ℕ := 268

/-- Inodes per block. -/
abbrev IPB : ℕ := 16

/-- Bitmap bits per block. -/
abbrev BPB : ℕ := 8192

/-- The types of an inode; a free one has type 0. -/
abbrev T_DIR : ℕ := 1
abbrev T_FILE : ℕ := 2

/-- Block containing inode `i`. -/
def Superblock.iblock (sb : Superblock) (i : ℕ) : ℕ := i / IPB + sb.inodestart

/-- Block of the free map containing the bit for block `b`. -/
def Superblock.bblock (sb : Superblock) (b : ℕ) : ℕ := b / BPB + sb.bmapstart

/-- On-disk inode structure. The `short` fields are kept as their 16 bits. -/
structure Dinode where
  type : ℕ
  major : ℕ
  minor : ℕ
  nlink : ℕ
  size : ℕ
  addrs : Fin (NDIRECT + 1) → ℕ

/-- The inode `i` in its block. -/
def Dinode.read (d : Block) (i : ℕ) : Dinode where
  type := Bytes.rdle d (64 * (i % IPB)) 2
  major := Bytes.rdle d (64 * (i % IPB) + 2) 2
  minor := Bytes.rdle d (64 * (i % IPB) + 4) 2
  nlink := Bytes.rdle d (64 * (i % IPB) + 6) 2
  size := Bytes.rdle d (64 * (i % IPB) + 8) 4
  addrs k := Bytes.rdle d (64 * (i % IPB) + 12 + 4 * k) 4

/-- Store the block addresses of an inode, the last `n` of them. -/
def Dinode.putAddrs (x : Dinode) (d : Block) (o : ℕ) : ℕ → Block
  | 0 => d
  | n + 1 =>
    if h : n < NDIRECT + 1 then Bytes.wrle (x.putAddrs d o n) (o + 4 * n) (x.addrs ⟨n, h⟩) 4
    else d

/-- Store the inode `i` in its block. -/
def Dinode.write (x : Dinode) (d : Block) (i : ℕ) : Block :=
  let o := 64 * (i % IPB)
  let d := Bytes.wrle d o x.type 2
  let d := Bytes.wrle d (o + 2) x.major 2
  let d := Bytes.wrle d (o + 4) x.minor 2
  let d := Bytes.wrle d (o + 6) x.nlink 2
  let d := Bytes.wrle d (o + 8) x.size 4
  x.putAddrs d (o + 12) (NDIRECT + 1)

/-- The inode that `ialloc` stores: all zero but the type. -/
def Dinode.fresh (type : ℕ) : Dinode := ⟨type, 0, 0, 0, 0, fun _ => 0⟩

/-- Is the bit `i` of a bitmap block set? -/
def getBit (d : Block) (i : ℕ) : Bool := (Bytes.rd8 d (i / 8)).testBit (i % 8)

def setBit (d : Block) (i : ℕ) : Block :=
  Bytes.wr8 d (i / 8) (Bytes.rd8 d (i / 8) ||| 1 <<< (i % 8))

def clearBit (d : Block) (i : ℕ) : Block :=
  Bytes.wr8 d (i / 8) (Bytes.rd8 d (i / 8) &&& (255 ^^^ 1 <<< (i % 8)))

/-- The first clear bit from `i` on, among the next `n`. -/
def firstClear (d : Block) : ℕ → ℕ → Option ℕ
  | 0, _ => none
  | n + 1, i => if getBit d i then firstClear d n (i + 1) else some i

/-! ## The state -/

abbrev NINODE : ℕ := 50
abbrev NFILE : ℕ := 100

/-- An entry of the inode table. -/
abbrev Iptr := Fin NINODE

/-- An entry of the file table. -/
abbrev Fptr := Fin NFILE

/-- In-memory copy of an inode. -/
structure Inode where
  inum : ℕ
  ref : ℕ
  valid : Bool
  /-- The copy of the disk inode. -/
  d : Dinode

inductive FileType
  | none | pipe | inode | device
  deriving DecidableEq

/-- The state of the file system. -/
structure Fs where
  store : Store
  inode : Iptr → Inode

abbrev FsM : Type → Type := Prog Fs Panic

/-- A program on the store. -/
def disk {α : Type} (f : StoreM α) : FsM α :=
  Prog.zoom Fs.store (fun st s => { s with store := st }) f

/-- Change an entry of the inode table. -/
def Fs.setInode (s : Fs) (e : Iptr) (f : Inode → Inode) : Fs :=
  { s with inode := update s.inode e (f (s.inode e)) }

/-- Assign to the fields of the copy of the disk inode. -/
def setDinode (e : Iptr) (f : Dinode → Dinode) : FsM Unit :=
  Prog.modify fun s => s.setInode e fun ip => { ip with d := f ip.d }

/-- The entry `e` of the inode table. -/
def getInode (e : Iptr) : FsM Inode := do
  let s ← Prog.get
  pure (s.inode e)

/-! ## Blocks -/

variable (sb : Superblock)

/-- Zero a block. -/
def bzero (b : ℕ) : FsM Unit := do
  let _ ← disk (bread b)
  disk (setData b Bytes.zero)
  disk (logWrite b)
  disk (brelse b)

/-- The loop of `balloc` over the blocks of the free map. -/
def ballocLoop : List ℕ → FsM ℕ
  | [] => pure 0
  | k :: ks => do
    let b := k * BPB
    let data ← disk (bread (sb.bblock b))
    match firstClear data (min BPB (sb.size - b)) 0 with
    | some bi =>
      disk (setData (sb.bblock b) (setBit data bi))
      disk (logWrite (sb.bblock b))
      disk (brelse (sb.bblock b))
      bzero (b + bi)
      pure (b + bi)
    | none =>
      disk (brelse (sb.bblock b))
      ballocLoop ks

/-- Allocate a zeroed disk block; 0 if out of disk space. -/
def balloc : FsM ℕ := ballocLoop sb (List.range ((sb.size + BPB - 1) / BPB))

/-- Free a disk block. -/
def bfree (b : ℕ) : FsM Unit := do
  let data ← disk (bread (sb.bblock b))
  if getBit data (b % BPB) = false then Prog.panic .freeingFree
  else
    disk (setData (sb.bblock b) (clearBit data (b % BPB)))
    disk (logWrite (sb.bblock b))
    disk (brelse (sb.bblock b))

/-! ## Inodes -/

/-- Find the inode with number `inum` and return the in-memory copy. Does not read it from disk. -/
def iget (inum : ℕ) : FsM Iptr := do
  let s ← Prog.get
  match (List.finRange NINODE).find?
      fun e => decide (0 < (s.inode e).ref ∧ (s.inode e).inum = inum) with
  | some e =>
    Prog.modify fun s => s.setInode e fun ip => { ip with ref := ip.ref + 1 }
    pure e
  | none =>
    match (List.finRange NINODE).find? fun e => decide ((s.inode e).ref = 0) with
    | some e =>
      Prog.modify fun s => s.setInode e fun ip => { ip with inum := inum, ref := 1, valid := false }
      pure e
    | none => Prog.panic .noInodes

/-- Increment the reference count of `e`. -/
def idup (e : Iptr) : FsM Iptr := do
  Prog.modify fun s => s.setInode e fun ip => { ip with ref := ip.ref + 1 }
  pure e

/-- Copy a modified in-memory inode to disk. -/
def iupdate (e : Iptr) : FsM Unit := do
  let ip ← getInode e
  let data ← disk (bread (sb.iblock ip.inum))
  disk (setData (sb.iblock ip.inum) (ip.d.write data ip.inum))
  disk (logWrite (sb.iblock ip.inum))
  disk (brelse (sb.iblock ip.inum))

/-- Lock the given inode; reads it from disk if necessary. -/
def ilock (e : Iptr) : FsM Unit := do
  let ip ← getInode e
  if ip.ref < 1 then Prog.panic .ilock
  else if ip.valid then pure ()
  else
    let data ← disk (bread (sb.iblock ip.inum))
    Prog.modify fun s => s.setInode e fun ip => { ip with d := Dinode.read data ip.inum }
    disk (brelse (sb.iblock ip.inum))
    Prog.modify fun s => s.setInode e fun ip => { ip with valid := true }
    let ip ← getInode e
    if ip.d.type = 0 then Prog.panic .noType else pure ()

/-- Unlock the given inode. -/
def iunlock (e : Iptr) : FsM Unit := do
  let ip ← getInode e
  if ip.ref < 1 then Prog.panic .iunlock else pure ()

/-- The disk address of the block `bn` of an inode; allocates it if there is none. Returns 0 if out of
disk space. -/
def bmap (e : Iptr) (bn : ℕ) : FsM ℕ := do
  let ip ← getInode e
  if h : bn < NDIRECT then
    let k : Fin (NDIRECT + 1) := ⟨bn, by omega⟩
    if ip.d.addrs k = 0 then
      let addr ← balloc sb
      if addr = 0 then pure 0
      else
        setDinode e fun d => { d with addrs := update d.addrs k addr }
        pure addr
    else pure (ip.d.addrs k)
  else if bn - NDIRECT < NINDIRECT then
    let addr ← (if ip.d.addrs (Fin.last NDIRECT) = 0 then do
      let addr ← balloc sb
      if addr = 0 then pure 0
      else
        setDinode e fun d => { d with addrs := update d.addrs (Fin.last NDIRECT) addr }
        pure addr
    else pure (ip.d.addrs (Fin.last NDIRECT)))
    if addr = 0 then pure 0
    else
      let a ← disk (bread addr)
      if Bytes.rdle a (4 * (bn - NDIRECT)) 4 = 0 then
        let b ← balloc sb
        if b = 0 then
          disk (brelse addr)
          pure 0
        else
          disk (setData addr (Bytes.wrle a (4 * (bn - NDIRECT)) b 4))
          disk (logWrite addr)
          disk (brelse addr)
          pure b
      else
        disk (brelse addr)
        pure (Bytes.rdle a (4 * (bn - NDIRECT)) 4)
  else Prog.panic .outOfRange

/-- Truncate an inode: discard its contents. -/
def itrunc (e : Iptr) : FsM Unit := do
  Prog.each (fun k : Fin NDIRECT => do
    let ip ← getInode e
    if ip.d.addrs k.castSucc = 0 then pure ()
    else
      bfree sb (ip.d.addrs k.castSucc)
      setDinode e fun d => { d with addrs := update d.addrs k.castSucc 0 })
    (List.finRange NDIRECT)
  let ip ← getInode e
  if ip.d.addrs (Fin.last NDIRECT) = 0 then pure ()
  else do
    let a ← disk (bread (ip.d.addrs (Fin.last NDIRECT)))
    Prog.each (fun j =>
      if Bytes.rdle a (4 * j) 4 = 0 then pure () else bfree sb (Bytes.rdle a (4 * j) 4))
      (List.range NINDIRECT)
    disk (brelse (ip.d.addrs (Fin.last NDIRECT)))
    bfree sb (ip.d.addrs (Fin.last NDIRECT))
    setDinode e fun d => { d with addrs := update d.addrs (Fin.last NDIRECT) 0 }
  setDinode e fun d => { d with size := 0 }
  iupdate sb e

/-- Drop a reference to an in-memory inode; if it was the last one and the inode has no links, free the
inode and its contents on disk. -/
def iput (e : Iptr) : FsM Unit := do
  let ip ← getInode e
  if ip.ref = 1 ∧ ip.valid = true ∧ ip.d.nlink = 0 then
    itrunc sb e
    setDinode e fun d => { d with type := 0 }
    iupdate sb e
    Prog.modify fun s => s.setInode e fun ip => { ip with valid := false }
  else pure ()
  Prog.modify fun s => s.setInode e fun ip => { ip with ref := ip.ref - 1 }

/-- Common idiom: unlock, then put. -/
def iunlockput (e : Iptr) : FsM Unit := do
  iunlock e
  iput sb e

end Xv6
