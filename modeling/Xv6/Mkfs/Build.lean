import Xv6.Fs.Content

/-!
# `mkfs`

The program that builds the initial file system. It writes the image file through `wsect` and `rsect`
and hands out inodes and blocks by counting up; the free map is written once, at the end. The image file
is its sectors and their number; a read behind the last one fails.
-/

namespace Xv6

/-! ## The parameters of the image -/

def NINODES : ℕ := 200

def FSSIZE : ℕ := 2000

def nbitmap : ℕ := FSSIZE / BPB + 1

def ninodeblocks : ℕ := NINODES / IPB + 1

/-- Header followed by `LOGBLOCKS` data blocks. -/
def nlog : ℕ := LOGBLOCKS + 1

/-- Number of meta blocks (boot, sb, nlog, inode, bitmap). -/
def nmeta : ℕ := 2 + nlog + ninodeblocks + nbitmap

def FSMAGIC : ℕ := 0x10203040

/-- The super block that `mkfs` computes. -/
def mkfsSb : Superblock where
  size := FSSIZE
  ninodes := NINODES
  logstart := 2
  inodestart := 2 + nlog
  bmapstart := 2 + nlog + ninodeblocks

/-- The block with the super block: `magic`, `size`, `nblocks`, `ninodes`, `nlog`, `logstart`,
`inodestart` and `bmapstart`. -/
def sbBlock : Block :=
  let d : Block := Bytes.zero
  let d := Bytes.wrle d 0 FSMAGIC 4
  let d := Bytes.wrle d 4 mkfsSb.size 4
  let d := Bytes.wrle d 8 (FSSIZE - nmeta) 4
  let d := Bytes.wrle d 12 mkfsSb.ninodes 4
  let d := Bytes.wrle d 16 nlog 4
  let d := Bytes.wrle d 20 mkfsSb.logstart 4
  let d := Bytes.wrle d 24 mkfsSb.inodestart 4
  Bytes.wrle d 28 mkfsSb.bmapstart 4

/-- `readsb` of the kernel: the magic number and the fields it uses. -/
def readsb (d : Block) : ℕ × Superblock :=
  (Bytes.rdle d 0 4,
    { size := Bytes.rdle d 4 4
      ninodes := Bytes.rdle d 12 4
      logstart := Bytes.rdle d 20 4
      inodestart := Bytes.rdle d 24 4
      bmapstart := Bytes.rdle d 28 4 })

/-! ## The state -/

/-- How `mkfs` ends with another status than 0. -/
inductive Stop
  /-- `die`: a call of the host failed. -/
  | die
  /-- A failed `assert`. -/
  | assertion
  deriving DecidableEq

/-- The image file and the two counters. -/
structure Mkfs where
  sect : ℕ → Block
  /-- The number of sectors of the file. -/
  nsect : ℕ
  freeinode : ℕ
  freeblock : ℕ

/-- An empty file. -/
def Mkfs.init : Mkfs := ⟨fun _ => Bytes.zero, 0, 1, nmeta⟩

abbrev MkM : Type → Type := Prog Mkfs Stop

/-- An input file: the name on the command line, a C string, and the bytes that the calls of `read`
return one after the other; `none` if it cannot be opened. -/
structure Input where
  path : List UInt8
  nul : (0 : UInt8) ∉ path
  reads : Option (List (List UInt8))

/-- The bytes that are read until a call of `read` returns 0. -/
def readAll (reads : List (List UInt8)) : List UInt8 := (reads.takeWhile (· ≠ [])).flatten

/-! ## Sectors and inodes -/

/-- The sector at which `lseek` of a 32-bit offset arrives. -/
def seek (sec : ℕ) : ℕ := sec * BSIZE % 2 ^ 32 / BSIZE

def wsect (sec : ℕ) (buf : Block) : MkM Unit :=
  Prog.modify fun s =>
    { s with sect := Function.update s.sect (seek sec) buf, nsect := max s.nsect (seek sec + 1) }

def rsect (sec : ℕ) : MkM Block := do
  let s ← Prog.get
  if seek sec < s.nsect then pure (s.sect (seek sec)) else Prog.panic .die

def winode (inum : ℕ) (din : Dinode) : MkM Unit := do
  let buf ← rsect (mkfsSb.iblock inum)
  wsect (mkfsSb.iblock inum) (din.write buf inum)

def rinode (inum : ℕ) : MkM Dinode := do
  let buf ← rsect (mkfsSb.iblock inum)
  pure (Dinode.read buf inum)

namespace Mkfs

/-- The inode that `ialloc` of `mkfs` stores: it has one link. -/
def newDinode (type : ℕ) : Dinode := { Dinode.fresh type with nlink := 1 }

def ialloc (type : ℕ) : MkM ℕ := do
  let s ← Prog.get
  Prog.modify fun s => { s with freeinode := s.freeinode + 1 }
  winode s.freeinode (newDinode type)
  pure s.freeinode

/-- The free map with the first `n` blocks in use. -/
def bitmap : ℕ → Block
  | 0 => Bytes.zero
  | n + 1 => setBit (bitmap n) n

/-- Write the free map. -/
def balloc (used : ℕ) : MkM Unit :=
  if used < BPB then wsect mkfsSb.bmapstart (bitmap used) else Prog.panic .assertion

/-- `freeblock++` -/
def bump : MkM ℕ := do
  let s ← Prog.get
  Prog.modify fun s => { s with freeblock := s.freeblock + 1 }
  pure s.freeblock

end Mkfs

/-- Take a new block for an empty slot of `addrs`. -/
def fillSlot (din : Dinode) (k : Fin (NDIRECT + 1)) : MkM Dinode :=
  if din.addrs k = 0 then do
    let b ← Mkfs.bump
    pure (din.setAddr k b)
  else pure din

/-- The block `fbn` of an inode in `iappend`, which takes a new one if there is none. -/
def appendBlock (din : Dinode) (fbn : ℕ) : MkM (Dinode × ℕ) :=
  if h : fbn < NDIRECT then do
    let din ← fillSlot din ⟨fbn, Nat.lt_succ_of_lt h⟩
    pure (din, din.addrs ⟨fbn, Nat.lt_succ_of_lt h⟩)
  else do
    let din ← fillSlot din (Fin.last NDIRECT)
    let indirect ← rsect din.indirect
    if Bytes.rdle indirect (4 * (fbn - NDIRECT)) 4 = 0 then
      let b ← Mkfs.bump
      wsect din.indirect (Bytes.wrle indirect (4 * (fbn - NDIRECT)) b 4)
      pure (din, b)
    else pure (din, Bytes.rdle indirect (4 * (fbn - NDIRECT)) 4)

/-- The loop of `iappend`. A block takes one step; the first argument bounds the number of steps. -/
def iappendLoop : ℕ → Dinode → ℕ → List UInt8 → MkM (Dinode × ℕ)
  | 0, din, off, _ => pure (din, off)
  | fuel + 1, din, off, p =>
    if p = [] then pure (din, off)
    else if off / BSIZE < MAXFILE then do
      let (din, x) ← appendBlock din (off / BSIZE)
      let n1 := min p.length ((off / BSIZE + 1) * BSIZE - off)
      let buf ← rsect x
      wsect x (Bytes.put buf (off - off / BSIZE * BSIZE) (p.take n1))
      iappendLoop fuel din (off + n1) (p.drop n1)
    else Prog.panic .assertion

/-- Append bytes to an inode. -/
def iappend (inum : ℕ) (p : List UInt8) : MkM Unit := do
  let din ← rinode inum
  let (din, off) ← iappendLoop p.length din din.size p
  winode inum { din with size := off }

/-! ## `main` -/

/-- "user/" -/
def userDir : List UInt8 := [117, 115, 101, 114, 47]

/-- The character '_'. -/
def underscore : UInt8 := 95

/-- The name without "user/". -/
def stripUser (path : List UInt8) : List UInt8 :=
  if path.take 5 = userDir then path.drop 5 else path

/-- The name in the file system: without "user/" and a leading '_'. -/
def shortname (path : List UInt8) : List UInt8 :=
  if (stripUser path).head? = some underscore then (stripUser path).drop 1 else stripUser path

/-- Append what `read` returns until it returns 0. -/
def appendReads (inum : ℕ) : List (List UInt8) → MkM Unit
  | [] => pure ()
  | c :: cs =>
    if c = [] then pure ()
    else do
      iappend inum c
      appendReads inum cs

/-- Add an input file. -/
def addFile (a : Input) : MkM Unit :=
  if slash ∈ stripUser a.path then Prog.panic .assertion
  else
    match a.reads with
    | none => Prog.panic .die
    | some reads =>
      if DIRSIZ < (shortname a.path).length then Prog.panic .assertion
      else do
        let inum ← Mkfs.ialloc T_FILE
        iappend ROOTINO (dirent (shortname a.path) inum)
        appendReads inum reads

/-- An image with an empty root directory. It is irreducible so that its loop over all sectors is not run
when terms are compared. -/
@[irreducible] def makeRoot : MkM Unit := do
  Prog.each (fun i => wsect i Bytes.zero) (List.range FSSIZE)
  wsect 1 sbBlock
  let rootino ← Mkfs.ialloc T_DIR
  if rootino ≠ ROOTINO then Prog.panic .assertion
  else
    iappend rootino (dirent dot rootino)
    iappend rootino (dirent dotdot rootino)

/-- Fix the size of the root directory and write the free map. -/
def fixRoot : MkM Unit := do
  let din ← rinode ROOTINO
  winode ROOTINO { din with size := (din.size / BSIZE + 1) * BSIZE }
  let s ← Prog.get
  Mkfs.balloc s.freeblock

def mkfs (args : List Input) : MkM Unit := do
  makeRoot
  Prog.each addFile args
  fixRoot

end Xv6
