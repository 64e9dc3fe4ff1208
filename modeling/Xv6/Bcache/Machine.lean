import Xv6.Lib.Dlist
import Xv6.Lib.Trans
import Xv6.Disk.Bio
import Mathlib.Data.Fintype.Card
import Mathlib.Algebra.BigOperators.Group.Finset.Piecewise

/-!
# The buffer cache under concurrency

The functions of `bio.c`, called in any interleaving by sessions. A session is one use of a buffer,
from `bread` to `brelse`; a process may have several. The buffers are linked through `next` and `prev`.
A step is a section under `bcache.lock`, the acquisition or release of the sleep lock of a buffer, one
transfer of `virtio_disk_rw`, or one assignment by the holder of a buffer.

`virtio_disk_rw` takes the place on the disk from `b->blockno` alone, with 32-bit arithmetic, so two
buffers of different devices may share it.

Two fields of a buffer are not in the source: `pins`, the calls of `bpin` without their `bunpin`, and
`dirty`, whether the bytes were changed since the last `bwrite`. Clients call `bread` with a device
other than 0 and write a changed buffer before its last reference goes.
-/

namespace Xv6.Bcache

open Dlist

instance : NeZero NBUF := ⟨Nat.succ_ne_zero 29⟩

/-- A device number and a block number. -/
abbrev Key : Type := ℕ × ℕ

/-- `b->blockno * (BSIZE / 512)`, a `uint`. -/
def sector (blockno : ℕ) : ℕ := blockno * (BSIZE / 512) % 2 ^ 32

/-- `&bcache.head` or `&bcache.buf[i]`. -/
inductive Node
  | head
  | buf (i : Fin NBUF)
  deriving DecidableEq

/-- A test of buffers on the nodes of the list. -/
def Node.sat (p : Fin NBUF → Bool) : Node → Bool
  | head => false
  | buf i => p i

/-- `struct buf`; `lock` is the session that holds the sleep lock. -/
structure Entry (ι δ : Type) where
  valid : Bool
  dev : ℕ
  blockno : ℕ
  lock : Option ι
  refcnt : ℕ
  data : δ
  pins : ℕ
  dirty : Bool

def Entry.key {ι δ : Type} (x : Entry ι δ) : Key := (x.dev, x.blockno)

/-- The part of a session that uses a buffer. -/
inductive Phase
  /-- in `acquiresleep` of `bget` -/
  | lock
  /-- in `bread`, before the test of `valid` -/
  | check
  /-- in `bread`, after the transfer -/
  | fresh
  /-- `bread` has returned -/
  | held
  /-- in `brelse`, after `releasesleep` -/
  | drop
  deriving DecidableEq

/-- The sleep lock is held. -/
def Phase.owns : Phase → Bool
  | lock => false
  | check => true
  | fresh => true
  | held => true
  | drop => false

/-- Where a session is. -/
inductive Pc
  | idle
  /-- before the section of `bget` -/
  | get (k : Key)
  | on (k : Key) (i : Fin NBUF) (ph : Phase)
  deriving DecidableEq

/-- The session has a reference to the buffer `i`. -/
def Pc.uses (i : Fin NBUF) : Pc → Bool
  | on _ j _ => j == i
  | _ => false

/-- The session holds the sleep lock of the buffer `i`. -/
def Pc.owns (i : Fin NBUF) : Pc → Bool
  | on _ j ph => j == i && ph.owns
  | _ => false

/-- What the clients see. -/
inductive Event (ι δ : Type)
  | call (t : ι) (k : Key)
  /-- `bread` returns -/
  | bread (t : ι) (k : Key) (d : δ)
  /-- the holder assigns the bytes -/
  | store (t : ι) (k : Key) (d : δ)

end Xv6.Bcache

namespace Xv6

/-- The cache, the sessions and the disk by sectors. -/
structure Bcache (ι δ : Type) where
  links : Dlist.Links Bcache.Node
  buf : Fin NBUF → Bcache.Entry ι δ
  pc : ι → Bcache.Pc
  disk : ℕ → δ

end Xv6

namespace Xv6.Bcache

open Dlist

variable {ι δ : Type} [DecidableEq ι]

/-- The links after `binit`. -/
def binit : Links Node :=
  (List.finRange NBUF).foldl (fun s i => s.pushFront .head (.buf i)) ⟨fun _ => .head, fun _ => .head⟩

/-- The cache after `binit`; static storage is zero. -/
def init (zero : δ) (disk : ℕ → δ) : Bcache ι δ :=
  ⟨binit, fun _ => ⟨false, 0, 0, none, 0, zero, 0, false⟩, fun _ => .idle, disk⟩

variable (s : Bcache ι δ)

/-- The buffer `i` is now `x`. -/
def set (i : Fin NBUF) (x : Entry ι δ) : Bcache ι δ := { s with buf := Function.update s.buf i x }

/-- The session `t` is now at `c`. -/
def goto (t : ι) (c : Pc) : Bcache ι δ := { s with pc := Function.update s.pc t c }

/-- The first buffer that passes the test, from `bcache.head.next` on. -/
def first (p : Fin NBUF → Bool) : Option Node :=
  Links.find s.links.next .head (Node.sat p) (NBUF + 1) (s.links.next .head)

/-- The first buffer that passes the test, from `bcache.head.prev` on. -/
def last (p : Fin NBUF → Bool) : Option Node :=
  Links.find s.links.prev .head (Node.sat p) (NBUF + 1) (s.links.prev .head)

/-- The section of `bget`; `none` is the panic "bget: no buffers". -/
def bget (k : Key) : Option (Fin NBUF × Bcache ι δ) :=
  match s.first fun i => (s.buf i).dev == k.1 && (s.buf i).blockno == k.2 with
  | some (.buf i) => some (i, s.set i { s.buf i with refcnt := (s.buf i).refcnt + 1 })
  | _ =>
    match s.last fun i => (s.buf i).refcnt == 0 with
    | some (.buf i) =>
      some (i, s.set i { s.buf i with dev := k.1, blockno := k.2, valid := false, refcnt := 1 })
    | _ => none

/-- The section of `brelse`. -/
def brelse (i : Fin NBUF) : Bcache ι δ :=
  let s₁ := s.set i { s.buf i with refcnt := (s.buf i).refcnt - 1 }
  if (s₁.buf i).refcnt = 0 then
    { s₁ with links := (s₁.links.unlink (.buf i)).pushFront .head (.buf i) }
  else s₁

/-- The transfer of `virtio_disk_rw(b, 0)`. -/
def diskRead (i : Fin NBUF) : Bcache ι δ :=
  s.set i { s.buf i with data := s.disk (sector (s.buf i).blockno) }

/-- The transfer of `virtio_disk_rw(b, 1)`. -/
def diskWrite (i : Fin NBUF) : Bcache ι δ :=
  { s.set i { s.buf i with dirty := false } with
    disk := Function.update s.disk (sector (s.buf i).blockno) (s.buf i).data }

/-- The last reference to the buffer `i` does not go while its bytes are only in memory. -/
def Written (i : Fin NBUF) : Prop := (s.buf i).refcnt = 1 → (s.buf i).dirty = false

inductive Step : Bcache ι δ → List (Event ι δ) → Bcache ι δ → Prop
  | call {s : Bcache ι δ} {t : ι} {k : Key} (hp : s.pc t = .idle) (hk : k.1 ≠ 0) :
      Step s [.call t k] (s.goto t (.get k))
  | bget {s s' : Bcache ι δ} {t : ι} {k : Key} {i : Fin NBUF} (hp : s.pc t = .get k)
      (hg : s.bget k = some (i, s')) : Step s [] (s'.goto t (.on k i .lock))
  | acquiresleep {s : Bcache ι δ} {t : ι} {k : Key} {i : Fin NBUF} (hp : s.pc t = .on k i .lock)
      (hl : (s.buf i).lock = none) :
      Step s [] ((s.set i { s.buf i with lock := some t }).goto t (.on k i .check))
  | hit {s : Bcache ι δ} {t : ι} {k : Key} {i : Fin NBUF} (hp : s.pc t = .on k i .check)
      (hv : (s.buf i).valid = true) :
      Step s [.bread t k (s.buf i).data] (s.goto t (.on k i .held))
  | read {s : Bcache ι δ} {t : ι} {k : Key} {i : Fin NBUF} (hp : s.pc t = .on k i .check)
      (hv : (s.buf i).valid = false) : Step s [] ((s.diskRead i).goto t (.on k i .fresh))
  | filled {s : Bcache ι δ} {t : ι} {k : Key} {i : Fin NBUF} (hp : s.pc t = .on k i .fresh) :
      Step s [.bread t k (s.buf i).data]
        ((s.set i { s.buf i with valid := true }).goto t (.on k i .held))
  | store {s : Bcache ι δ} {t : ι} {k : Key} {i : Fin NBUF} (d : δ) (hp : s.pc t = .on k i .held) :
      Step s [.store t k d] (s.set i { s.buf i with data := d, dirty := true })
  | bwrite {s : Bcache ι δ} {t : ι} {k : Key} {i : Fin NBUF} (hp : s.pc t = .on k i .held) :
      Step s [] (s.diskWrite i)
  | releasesleep {s : Bcache ι δ} {t : ι} {k : Key} {i : Fin NBUF} (hp : s.pc t = .on k i .held) :
      Step s [] ((s.set i { s.buf i with lock := none }).goto t (.on k i .drop))
  | brelse {s : Bcache ι δ} {t : ι} {k : Key} {i : Fin NBUF} (hp : s.pc t = .on k i .drop)
      (hw : s.Written i) : Step s [] ((s.brelse i).goto t .idle)
  | bpin {s : Bcache ι δ} (i : Fin NBUF) :
      Step s [] (s.set i { s.buf i with
        refcnt := (s.buf i).refcnt + 1, pins := (s.buf i).pins + 1 })
  | bunpin {s : Bcache ι δ} {i : Fin NBUF} (hn : 0 < (s.buf i).pins) (hw : s.Written i) :
      Step s [] (s.set i { s.buf i with
        refcnt := (s.buf i).refcnt - 1, pins := (s.buf i).pins - 1 })

abbrev Runs (s : Bcache ι δ) (tr : List (Event ι δ)) (s' : Bcache ι δ) : Prop := Trans.Run Step s tr s'

/-- The sessions with a reference to the buffer `i`. -/
def users [Fintype ι] (i : Fin NBUF) : Finset ι := Finset.univ.filter fun t => (s.pc t).uses i

/-- The bytes most recently stored under `k`, or those that were on the disk. -/
def latest (disk : ℕ → δ) (k : Key) (tr : List (Event ι δ)) : δ :=
  tr.foldl (fun d e => match e with
    | .store _ k' d' => if k' = k then d' else d
    | _ => d) (disk (sector k.2))

end Xv6.Bcache
