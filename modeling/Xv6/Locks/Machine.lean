import Xv6.Lib.Spin
import Xv6.Fs.Inode
import Mathlib.Data.Multiset.AddSub

/-!
# Spin locks of the process and inode layers

Harts run the functions of `proc.c`, `trap.c`, `file.c`, `fs.c` and `sleeplock.c` that take the locks of
processes, `wait_lock`, `tickslock`, `pid_lock`, `kmem.lock`, `ftable.lock`, `itable.lock` and the spin
locks inside the sleep locks of inodes. A position is a point of this code; `Pos.holds` says which locks
the hart holds there. `Acquires`, `Releases` and `Acts` are the steps of the code: to spin on a lock and
then go on, to release one, and to do something else.

Kept of the data is what decides about locks: the states of the processes, who holds the sleep lock of
an inode, and the reference counts of inodes and files. A test of anything else (a pid, a channel,
`killed`, `parent`, `valid`, `nlink`) may go either way. The multisets `refs` and `frefs` are not in the
source: they say who has the references that `iref` and `fref` count. A process uses an inode only while
it has a reference to it, its own or that of an open file, and does not give the reference up while it
holds the sleep lock.

Left out is the lock of `printf`. The other locks of the kernel that protect a condition of `sleep` and
`wakeup` (of the log, a pipe, the disk, the console, a buffer) are `Lock.other`.
-/

namespace Xv6.Locks

open Function (update)

open Spin (Ctl)

inductive Lock
  | proc (p : Slot)
  | wait
  | ticks
  | pid
  | kmem
  | ftable
  | itable
  /-- `ip->lock.lk` -/
  | inner (i : Iptr)
  | other (j : ℕ)
  deriving DecidableEq

/-- What a process is in the middle of when it uses another lock: nothing, or to free an inode. -/
inductive Ret
  | idle
  | trunc (i : Iptr)

/-- Loops in which a process sleeps. -/
inductive Wait
  | kwait
  /-- `sys_pause` -/
  | pause
  /-- `acquiresleep(&ip->lock)` -/
  | lock (i : Iptr)
  | other (j : ℕ) (r : Ret)

/-- The lock that is given to `sleep`. -/
def Wait.lk : Wait → Lock
  | kwait => .wait
  | pause => .ticks
  | lock i => .inner i
  | other j _ => .other j

/-- Loops over the process table that lock one process at a time. -/
inductive Scan
  | kkill
  /-- the system calls that set or get something of the process with a pid -/
  | byPid
  | allocproc
  deriving DecidableEq

/-- Points of the code without locks, where an interrupt may come. -/
inductive Out
  /-- `scheduler`, before the slot `k` -/
  | sched (k : ℕ)
  | idle
  | scan (f : Scan) (k : ℕ)
  /-- `kfork`, before `acquire(&wait_lock)` -/
  | forkParent (np : Slot)
  /-- `kfork`, before the second `acquire(&np->lock)` -/
  | forkRun (np : Slot)
  /-- `sleep`, before `acquire(lk)` -/
  | relock (w : Wait)
  /-- `iput`, after the first `release(&itable.lock)`: the inode is freed -/
  | trunc (i : Iptr)
  /-- `iput`, before the second `acquire(&itable.lock)` -/
  | putRef (i : Iptr)

def Ret.out : Ret → Out
  | idle => .idle
  | trunc i => .trunc i

/-- Code under one of the locks that are given to `sleep` or held around `wakeup`. -/
inductive Sec
  | sleeps (w : Wait)
  /-- `kexit` under `wait_lock`, at the slot `k` of `reparent` -/
  | exit (k : ℕ)
  /-- `releasesleep(&ip->lock)`, in `iput` or not -/
  | unlock (i : Iptr) (put : Bool)
  /-- `clockintr`; `x` is what it interrupted -/
  | clock (x : Out)
  /-- the handler of a device -/
  | device (j : ℕ) (x : Out)

def Sec.lk : Sec → Lock
  | sleeps w => w.lk
  | exit _ => .wait
  | unlock i _ => .inner i
  | clock _ => .ticks
  | device j _ => .other j

/-- Where the section goes when it only has to release its lock. -/
def Sec.next : Sec → Option Out
  | sleeps .pause => some .idle
  | sleeps (.other _ r) => some r.out
  | sleeps _ => none
  | exit _ => none
  | unlock i put => some (if put then .putRef i else .idle)
  | clock x => some x
  | device _ x => some x

/-- Why a process calls `sched`; `first` is a process that has not run, which starts in `forkret`. -/
inductive Why
  | sleep (w : Wait)
  | yield (x : Out)
  | exit
  | first

/-- Where a process goes on when it runs again. -/
def Why.next : Why → Option Out
  | sleep w => some (.relock w)
  | yield x => some x
  | exit => none
  | first => some .idle

/-- What is left of a thread that calls `swtch`: the next process in the slot of one that exits starts in
`forkret`. -/
def Why.park : Why → Why
  | exit => first
  | y => y

/-- Locks of short sections without others in them. -/
inductive Leaf
  | kmem
  | ticks

def Leaf.lk : Leaf → Lock
  | kmem => .kmem
  | ticks => .ticks

/-- Stages of `allocproc` and `kfork` under `np->lock`. -/
inductive Stage
  | found
  /-- the pid is set -/
  | numbered
  /-- USED; memory is allocated, copied or freed -/
  | used
  /-- after `freeproc` -/
  | failed
  /-- `filedup` and `idup` -/
  | dup
  /-- before `acquire(&p->lock)` -/
  | own
  | ready
  deriving DecidableEq

/-- Positions in the code. Where a function changes data in the middle, a flag tells whether it has. -/
inductive Pos
  | out (x : Out)
  /-- a loop over the process table, at the slot `q` -/
  | seen (f : Scan) (q : Slot)
  /-- `killed`, `setkilled` and the accounting of `usertrap` -/
  | mine
  | yielding (x : Out)
  | leaf (l : Leaf) (x : Out)
  /-- `filealloc`, `filedup`, `fileclose` -/
  | ftab (done : Bool)
  /-- `iget`, `idup`, and the end of `iput` -/
  | itab (done : Bool)
  | alloc (np : Slot) (g : Stage)
  | allocPid (np : Slot)
  | allocMem (np : Slot)
  | allocFile (np : Slot) (done : Bool)
  | allocInode (np : Slot) (done : Bool)
  | allocOwn (np : Slot)
  /-- `np->parent = p` -/
  | link (np : Slot)
  /-- `np->state = RUNNABLE` -/
  | start (np : Slot) (done : Bool)
  | crit (c : Sec)
  /-- `wakeup`, before the slot `k` -/
  | wake (c : Sec) (k : ℕ)
  | wakeIn (c : Sec) (q : Slot)
  /-- `killed(p)` in a loop that sleeps -/
  | check (w : Wait)
  /-- `sleep`, before `release(lk)` -/
  | bed (w : Wait)
  /-- `sleep`, after it -/
  | drowsy (w : Wait)
  /-- `kexit`, with both locks -/
  | exitIn (done : Bool)
  | kwait (k : ℕ)
  | kwaitIn (q : Slot)
  /-- the child `q` is a zombie -/
  | reap (q : Slot)
  | reapMem (q : Slot)
  | reaped (q : Slot)
  | kleave
  /-- in `sched`, before `swtch` -/
  | own (y : Why)
  | parked (y : Why)
  | resumed (y : Why)
  /-- `scheduler`, with the lock of `q` -/
  | pick (q : Slot)
  /-- in `swtch` of `scheduler`, while a process runs -/
  | away
  | ran (q : Slot)
  /-- the end of `acquiresleep`, and `holdingsleep` -/
  | leave (i : Iptr)
  | unlocking (i : Iptr) (put : Bool)
  | put (i : Iptr)
  /-- `iput` of the last reference to an inode without links -/
  | putLast (i : Iptr)
  | putIn (i : Iptr)
  /-- `acquiresleep` in `iput` calls `sleep` -/
  | putSleep (i : Iptr)
  | putGot (i : Iptr)
  | putHold (i : Iptr)
  /-- before `ip->ref--` -/
  | putDec (i : Iptr)

/-- The lock of the process that runs. -/
def ownLock : Option Slot → List Lock
  | some p => [.proc p]
  | none => []

/-- The locks that a hart holds at a position; `me` is `myproc()`. -/
def Pos.holds (me : Option Slot) : Pos → List Lock
  | out _ | parked _ | away => []
  | seen _ q | pick q | ran q => [.proc q]
  | mine | yielding _ | drowsy _ | own _ | resumed _ => ownLock me
  | leaf l _ => [l.lk]
  | ftab _ => [.ftable]
  | itab _ | put _ | putLast _ | putHold _ | putDec _ => [.itable]
  | alloc np _ | start np _ => [.proc np]
  | allocPid np => [.pid, .proc np]
  | allocMem np => [.kmem, .proc np]
  | allocFile np _ => [.ftable, .proc np]
  | allocInode np _ => [.itable, .proc np]
  | allocOwn np => ownLock me ++ [.proc np]
  | link _ | kwait _ | kleave => [.wait]
  | crit c | wake c _ => [c.lk]
  | wakeIn c q => [.proc q, c.lk]
  | check w | bed w => ownLock me ++ [w.lk]
  | exitIn _ => ownLock me ++ [.wait]
  | kwaitIn q | reap q | reaped q => [.proc q, .wait]
  | reapMem q => [.kmem, .proc q, .wait]
  | leave i | unlocking i _ => [.inner i]
  | putIn i | putSleep i | putGot i => [.inner i, .itable]

/-- Where a loop that slept goes on with its lock. -/
def Wait.again : Wait → Pos
  | kwait => .kwait 0
  | w => .crit (.sleeps w)

/-- What decides about locks. -/
structure Data where
  state : Slot → ProcState
  /-- `ip->lock.locked` and `ip->lock.pid` -/
  slock : Iptr → Option Slot
  /-- `ip->ref` -/
  iref : Iptr → ℕ
  refs : Iptr → Multiset (Slot ⊕ Fptr)
  /-- `f->ref` -/
  fref : Fptr → ℕ
  frefs : Fptr → Multiset Slot
  /-- `f->ip` -/
  fip : Fptr → Option Iptr

namespace Data

variable (d : Data)

def setState (p : Slot) (v : ProcState) : Data := { d with state := update d.state p v }

def setLock (i : Iptr) (o : Option Slot) : Data := { d with slock := update d.slock i o }

/-- `ip->ref++`, for `o`. -/
def incInode (i : Iptr) (o : Slot ⊕ Fptr) : Data :=
  { d with
    iref := update d.iref i (d.iref i + 1)
    refs := update d.refs i (o ::ₘ d.refs i) }

/-- `ip->ref--`, by `o`. -/
def decInode (i : Iptr) (o : Slot ⊕ Fptr) : Data :=
  { d with
    iref := update d.iref i (d.iref i - 1)
    refs := update d.refs i ((d.refs i).erase o) }

/-- A reference passes from `o` to `o'`. -/
def passInode (i : Iptr) (o o' : Slot ⊕ Fptr) : Data :=
  { d with refs := update d.refs i (o' ::ₘ (d.refs i).erase o) }

/-- `f->ref++`, for `p`. -/
def incFile (f : Fptr) (p : Slot) : Data :=
  { d with
    fref := update d.fref f (d.fref f + 1)
    frefs := update d.frefs f (p ::ₘ d.frefs f) }

/-- `--f->ref`, by `p`. -/
def decFile (f : Fptr) (p : Slot) : Data :=
  { d with
    fref := update d.fref f (d.fref f - 1)
    frefs := update d.frefs f ((d.frefs f).erase p) }

def setIp (f : Fptr) (o : Option Iptr) : Data := { d with fip := update d.fip f o }

/-- The process `p` has a reference to the inode, its own or that of an open file. -/
def HasRef (p : Slot) (i : Iptr) : Prop :=
  .inl p ∈ d.refs i ∨ ∃ f, p ∈ d.frefs f ∧ d.fip f = some i

/-- The process `p` holds no sleep lock that its reference to `f` stands for. -/
def Unlocked (p : Slot) (f : Fptr) : Prop := ∀ i, d.fip f = some i → d.slock i ≠ some p

end Data

/-- At `a` the code acquires a lock and goes on at `b`; `me` is `myproc()`. -/
inductive Acquires (d : Data) : Option Slot → Pos → Lock → Pos → Prop
  | killed {p : Slot} : Acquires d (some p) (.out .idle) (.proc p) .mine
  | yield {p : Slot} {x : Out} : Acquires d (some p) (.out x) (.proc p) (.yielding x)
  | kalloc {p : Slot} : Acquires d (some p) (.out .idle) .kmem (.leaf .kmem .idle)
  | uptime {p : Slot} : Acquires d (some p) (.out .idle) .ticks (.leaf .ticks .idle)
  | ftable {p : Slot} : Acquires d (some p) (.out .idle) .ftable (.ftab false)
  | itable {p : Slot} : Acquires d (some p) (.out .idle) .itable (.itab false)
  | scan {p : Slot} {f : Scan} {q : Slot} :
      Acquires d (some p) (.out (.scan f q)) (.proc q) (.seen f q)
  -- `allocproc` and `kfork`
  | allocpid {p np : Slot} : Acquires d (some p) (.alloc np .found) .pid (.allocPid np)
  | allocMem {p np : Slot} : Acquires d (some p) (.alloc np .used) .kmem (.allocMem np)
  | filedup {p np : Slot} : Acquires d (some p) (.alloc np .dup) .ftable (.allocFile np false)
  | idup {p np : Slot} : Acquires d (some p) (.alloc np .dup) .itable (.allocInode np false)
  | allocOwn {p np : Slot} : Acquires d (some p) (.alloc np .own) (.proc p) (.allocOwn np)
  | link {p np : Slot} : Acquires d (some p) (.out (.forkParent np)) .wait (.link np)
  | start {p np : Slot} : Acquires d (some p) (.out (.forkRun np)) (.proc np) (.start np false)
  -- interrupts
  | clock {me : Option Slot} {x : Out} : Acquires d me (.out x) .ticks (.wake (.clock x) 0)
  | device {me : Option Slot} {x : Out} {j : ℕ} :
      Acquires d me (.out x) (.other j) (.wake (.device j x) 0)
  | wakeup {me : Option Slot} {c : Sec} {q : Slot} (hq : me ≠ some q) :
      Acquires d me (.wake c q) (.proc q) (.wakeIn c q)
  -- `kexit` and `kwait`
  | exit {p : Slot} : Acquires d (some p) (.out .idle) .wait (.crit (.exit 0))
  | exitOwn {p : Slot} : Acquires d (some p) (.crit (.exit (NPROC + 1))) (.proc p) (.exitIn false)
  | kwait {p : Slot} : Acquires d (some p) (.out .idle) .wait (.kwait 0)
  | child {p q : Slot} : Acquires d (some p) (.kwait q) (.proc q) (.kwaitIn q)
  | reap {p q : Slot} : Acquires d (some p) (.reap q) .kmem (.reapMem q)
  | kwaitKilled {p : Slot} : Acquires d (some p) (.kwait NPROC) (.proc p) (.check .kwait)
  -- loops that sleep
  | pause {p : Slot} : Acquires d (some p) (.out .idle) .ticks (.crit (.sleeps .pause))
  | other {p : Slot} {j : ℕ} {r : Ret} :
      Acquires d (some p) (.out r.out) (.other j) (.crit (.sleeps (.other j r)))
  | pauseKilled {p : Slot} : Acquires d (some p) (.crit (.sleeps .pause)) (.proc p) (.check .pause)
  | otherKilled {p : Slot} {j : ℕ} {r : Ret} :
      Acquires d (some p) (.crit (.sleeps (.other j r))) (.proc p) (.check (.other j r))
  | sleep {p : Slot} {w : Wait} (hw : ∀ i, w = .lock i → d.slock i ≠ none) :
      Acquires d (some p) (.crit (.sleeps w)) (.proc p) (.bed w)
  | relock {p : Slot} {w : Wait} : Acquires d (some p) (.out (.relock w)) w.lk w.again
  -- sleep locks of inodes
  | acquiresleep {p : Slot} {i : Iptr} (hr : d.HasRef p i) :
      Acquires d (some p) (.out .idle) (.inner i) (.crit (.sleeps (.lock i)))
  | holdingsleep {p : Slot} {i : Iptr} (hr : d.HasRef p i) :
      Acquires d (some p) (.out .idle) (.inner i) (.leave i)
  | releasesleep {p : Slot} {i : Iptr} (hl : d.slock i = some p) :
      Acquires d (some p) (.out .idle) (.inner i) (.unlocking i false)
  -- `iput`; in `dirlink` the process may have locked the inode, by another reference
  | iput {p : Slot} {i : Iptr} (hr : .inl p ∈ d.refs i)
      (hl : d.slock i = some p → 1 < (d.refs i).count (.inl p)) :
      Acquires d (some p) (.out .idle) .itable (.put i)
  | putIn {p : Slot} {i : Iptr} : Acquires d (some p) (.putLast i) (.inner i) (.putIn i)
  | putUnlock {p : Slot} {i : Iptr} :
      Acquires d (some p) (.out (.trunc i)) (.inner i) (.unlocking i true)
  | putDec {p : Slot} {i : Iptr} : Acquires d (some p) (.out (.putRef i)) .itable (.putDec i)
  -- `scheduler`
  | now {k : ℕ} : Acquires d none (.out (.sched k)) .ticks (.leaf .ticks (.sched k))
  | pick {q : Slot} : Acquires d none (.out (.sched q)) (.proc q) (.pick q)

/-- At `a` the code releases a lock and goes on at `b`. -/
inductive Releases : Option Slot → Pos → Lock → Pos → Prop
  | killed {p : Slot} : Releases (some p) .mine (.proc p) (.out .idle)
  | leaf {me : Option Slot} {l : Leaf} {x : Out} : Releases me (.leaf l x) l.lk (.out x)
  | ftab {p : Slot} {b : Bool} : Releases (some p) (.ftab b) .ftable (.out .idle)
  | itab {p : Slot} : Releases (some p) (.itab true) .itable (.out .idle)
  | scanEnd {p : Slot} {f : Scan} {q : Slot} (hf : f ≠ .allocproc) :
      Releases (some p) (.seen f q) (.proc q) (.out .idle)
  | scanNext {p : Slot} {f : Scan} {q : Slot} :
      Releases (some p) (.seen f q) (.proc q) (.out (.scan f (q + 1)))
  | allocPid {p np : Slot} : Releases (some p) (.allocPid np) .pid (.alloc np .numbered)
  | allocMem {p np : Slot} : Releases (some p) (.allocMem np) .kmem (.alloc np .used)
  | allocFile {p np : Slot} : Releases (some p) (.allocFile np true) .ftable (.alloc np .dup)
  | allocInode {p np : Slot} : Releases (some p) (.allocInode np true) .itable (.alloc np .own)
  | allocOwn {p np : Slot} : Releases (some p) (.allocOwn np) (.proc p) (.alloc np .ready)
  | allocFail {p np : Slot} : Releases (some p) (.alloc np .failed) (.proc np) (.out .idle)
  | allocDone {p np : Slot} :
      Releases (some p) (.alloc np .ready) (.proc np) (.out (.forkParent np))
  | link {p np : Slot} : Releases (some p) (.link np) .wait (.out (.forkRun np))
  | start {p np : Slot} : Releases (some p) (.start np true) (.proc np) (.out .idle)
  | sec {me : Option Slot} {c : Sec} {x : Out} (hx : c.next = some x) :
      Releases me (.crit c) c.lk (.out x)
  | wakeup {me : Option Slot} {c : Sec} {q : Slot} :
      Releases me (.wakeIn c q) (.proc q) (.wake c (q + 1))
  | check {p : Slot} {w : Wait} : Releases (some p) (.check w) (.proc p) (.crit (.sleeps w))
  | bed {p : Slot} {w : Wait} : Releases (some p) (.bed w) w.lk (.drowsy w)
  | exit {p : Slot} : Releases (some p) (.exitIn true) .wait (.own .exit)
  | child {p q : Slot} : Releases (some p) (.kwaitIn q) (.proc q) (.kwait (q + 1))
  | copyout {p q : Slot} : Releases (some p) (.reap q) (.proc q) .kleave
  | reapMem {p q : Slot} : Releases (some p) (.reapMem q) .kmem (.reap q)
  | reaped {p q : Slot} : Releases (some p) (.reaped q) (.proc q) .kleave
  | kleave {p : Slot} : Releases (some p) .kleave .wait (.out .idle)
  | resumed {p : Slot} {y : Why} {x : Out} (hx : y.next = some x) :
      Releases (some p) (.resumed y) (.proc p) (.out x)
  | leave {p : Slot} {i : Iptr} : Releases (some p) (.leave i) (.inner i) (.out .idle)
  | putGot {p : Slot} {i : Iptr} : Releases (some p) (.putGot i) (.inner i) (.putHold i)
  | putHold {p : Slot} {i : Iptr} : Releases (some p) (.putHold i) .itable (.out (.trunc i))
  | pick {q : Slot} : Releases none (.pick q) (.proc q) (.out (.sched (q + 1)))
  | ran {q : Slot} : Releases none (.ran q) (.proc q) (.out (.sched (q + 1)))

/-- At `a` the code changes the data, or only goes on, without a lock. -/
inductive Acts (d : Data) : Option Slot → Pos → Data → Pos → Prop
  -- loops over the process table
  | scan {p : Slot} {f : Scan} : Acts d (some p) (.out .idle) d (.out (.scan f 0))
  | scanned {p : Slot} {f : Scan} : Acts d (some p) (.out (.scan f NPROC)) d (.out .idle)
  | kkill {p q : Slot} (hq : d.state q = .sleeping) :
      Acts d (some p) (.seen .kkill q) (d.setState q .runnable) (.seen .kkill q)
  | found {p q : Slot} (hq : d.state q = .unused) :
      Acts d (some p) (.seen .allocproc q) d (.alloc q .found)
  -- `allocproc` and `kfork`
  | used {p np : Slot} :
      Acts d (some p) (.alloc np .numbered) (d.setState np .used) (.alloc np .used)
  | freeNew {p np : Slot} :
      Acts d (some p) (.alloc np .used) (d.setState np .unused) (.alloc np .failed)
  | copied {p np : Slot} : Acts d (some p) (.alloc np .used) d (.alloc np .dup)
  | allocFile {p np : Slot} {f : Fptr} (hf : p ∈ d.frefs f) :
      Acts d (some p) (.allocFile np false) (d.incFile f np) (.allocFile np true)
  | allocInode {p np : Slot} {i : Iptr} (hi : .inl p ∈ d.refs i) :
      Acts d (some p) (.allocInode np false) (d.incInode i (.inl np)) (.allocInode np true)
  | start {p np : Slot} :
      Acts d (some p) (.start np false) (d.setState np .runnable) (.start np true)
  -- `wakeup`
  | wakeSelf {q : Slot} {c : Sec} : Acts d (some q) (.wake c q) d (.wake c (q + 1))
  | woken {me : Option Slot} {c : Sec} : Acts d me (.wake c NPROC) d (.crit c)
  | wakeup {me : Option Slot} {c : Sec} {q : Slot} (hq : d.state q = .sleeping) :
      Acts d me (.wakeIn c q) (d.setState q .runnable) (.wakeIn c q)
  | otherWakeup {p : Slot} {j : ℕ} {r : Ret} :
      Acts d (some p) (.crit (.sleeps (.other j r))) d (.wake (.sleeps (.other j r)) 0)
  -- `kexit`: the slots of `reparent`, and then `wakeup(p->parent)`
  | reparentSkip {p q : Slot} : Acts d (some p) (.crit (.exit q)) d (.crit (.exit (q + 1)))
  | reparent {p : Slot} {k : ℕ} (hk : k ≤ NPROC) :
      Acts d (some p) (.crit (.exit k)) d (.wake (.exit (k + 1)) 0)
  | zombie {p : Slot} :
      Acts d (some p) (.exitIn false) (d.setState p .zombie) (.exitIn true)
  -- `kwait`
  | notChild {p q : Slot} : Acts d (some p) (.kwait q) d (.kwait (q + 1))
  | noKids {p : Slot} : Acts d (some p) (.kwait NPROC) d .kleave
  | kwaitKilled {p : Slot} : Acts d (some p) (.crit (.sleeps .kwait)) d .kleave
  | reap {p q : Slot} (hq : d.state q = .zombie) : Acts d (some p) (.kwaitIn q) d (.reap q)
  | freeproc {p q : Slot} : Acts d (some p) (.reap q) (d.setState q .unused) (.reaped q)
  -- `sleep` and `yield`
  | fall {p : Slot} {w : Wait} :
      Acts d (some p) (.drowsy w) (d.setState p .sleeping) (.own (.sleep w))
  | yield {p : Slot} {x : Out} :
      Acts d (some p) (.yielding x) (d.setState p .runnable) (.own (.yield x))
  -- sleep locks
  | locked {p : Slot} {i : Iptr} (hl : d.slock i = none) :
      Acts d (some p) (.crit (.sleeps (.lock i))) (d.setLock i (some p)) (.leave i)
  | unlock {p : Slot} {i : Iptr} {put : Bool} :
      Acts d (some p) (.unlocking i put) (d.setLock i none) (.wake (.unlock i put) 0)
  -- files
  | filealloc {p : Slot} {f : Fptr} (hf : d.fref f = 0) :
      Acts d (some p) (.ftab false) (d.incFile f p) (.ftab true)
  | filedup {p : Slot} {f : Fptr} (hf : p ∈ d.frefs f) :
      Acts d (some p) (.ftab false) (d.incFile f p) (.ftab true)
  | fileclose {p : Slot} {f : Fptr} (hf : p ∈ d.frefs f) (hl : d.Unlocked p f) (hr : 1 < d.fref f) :
      Acts d (some p) (.ftab false) (d.decFile f p) (.ftab true)
  /-- the last `fileclose` of a file without an inode -/
  | fileclosePlain {p : Slot} {f : Fptr} (hf : p ∈ d.frefs f) (hr : d.fref f = 1)
      (hi : d.fip f = none) : Acts d (some p) (.ftab false) (d.decFile f p) (.ftab true)
  /-- the last `fileclose` takes the reference of the file to the inode, to `iput` it -/
  | filecloseInode {p : Slot} {f : Fptr} {i : Iptr} (hf : p ∈ d.frefs f) (hl : d.Unlocked p f)
      (hr : d.fref f = 1) (hi : d.fip f = some i) :
      Acts d (some p) (.ftab false) (((d.decFile f p).setIp f none).passInode i (.inr f) (.inl p))
        (.ftab true)
  /-- `f->ip = ip` in `sys_open` -/
  | install {p : Slot} {f : Fptr} {i : Iptr} (hi : .inl p ∈ d.refs i) (hf : p ∈ d.frefs f)
      (hn : d.fip f = none) :
      Acts d (some p) (.out .idle) ((d.setIp f (some i)).passInode i (.inl p) (.inr f)) (.out .idle)
  -- inodes
  | iget {p : Slot} {i : Iptr} :
      Acts d (some p) (.itab false) (d.incInode i (.inl p)) (.itab true)
  | last {p : Slot} {i : Iptr} (hi : d.iref i = 1) : Acts d (some p) (.put i) d (.putLast i)
  | notLast {p : Slot} {i : Iptr} : Acts d (some p) (.put i) d (.putDec i)
  | putSleep {p : Slot} {i : Iptr} (hl : d.slock i ≠ none) :
      Acts d (some p) (.putIn i) d (.putSleep i)
  | putGot {p : Slot} {i : Iptr} (hl : d.slock i = none) :
      Acts d (some p) (.putIn i) (d.setLock i (some p)) (.putGot i)
  | putDec {p : Slot} {i : Iptr} :
      Acts d (some p) (.putDec i) (d.decInode i (.inl p)) (.itab true)
  -- `scheduler`
  | rest : Acts d none (.out (.sched NPROC)) d (.out (.sched 0))

/-- The harts, the threads of the processes, the schedulers of the harts, and who holds each lock. -/
structure Sys (H : Type) where
  data : Data
  held : Lock → Option H
  cur : H → Option Slot
  thread : Slot → Ctl Pos Lock
  sched : H → Ctl Pos Lock

namespace Sys

variable {H : Type} [DecidableEq H]

/-- The process `p` is ready to run with the directory `root`; all harts are in `scheduler`. -/
def init (p : Slot) (root : Iptr) : Sys H where
  data :=
    { state := update (fun _ => .unused) p .runnable
      slock := fun _ => none
      iref := update (fun _ => 0) root 1
      refs := update (fun _ => 0) root {.inl p}
      fref := fun _ => 0
      frefs := fun _ => 0
      fip := fun _ => none }
  held := fun _ => none
  cur := fun _ => none
  thread := fun _ => .on (.parked .first)
  sched := fun _ => .on (.out (.sched 0))

variable (s : Sys H)

/-- What a hart does: the thread of its process, or its scheduler. -/
def ctl (h : H) : Ctl Pos Lock :=
  match s.cur h with
  | some p => s.thread p
  | none => s.sched h

/-- The locks that a hart holds by its position. -/
def holds (h : H) : List Lock := (s.ctl h).pos.holds (s.cur h)

/-- The hart `h` is now at `c`. -/
def goto (h : H) (c : Ctl Pos Lock) : Sys H :=
  match s.cur h with
  | some p => { s with thread := update s.thread p c }
  | none => { s with sched := update s.sched h c }

def setHeld (l : Lock) (o : Option H) : Sys H := { s with held := update s.held l o }

def setData (d : Data) : Sys H := { s with data := d }

/-- `h` spins on a lock that `h'` holds. -/
def Waits (h h' : H) : Prop := Spin.Waits s.held s.ctl h h'

inductive Step : Sys H → Sys H → Prop
  | spin {s : Sys H} {h : H} {a b : Pos} {l : Lock} (ha : s.ctl h = .on a)
      (st : Acquires s.data (s.cur h) a l b) : Step s (s.goto h (.spin a l b))
  | acquire {s : Sys H} {h : H} {a b : Pos} {l : Lock} (ha : s.ctl h = .spin a l b)
      (hl : s.held l = none) : Step s ((s.goto h (.on b)).setHeld l (some h))
  | release {s : Sys H} {h : H} {a b : Pos} {l : Lock} (ha : s.ctl h = .on a)
      (st : Releases (s.cur h) a l b) : Step s ((s.goto h (.on b)).setHeld l none)
  | act {s : Sys H} {h : H} {a b : Pos} {d : Data} (ha : s.ctl h = .on a)
      (st : Acts s.data (s.cur h) a d b) : Step s ((s.goto h (.on b)).setData d)
  /-- `swtch` to the process `q` -/
  | run {s : Sys H} {h : H} {q : Slot} {y : Why} (hc : s.cur h = none)
      (ha : s.sched h = .on (.pick q)) (hq : s.data.state q = .runnable)
      (hy : s.thread q = .on (.parked y)) :
      Step s { s with
        data := s.data.setState q .running
        cur := update s.cur h (some q)
        thread := update s.thread q (.on (.resumed y))
        sched := update s.sched h (.on .away) }
  /-- `swtch` to the scheduler -/
  | swtch {s : Sys H} {h : H} {p : Slot} {y : Why} (hc : s.cur h = some p)
      (ha : s.thread p = .on (.own y)) :
      Step s { s with
        cur := update s.cur h none
        thread := update s.thread p (.on (.parked y.park))
        sched := update s.sched h (.on (.ran p)) }

abbrev Runs (s s' : Sys H) : Prop := Relation.ReflTransGen Step s s'

end Sys

end Xv6.Locks
