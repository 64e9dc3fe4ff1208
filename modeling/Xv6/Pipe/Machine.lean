import Xv6.Lib.Monitor
import Xv6.Lib.Trans
import Xv6.Proc.Table

/-!
# Pipes

The functions `pipewrite`, `piperead` and `pipeclose` of `pipe.c` on one pipe, run by any processes in
any interleaving. `pi->lock` is explicit. A step is one pass of a loop under it, one section of
`wakeup` under the lock of the process visited, or a part of `sleep`. The counters are the 32-bit
counters of the source.

A process in `sleep` holds its own lock from the moment it gives up `pi->lock` until it is SLEEPING;
it is then `drowsy`, and sections on it wait. `kkill` may find any process at any time. A slot that is
in none of the functions may pass to another process.
-/

namespace Xv6

open Monitor Function

abbrev PIPESIZE : ℕ := 512

/-- `struct pipe`, without its lock. -/
structure Pipe where
  data : Fin PIPESIZE → UInt8
  nread : UInt32
  nwrite : UInt32
  readopen : Bool
  writeopen : Bool

/-- The place of a byte in `data`. -/
def Pipe.index (k : UInt32) : Fin PIPESIZE := ⟨k.toNat % PIPESIZE, Nat.mod_lt _ (by decide)⟩

/-- `pi->nwrite == pi->nread + PIPESIZE` -/
def Pipe.full (x : Pipe) : Bool := x.nwrite == x.nread + 512

/-- `pi->nread == pi->nwrite` -/
def Pipe.empty (x : Pipe) : Bool := x.nread == x.nwrite

/-- `pi->data[pi->nwrite++ % PIPESIZE] = ch` -/
def Pipe.push (x : Pipe) (ch : UInt8) : Pipe :=
  { x with data := update x.data (Pipe.index x.nwrite) ch, nwrite := x.nwrite + 1 }

/-- `pi->data[pi->nread % PIPESIZE]` -/
def Pipe.front (x : Pipe) : UInt8 := x.data (Pipe.index x.nread)

/-- `pi->nread++` -/
def Pipe.pop (x : Pipe) : Pipe := { x with nread := x.nread + 1 }

/-- `pipeclose` of one end. -/
def Pipe.close (x : Pipe) (writable : Bool) : Pipe :=
  if writable then { x with writeopen := false } else { x with readopen := false }

/-- The channels `&pi->nread`, on which readers sleep, and `&pi->nwrite`, on which writers sleep. -/
inductive PipeChan
  | nread
  | nwrite
  deriving DecidableEq

/-- The arguments of a write: the byte at `addr + i`, if `copyin` can read it, and `n`. -/
structure WriteArgs where
  src : ℕ → Option UInt8
  n : ℤ

/-- The arguments of a read: can `copyout` store at `addr + i`?, and `n`. -/
structure ReadArgs where
  dst : ℕ → Bool
  n : ℤ

/-- Where a process is. `Enter` is before an acquisition of `pi->lock`, at the start of a function or
in `sleep`; `Wake` is inside `wakeup`, before the slot `k`. The flag `stored` is not in the source: it
tells whether the process has stored a byte since it last took the lock. -/
inductive PipePc
  | idle
  | writeEnter (a : WriteArgs) (i : ℕ)
  | writeLoop (a : WriteArgs) (i : ℕ) (stored : Bool)
  | writeFull (a : WriteArgs) (i : ℕ) (k : ℕ)
  | writeWake (i : ℕ) (k : ℕ)
  | readEnter (a : ReadArgs)
  | readLoop (a : ReadArgs)
  | readCopy (a : ReadArgs) (i : ℕ)
  | readWake (r : ℤ) (k : ℕ)
  | closeEnter (writable : Bool)
  | closeWake (writable : Bool) (k : ℕ)

/-- What steps record. -/
inductive PipeEvent
  /-- A byte was taken from a writer. -/
  | accept (ch : UInt8)
  /-- A byte was copied to a reader. -/
  | deliver (ch : UInt8)
  /-- The byte in front could not be copied to a reader. -/
  | fault (ch : UInt8)
  /-- `pipewrite` or `piperead` returned. -/
  | ret (p : Slot) (r : ℤ)
  /-- The pipe was freed. -/
  | free

/-- A pipe and the processes that share it. -/
structure PipeSys where
  pipe : Pipe
  freed : Bool
  lock : Option Slot
  mode : Slot → Mode PipeChan
  killed : Slot → Bool
  pc : Slot → PipePc

namespace PipeSys

variable (s : PipeSys)

def setPc (p : Slot) (k : PipePc) : PipeSys := { s with pc := update s.pc p k }
def setMode (p : Slot) (m : Mode PipeChan) : PipeSys :=
  { s with mode := update s.mode p m }
def setKilled (p : Slot) (b : Bool) : PipeSys := { s with killed := update s.killed p b }
def setLock (o : Option Slot) : PipeSys := { s with lock := o }
def setPipe (x : Pipe) : PipeSys := { s with pipe := x }

/-- `p` can take `pi->lock`. -/
def Acquires (p : Slot) : Prop := s.lock = none ∧ s.mode p = .awake ∧ s.freed = false

/-- The section of `wakeup(c)` on `q`. -/
def rouse (q : Slot) (c : PipeChan) : PipeSys := s.setMode q ((s.mode q).rouse c)

end PipeSys

/-- The function that runs `wakeup` at a place, the channel it wakes, the slot it visits next, and the
place at the next slot. -/
def PipePc.waking : PipePc → Option (PipeChan × ℕ × PipePc)
  | writeFull a i k => some (.nread, k, writeFull a i (k + 1))
  | writeWake i k => some (.nread, k, writeWake i (k + 1))
  | readWake r k => some (.nwrite, k, readWake r (k + 1))
  | closeWake w k => some (if w then .nread else .nwrite, k, closeWake w (k + 1))
  | _ => none

/-- One step of the processes that share a pipe. -/
inductive PipeStep (s : PipeSys) : List PipeEvent → PipeSys → Prop
  -- calls
  | callWrite {p : Slot} {a : WriteArgs} : s.pc p = .idle → s.mode p = .awake →
      PipeStep s [] (s.setPc p (.writeEnter a 0))
  | callRead {p : Slot} {a : ReadArgs} : s.pc p = .idle → s.mode p = .awake →
      PipeStep s [] (s.setPc p (.readEnter a))
  | callClose {p : Slot} {w : Bool} : s.pc p = .idle → s.mode p = .awake →
      PipeStep s [] (s.setPc p (.closeEnter w))
  | reuse {p : Slot} : s.pc p = .idle → PipeStep s [] (s.setKilled p false)
  -- `kkill` has found `q`
  | kkill {q : Slot} : ¬ (s.mode q).Drowsy →
      PipeStep s [] ((s.setKilled q true).setMode q (s.mode q).jolt)
  -- the rest of `sleep`
  | sleep {p : Slot} {c : PipeChan} : s.mode p = .drowsy c →
      PipeStep s [] (s.setMode p (.asleep c))
  -- `wakeup`
  | wakeSelf {p : Slot} {c : PipeChan} {k : PipePc} : s.lock = some p →
      (s.pc p).waking = some (c, p.val, k) → PipeStep s [] (s.setPc p k)
  | wake {p q : Slot} {c : PipeChan} {k : PipePc} : s.lock = some p →
      (s.pc p).waking = some (c, q.val, k) → q ≠ p → ¬ (s.mode q).Drowsy →
      PipeStep s [] ((s.rouse q c).setPc p k)
  -- `pipewrite`
  | writeEnter {p : Slot} {a : WriteArgs} {i : ℕ} : s.pc p = .writeEnter a i → s.Acquires p →
      PipeStep s [] ((s.setLock (some p)).setPc p (.writeLoop a i false))
  | writeGone {p : Slot} {a : WriteArgs} {i : ℕ} {b : Bool} : s.lock = some p →
      s.pc p = .writeLoop a i b → (i : ℤ) < a.n → s.pipe.readopen = false →
      PipeStep s [.ret p (-1)] ((s.setLock none).setPc p .idle)
  | writeKilled {p : Slot} {a : WriteArgs} {i : ℕ} {b : Bool} : s.lock = some p →
      s.pc p = .writeLoop a i b → (i : ℤ) < a.n → s.killed p = true →
      PipeStep s [.ret p (-1)] ((s.setLock none).setPc p .idle)
  | writeFull {p : Slot} {a : WriteArgs} {i : ℕ} {b : Bool} : s.lock = some p →
      s.pc p = .writeLoop a i b → (i : ℤ) < a.n → s.pipe.readopen = true → s.killed p = false →
      s.pipe.full = true → PipeStep s [] (s.setPc p (.writeFull a i 0))
  | writeSleep {p : Slot} {a : WriteArgs} {i : ℕ} : s.lock = some p →
      s.pc p = .writeFull a i NPROC →
      PipeStep s [] (((s.setLock none).setMode p (.drowsy .nwrite)).setPc p (.writeEnter a i))
  | writeByte {p : Slot} {a : WriteArgs} {i : ℕ} {b : Bool} {ch : UInt8} : s.lock = some p →
      s.pc p = .writeLoop a i b → (i : ℤ) < a.n → s.pipe.readopen = true → s.killed p = false →
      s.pipe.full = false → a.src i = some ch →
      PipeStep s [.accept ch] ((s.setPipe (s.pipe.push ch)).setPc p (.writeLoop a (i + 1) true))
  | writeFault {p : Slot} {a : WriteArgs} {i : ℕ} {b : Bool} : s.lock = some p →
      s.pc p = .writeLoop a i b → (i : ℤ) < a.n → s.pipe.readopen = true → s.killed p = false →
      s.pipe.full = false → a.src i = none → PipeStep s [] (s.setPc p (.writeWake i 0))
  | writeDone {p : Slot} {a : WriteArgs} {i : ℕ} {b : Bool} : s.lock = some p →
      s.pc p = .writeLoop a i b → a.n ≤ i → PipeStep s [] (s.setPc p (.writeWake i 0))
  | writeReturn {p : Slot} {i : ℕ} : s.lock = some p → s.pc p = .writeWake i NPROC →
      PipeStep s [.ret p i] ((s.setLock none).setPc p .idle)
  -- `piperead`
  | readEnter {p : Slot} {a : ReadArgs} : s.pc p = .readEnter a → s.Acquires p →
      PipeStep s [] ((s.setLock (some p)).setPc p (.readLoop a))
  | readKilled {p : Slot} {a : ReadArgs} : s.lock = some p → s.pc p = .readLoop a →
      s.pipe.empty = true → s.pipe.writeopen = true → s.killed p = true →
      PipeStep s [.ret p (-1)] ((s.setLock none).setPc p .idle)
  | readSleep {p : Slot} {a : ReadArgs} : s.lock = some p → s.pc p = .readLoop a →
      s.pipe.empty = true → s.pipe.writeopen = true → s.killed p = false →
      PipeStep s [] (((s.setLock none).setMode p (.drowsy .nread)).setPc p (.readEnter a))
  | readReady {p : Slot} {a : ReadArgs} : s.lock = some p → s.pc p = .readLoop a →
      (s.pipe.empty = false ∨ s.pipe.writeopen = false) → PipeStep s [] (s.setPc p (.readCopy a 0))
  | readByte {p : Slot} {a : ReadArgs} {i : ℕ} : s.lock = some p → s.pc p = .readCopy a i →
      (i : ℤ) < a.n → s.pipe.empty = false → a.dst i = true →
      PipeStep s [.deliver s.pipe.front]
        ((s.setPipe s.pipe.pop).setPc p (.readCopy a (i + 1)))
  | readFault {p : Slot} {a : ReadArgs} {i : ℕ} : s.lock = some p → s.pc p = .readCopy a i →
      (i : ℤ) < a.n → s.pipe.empty = false → a.dst i = false →
      PipeStep s [.fault s.pipe.front] (s.setPc p (.readWake (if i = 0 then -1 else i) 0))
  | readDone {p : Slot} {a : ReadArgs} {i : ℕ} : s.lock = some p → s.pc p = .readCopy a i →
      (a.n ≤ i ∨ s.pipe.empty = true) → PipeStep s [] (s.setPc p (.readWake i 0))
  | readReturn {p : Slot} {r : ℤ} : s.lock = some p → s.pc p = .readWake r NPROC →
      PipeStep s [.ret p r] ((s.setLock none).setPc p .idle)
  -- `pipeclose`
  | closeEnter {p : Slot} {w : Bool} : s.pc p = .closeEnter w → s.Acquires p →
      PipeStep s [] (((s.setLock (some p)).setPipe (s.pipe.close w)).setPc p (.closeWake w 0))
  | closeOne {p : Slot} {w : Bool} : s.lock = some p → s.pc p = .closeWake w NPROC →
      (s.pipe.readopen = true ∨ s.pipe.writeopen = true) →
      PipeStep s [] ((s.setLock none).setPc p .idle)
  | closeBoth {p : Slot} {w : Bool} : s.lock = some p → s.pc p = .closeWake w NPROC →
      s.pipe.readopen = false → s.pipe.writeopen = false →
      PipeStep s [.free] { (s.setLock none).setPc p .idle with freed := true }

/-- A pipe as `pipealloc` leaves it: the page still holds what it held before, and processes may have
been killed. -/
def PipeSys.init (data : Fin PIPESIZE → UInt8) (killed : Slot → Bool) : PipeSys where
  pipe := ⟨data, 0, 0, true, true⟩
  freed := false
  lock := none
  mode := fun _ => .awake
  killed := killed
  pc := fun _ => .idle

end Xv6
