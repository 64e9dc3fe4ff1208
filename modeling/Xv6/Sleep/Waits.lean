import Xv6.Console.Machine
import Xv6.Pipe.Machine

/-!
# The interruptible waits

The loops of `kwait`, `sys_pause`, `piperead`, `pipewrite` and `consoleread`, which test `killed()`
before they sleep, together with `kkill`, the scheduler and the rest of the process table. A section
under `p->lock` in which no other lock is taken or released is one step, and needs the lock free. In
`sleep` the lock of the process is held from before the release of the condition lock until the
scheduler releases it.

What the loops test is kept as data: the ticks, the pipes, the console and the children. Other parties
may change what a condition lock protects whenever the lock is free, and may wake any sleeper.
-/

namespace Xv6

open Function (update)

/-- The condition locks. -/
inductive CondLock
  | wait
  | ticks
  | pipe (i : ℕ)
  | cons
  deriving DecidableEq

/-- The data that the loops test. -/
structure World where
  parent : Slot → Option Slot
  ticks : UInt32
  pipe : ℕ → Pipe
  cons : Cons

/-- `w` and `w'` differ only in what the lock protects. -/
structure World.Differs (k : CondLock) (w w' : World) : Prop where
  parent : k ≠ .wait → w'.parent = w.parent
  ticks : k ≠ .ticks → w'.ticks = w.ticks
  pipe : ∀ i, k ≠ .pipe i → w'.pipe i = w.pipe i
  cons : k ≠ .cons → w'.cons = w.cons

/-- A call of one of the functions, with the variables that its loop uses: `n` and `ticks0`, once it is
set; the pipe; the pipe and the number of bytes still to be written; `n`. -/
inductive WaitLoop
  | kwait
  | pause (n : UInt32) (ticks0 : Option UInt32)
  | piperead (i : ℕ)
  | pipewrite (i left : ℕ)
  | consoleread (n : ℤ)
  deriving DecidableEq

namespace WaitLoop

def lock : WaitLoop → CondLock
  | kwait => .wait
  | pause _ _ => .ticks
  | piperead i => .pipe i
  | pipewrite i _ => .pipe i
  | consoleread _ => .cons

/-- The loop of a call that has just been made. -/
def isCall : WaitLoop → Bool
  | pause _ (some _) => false
  | _ => true

/-- `ticks0 = ticks`, after the first acquisition and not after those in `sleep`. -/
def start (w : World) : WaitLoop → WaitLoop
  | pause n none => .pause n (some w.ticks)
  | l => l

/-- The loop of `p` goes on to its test of `killed()`. -/
def waits (w : World) (p : Slot) : WaitLoop → Bool
  | kwait => decide (∃ q, w.parent q = some p)
  | pause n ticks0 => decide (w.ticks - ticks0.getD w.ticks < n)
  | piperead i => (w.pipe i).empty && (w.pipe i).writeopen
  | pipewrite i left => decide (0 < left) && (w.pipe i).readopen
  | consoleread n => decide (0 < n) && w.cons.r == w.cons.w

/-- The loop sleeps if the process is not killed; `pipewrite` only if the pipe is full. -/
def sleeps (w : World) : WaitLoop → Bool
  | pipewrite i _ => (w.pipe i).full
  | _ => true

end WaitLoop

/-- Where a process is. -/
inductive WaitPc
  | out
  /-- before an acquisition of the condition lock, at the start or in `sleep` -/
  | enter (l : WaitLoop)
  /-- before the test of the loop, with the condition lock -/
  | head (l : WaitLoop)
  /-- `killed()` has returned 0; with the condition lock -/
  | passed (l : WaitLoop)
  /-- in `sleep`, with both locks -/
  | drowsy (l : WaitLoop)
  /-- in `sleep`, with `p->lock` -/
  | fall (l : WaitLoop)
  /-- in `sched`, with `p->lock`; the loop to which the process goes back, if any -/
  | sched (l : Option WaitLoop)
  /-- switched out -/
  | off (l : Option WaitLoop)
  /-- back from `sched`, with `p->lock` -/
  | on (l : Option WaitLoop)

/-- Where a process goes on after `sched`. -/
def WaitPc.back : Option WaitLoop → WaitPc
  | none => .out
  | some l => .enter l

/-- What is kept of a `struct proc`. -/
structure Waiter where
  locked : Bool
  state : ProcState
  killed : Bool
  pc : WaitPc

structure WaitSys where
  world : World
  lock : CondLock → Option Slot
  proc : Slot → Waiter

/-- A call of `kkill` finds its process; `late` tells whether the process is in a loop between a test of
`killed()` that returned 0 and `acquire(&p->lock)` in the `sleep` that follows. -/
structure KillEvent where
  late : Bool
  deriving DecidableEq

def WaitPc.late (w : World) : WaitPc → Bool
  | .passed l => l.sleeps w
  | _ => false

namespace Waiter

variable (x : Waiter)

/-- The section of `wakeup` on a sleeper. -/
def wake : Waiter := if x.state = .sleeping then { x with state := .runnable } else x

/-- The section of `kkill`. -/
def kill : Waiter := { x.wake with killed := true }

end Waiter

namespace WaitSys

/-- No process exists. -/
def init : WaitSys where
  world := ⟨fun _ => none, 0, fun _ => ⟨fun _ => 0, 0, 0, false, false⟩, ⟨fun _ => 0, 0, 0, 0⟩⟩
  lock _ := none
  proc _ := ⟨false, .unused, false, .off none⟩

variable (s : WaitSys)

/-- The slot `p` is now `x`. -/
def set (p : Slot) (x : Waiter) : WaitSys := { s with proc := update s.proc p x }

/-- The condition lock `k` is now held by `o`. -/
def hold (k : CondLock) (o : Option Slot) : WaitSys := { s with lock := update s.lock k o }

end WaitSys

/-- One step, with the calls of `kkill` seen. -/
inductive WaitStep : WaitSys → List KillEvent → WaitSys → Prop
  | call {s : WaitSys} {p : Slot} (l : WaitLoop) :
      (s.proc p).pc = .out → l.isCall = true →
        WaitStep s [] (s.set p { s.proc p with pc := .enter l })
  | acquire {s : WaitSys} {p : Slot} {l : WaitLoop} :
      (s.proc p).pc = .enter l → s.lock l.lock = none →
        WaitStep s [] ((s.set p { s.proc p with pc := .head (l.start s.world) }).hold l.lock (some p))
  -- the loop ends, for `kwait` also when the scan has found a child that has exited
  | leave {s : WaitSys} {p : Slot} {l : WaitLoop} :
      (s.proc p).pc = .head l → l.waits s.world p = false ∨ l = .kwait →
        WaitStep s [] ((s.set p { s.proc p with pc := .out }).hold l.lock none)
  -- `consoleread` takes a byte and goes on
  | take {s : WaitSys} {p : Slot} {n : ℤ} :
      (s.proc p).pc = .head (.consoleread n) → 0 < n → s.world.cons.r ≠ s.world.cons.w →
        WaitStep s [] { s.set p { s.proc p with pc := .head (.consoleread (n - 1)) } with
          world := { s.world with cons := s.world.cons.take } }
  -- `killed()`
  | killed {s : WaitSys} {p : Slot} {l : WaitLoop} :
      (s.proc p).pc = .head l → l.waits s.world p = true → (s.proc p).locked = false →
        (s.proc p).killed = true →
        WaitStep s [] ((s.set p { s.proc p with pc := .out }).hold l.lock none)
  | alive {s : WaitSys} {p : Slot} {l : WaitLoop} :
      (s.proc p).pc = .head l → l.waits s.world p = true → (s.proc p).locked = false →
        (s.proc p).killed = false → WaitStep s [] (s.set p { s.proc p with pc := .passed l })
  -- `pipewrite` stores a byte and goes on, or gives up when `copyin` fails
  | store {s : WaitSys} {p : Slot} {i left : ℕ} (ch : UInt8) :
      (s.proc p).pc = .passed (.pipewrite i (left + 1)) → (s.world.pipe i).full = false →
        WaitStep s [] { s.set p { s.proc p with pc := .head (.pipewrite i left) } with
          world := { s.world with
            pipe := update s.world.pipe i ((s.world.pipe i).push ch) } }
  | giveUp {s : WaitSys} {p : Slot} {i left : ℕ} :
      (s.proc p).pc = .passed (.pipewrite i left) → (s.world.pipe i).full = false →
        WaitStep s [] ((s.set p { s.proc p with pc := .out }).hold (.pipe i) none)
  -- `sleep`
  | lockSelf {s : WaitSys} {p : Slot} {l : WaitLoop} :
      (s.proc p).pc = .passed l → l.sleeps s.world = true → (s.proc p).locked = false →
        WaitStep s [] (s.set p { s.proc p with pc := .drowsy l, locked := true })
  | release {s : WaitSys} {p : Slot} {l : WaitLoop} :
      (s.proc p).pc = .drowsy l →
        WaitStep s [] ((s.set p { s.proc p with pc := .fall l }).hold l.lock none)
  | fallAsleep {s : WaitSys} {p : Slot} {l : WaitLoop} :
      (s.proc p).pc = .fall l →
        WaitStep s [] (s.set p { s.proc p with pc := .sched (some l), state := .sleeping })
  -- the scheduler
  | swtch {s : WaitSys} {p : Slot} {o : Option WaitLoop} :
      (s.proc p).pc = .sched o → WaitStep s [] (s.set p { s.proc p with pc := .off o, locked := false })
  | run {s : WaitSys} {p : Slot} {o : Option WaitLoop} :
      (s.proc p).pc = .off o → (s.proc p).locked = false → (s.proc p).state = .runnable →
        WaitStep s [] (s.set p { s.proc p with pc := .on o, locked := true, state := .running })
  | resume {s : WaitSys} {p : Slot} {o : Option WaitLoop} :
      (s.proc p).pc = .on o →
        WaitStep s [] (s.set p { s.proc p with pc := .back o, locked := false })
  -- `yield`, a sleep outside the loops, and `kexit`
  | yield {s : WaitSys} {p : Slot} {o : Option WaitLoop} :
      (s.proc p).pc = .back o → (s.proc p).locked = false →
        WaitStep s [] (s.set p { s.proc p with pc := .sched o, locked := true, state := .runnable })
  | sleepElse {s : WaitSys} {p : Slot} :
      (s.proc p).pc = .out → (s.proc p).locked = false →
        WaitStep s [] (s.set p { s.proc p with pc := .sched none, locked := true, state := .sleeping })
  | exit {s : WaitSys} {p : Slot} :
      (s.proc p).pc = .out → (s.proc p).locked = false →
        WaitStep s [] (s.set p { s.proc p with pc := .sched none, locked := true, state := .zombie })
  -- `freeproc`, and `allocproc` with `kfork`
  | free {s : WaitSys} {p : Slot} :
      (s.proc p).locked = false → (s.proc p).state = .zombie →
        WaitStep s [] (s.set p { s.proc p with state := .unused, killed := false })
  | fork {s : WaitSys} {p : Slot} :
      (s.proc p).locked = false → (s.proc p).state = .unused →
        WaitStep s [] (s.set p { s.proc p with pc := .off none, state := .runnable })
  -- others
  | kkill {s : WaitSys} {p : Slot} :
      (s.proc p).locked = false → WaitStep s [⟨(s.proc p).pc.late s.world⟩] (s.set p (s.proc p).kill)
  | setkilled {s : WaitSys} {p : Slot} :
      (s.proc p).pc = .out → (s.proc p).locked = false →
        WaitStep s [] (s.set p { s.proc p with killed := true })
  | wakeup {s : WaitSys} {p : Slot} :
      (s.proc p).locked = false → WaitStep s [] (s.set p (s.proc p).wake)
  | change {s : WaitSys} (k : CondLock) (w : World) :
      s.lock k = none → World.Differs k s.world w → WaitStep s [] { s with world := w }

end Xv6
