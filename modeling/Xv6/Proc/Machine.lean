import Mathlib.Tactic.Simps.Basic
import Xv6.Lib.Dispatch
import Xv6.Proc.Table

/-!
# Harts and processes

The harts, each in its scheduler or in the process it switched to, and the kernel threads of the
processes, one per slot. A step is one lock section of the source, or one step of code that touches
only what its thread owns. Locks that are held across steps are explicit: `p->lock`, which passes
from the scheduler to the process it switches to and back, and `wait_lock`. Sections that end before
the step does need the lock to be free and leave it free.

Timer and device interrupts come between steps: `clockintr` on any hart whose interrupts are on, and
the sections of `wakeup` that drivers and interrupt handlers run, at any time.
-/

namespace Xv6

open Function

open Dispatch (LockEvent)

abbrev Hart := ℕ

/-- Where the scheduler of a hart is: before it reads the tick count, before the slot `i` of a scan,
inside `swtch` to a process, or just back from it. -/
inductive SchedPc
  | top
  | scan (now : ℕ) (found : Bool) (i : ℕ)
  | away (now : ℕ) (p : Slot)
  | back (now : ℕ) (p : Slot)
  deriving DecidableEq

/-- The scheduler is between two lock sections. -/
def SchedPc.idle : SchedPc → Bool
  | top | scan .. => true
  | away .. | back .. => false

/-- Where the kernel thread of a process is. `user` is user mode and `kernel` is kernel code outside
the functions below; the others are inside `usertrap`, `kfork`, `kexit`, `kwait` or a call by pid.
The first process starts at `forkret`, with interrupts off until it is in user mode; `prepareReturn`
is after the last test of `killed`, and in `forkret` of another process, before `intr_off`.
A process that has `exited` is at the call of `sched` in `kexit`, from which it never returns. -/
inductive Pc
  | user
  | kernel
  | forkret
  | prepareReturn
  | timerKilled
  | timerCharge
  | pidScan (call : PidCall) (pid : ℤ) (i : ℕ)
  | forkScan (i : ℕ)
  | forkCopy (np : Slot)
  | forkRelease (np : Slot)
  | forkParent (np : Slot)
  | forkReady (np : Slot)
  | exitClose (status : ℤ) (fd : ℕ)
  | exitLock (status : ℤ)
  | exitReparent (status : ℤ) (i : ℕ)
  | exitWakeInit (status : ℤ) (child : Slot) (i : ℕ)
  | exitWakeParent (status : ℤ) (parent : Option Slot) (i : ℕ)
  | exitZombie (status : ℤ)
  | exited
  | waitLock (addr : ℕ)
  | waitScan (addr : ℕ) (havekids : Bool) (i : ℕ)
  | waitSleep (addr : ℕ)
  deriving DecidableEq

/-- Can a timer interrupt in kernel mode preempt the thread here? Not while it holds a spinlock, and
not in the part of `usertrap` that runs with interrupts off. -/
def Pc.preemptible : Pc → Bool
  | user | forkret | timerKilled | timerCharge => false
  | kernel | prepareReturn | pidScan .. | forkScan _ | forkParent _ | forkReady _ => true
  | forkCopy _ | forkRelease _ => false
  | exitClose .. | exitLock _ => true
  | exitReparent .. | exitWakeInit .. | exitWakeParent .. | exitZombie _ | exited => false
  | waitLock _ => true
  | waitScan .. | waitSleep _ => false

/-- The places at which the thread can call `sleep` on a channel of another subsystem. -/
def Pc.sleeps : Pc → Bool
  | kernel | forkret | exitClose .. => true
  | _ => false

/-- The places at which the thread changes its private fields. -/
def Pc.works : Pc → Bool
  | kernel | forkret => true
  | _ => false

/-- The places from which the thread goes to user mode. -/
def Pc.returns : Pc → Bool
  | forkret | prepareReturn => true
  | _ => false

/-- The context of a kernel thread: executing, in `kerneltrap` or `usertrap` before `yield`, or saved
by `swtch`. A thread saved in `sleep` clears its channel when it comes back. -/
inductive Ctx
  | running
  | yielding
  | saved (inSleep : Bool)
  deriving DecidableEq

/-- What steps record beside the change of state. -/
inductive Event
  /-- An acquisition or release of a `p->lock`. -/
  | lock (e : LockEvent Hart Slot)
  /-- The scheduler started an accounting window with the tick count it had read. -/
  | window (p : Slot) (now : ℕ)
  /-- `setcpulimit` started an accounting window with the tick count it had read. -/
  | limit (p : Slot) (now : ℕ)
  /-- A tick was charged. -/
  | charge (p : Slot)
  /-- `kkill` found its slot. -/
  | kill (p : Slot)
  /-- A process called `kexit`. -/
  | exit (pid : ℕ) (status : ℤ)
  /-- `kwait` of the first process returned the second, with this pid and status. -/
  | reap (parent child : ℕ) (pid status : ℤ)
  /-- `kwait` of the first process failed to copy out the status of the second and returned `ret`. -/
  | fault (parent child : ℕ) (ret : ℤ)
  deriving DecidableEq

/-- An acquisition and the release that ends the section. -/
def sect (h : Hart) (p : Slot) (es : List Event) : List Event :=
  .lock (.acquire h p) :: (es ++ [.lock (.release h p)])

structure Machine where
  proc : Slot → Proc
  initproc : Slot
  nextpid : ℕ
  ticks : ℕ
  activeTicks : ℕ
  idleTicks : ℕ
  contextSwitches : ℕ
  waitLock : Option Hart
  lock : Slot → Option Hart
  cpu : Hart → Option Slot
  sched : Hart → SchedPc
  ctx : Slot → Ctx
  pc : Slot → Pc

namespace Machine

variable (s : Machine)

@[simps] def setProc (p : Slot) (x : Proc) : Machine := { s with proc := update s.proc p x }
@[simps] def setPc (p : Slot) (k : Pc) : Machine := { s with pc := update s.pc p k }
@[simps] def setCtx (p : Slot) (c : Ctx) : Machine := { s with ctx := update s.ctx p c }
@[simps] def setLock (p : Slot) (o : Option Hart) : Machine := { s with lock := update s.lock p o }
@[simps] def setSched (h : Hart) (c : SchedPc) : Machine := { s with sched := update s.sched h c }
@[simps] def setCpu (h : Hart) (o : Option Slot) : Machine := { s with cpu := update s.cpu h o }
@[simps] def setWait (o : Option Hart) : Machine := { s with waitLock := o }

/-- The thread of `p` executes on `h`. -/
def Runs (h : Hart) (p : Slot) : Prop := (∃ now, s.sched h = .away now p) ∧ s.ctx p = .running

/-- The section of `clockintr` under `tickslock`, on hart 0. -/
def countTick : Machine :=
  { s with
    ticks := s.ticks + 1
    activeTicks := if s.cpu 0 = none then s.activeTicks else s.activeTicks + 1
    idleTicks := if s.cpu 0 = none then s.idleTicks + 1 else s.idleTicks }

/-- `clockintr` on `h`: hart 0 counts the tick, and the running process of `h` is billed for it. -/
def clockintr (h : Hart) : Machine :=
  { (if h = 0 then s.countTick else s) with
    proc := fun p =>
      if s.cpu h = some p ∧ (s.proc p).state = .running then
        { s.proc p with cpuTicks := (s.proc p).cpuTicks + 1 }
      else s.proc p }

/-- What an interrupt of the clock can change. -/
theorem clockintr_eq (h : Hart) : ∃ (ticks activeTicks idleTicks : ℕ) (cpuTicks : Slot → ℕ),
    s.ticks ≤ ticks ∧ s.clockintr h = { s with
      ticks := ticks
      activeTicks := activeTicks
      idleTicks := idleTicks
      proc := fun p => { s.proc p with cpuTicks := cpuTicks p } } := by
  have hproc : (s.clockintr h).proc =
      fun p => { s.proc p with cpuTicks := ((s.clockintr h).proc p).cpuTicks } := by
    funext p
    unfold clockintr
    simp only
    split <;> rfl
  refine ⟨(s.clockintr h).ticks, (s.clockintr h).activeTicks, (s.clockintr h).idleTicks,
    fun p => ((s.clockintr h).proc p).cpuTicks, ?_, ?_⟩
  · unfold clockintr countTick
    simp only
    split <;> simp
  · rw [← hproc]
    unfold clockintr countTick
    simp only
    split <;> rfl

/-- The thread of `p` on `h` has taken `p->lock`, left the record `x` and calls `sched`. -/
def swtch (h : Hart) (now : ℕ) (p : Slot) (inSleep : Bool) (x : Proc) : Machine :=
  (((s.setProc p x).setLock p (some h)).setCtx p (.saved inSleep)).setSched h (.back now p)

/-- The thread of `p` on `h` has found the unused slot `q` and keeps its lock: the slot gets the next
pid, the record `x` and a context that starts in `forkret`. -/
def claim (h : Hart) (p q : Slot) (x : Proc) : Machine :=
  (((({ s with nextpid := s.nextpid + 1 }.setProc q x).setLock q (some h)).setCtx q
    (.saved false)).setPc q .prepareReturn).setPc p (.forkCopy q)

/-- `kexit` is called. -/
def callExit (p : Slot) (status : ℤ) : Machine := s.setPc p (.exitClose status 0)

end Machine

theorem clockintr_pc (s : Machine) (h : Hart) : (s.clockintr h).pc = s.pc := by
  obtain ⟨t, a, i, f, -, e⟩ := s.clockintr_eq h
  rw [e]

theorem clockintr_sched (s : Machine) (h : Hart) : (s.clockintr h).sched = s.sched := by
  obtain ⟨t, a, i, f, -, e⟩ := s.clockintr_eq h
  rw [e]

theorem clockintr_state (s : Machine) (h : Hart) (p : Slot) :
    ((s.clockintr h).proc p).state = (s.proc p).state := by
  obtain ⟨t, a, i, f, -, e⟩ := s.clockintr_eq h
  rw [e]

/-- The events of a scheduler visit. -/
def windowEvents (now : ℕ) (p : Slot) (x : Proc) : List Event :=
  if x.restarts now then [.window p now] else []

/-- The events of a call by pid that found its slot. -/
def PidCall.events (p : Slot) : PidCall → List Event
  | kkill => [.kill p]
  | setcpulimit _ now => [.limit p now]
  | _ => []

/-- The arguments that a call by pid accepts, with the tick count `setcpulimit` reads. -/
def PidCall.Starts (ticks : ℕ) : PidCall → Prop
  | setcpulimit limit now => 0 ≤ limit ∧ now = ticks
  | _ => True

/-- Where `usertrap` goes from its tests of `killed`, if the process is alive: into a system call,
on the way back to user mode, or on to the accounting of a timer tick. -/
def Pc.alive : Pc → Option Pc
  | user => some .kernel
  | kernel => some .prepareReturn
  | timerKilled => some .timerCharge
  | _ => none

/-- One step of the machine. -/
inductive Step (s : Machine) : List Event → Machine → Prop
  -- `scheduler`
  | schedTop {h : Hart} : s.sched h = .top → Step s [] (s.setSched h (.scan s.ticks false 0))
  | schedEnd {h : Hart} {now : ℕ} {found : Bool} : s.sched h = .scan now found NPROC →
      Step s [] (s.setSched h .top)
  | schedSkip {h : Hart} {now : ℕ} {found : Bool} {p : Slot} {x : Proc} :
      s.sched h = .scan now found p → s.lock p = none → (s.proc p).visit now = (x, false) →
      Step s (sect h p (windowEvents now p (s.proc p)))
        ((s.setProc p x).setSched h (.scan now found (p + 1)))
  | schedRun {h : Hart} {now : ℕ} {found : Bool} {p : Slot} {x : Proc} :
      s.sched h = .scan now found p → s.lock p = none → (s.proc p).visit now = (x, true) →
      Step s (.lock (.acquire h p) :: windowEvents now p (s.proc p))
        (((({ s with contextSwitches := s.contextSwitches + 1 }.setProc p x.dispatch).setLock p
          (some h)).setCpu h (some p)).setSched h (.away now p))
  | schedBack {h : Hart} {now : ℕ} {p : Slot} : s.sched h = .back now p →
      Step s [.lock (.release h p)]
        (((s.setCpu h none).setLock p none).setSched h (.scan now true (p + 1)))
  -- the return of `swtch` in `yield`, `sleep` and `forkret`
  | resume {h : Hart} {now : ℕ} {p : Slot} {b : Bool} :
      s.sched h = .away now p → s.ctx p = .saved b →
      Step s [.lock (.release h p)]
        (((s.setProc p { s.proc p with chan := if b then none else (s.proc p).chan }).setLock p
          none).setCtx p .running)
  -- timer interrupts; inside a scan interrupts are on or off as the last process left them
  | timerIdle {h : Hart} : (s.sched h).idle = true → Step s [] (s.clockintr h)
  | timerUser {h : Hart} {p : Slot} : s.Runs h p → s.pc p = .user →
      Step s [] ((s.clockintr h).setPc p .timerKilled)
  | timerKernel {h : Hart} {p : Slot} : s.Runs h p → (s.pc p).preemptible = true →
      Step s [] ((s.clockintr h).setCtx p .yielding)
  | timerCharge {h : Hart} {p : Slot} : s.Runs h p → s.pc p = .timerCharge → s.lock p = none →
      Step s (sect h p [.charge p])
        (((s.setProc p (s.proc p).charge).setPc p .user).setCtx p .yielding)
  | yield {h : Hart} {now : ℕ} {p : Slot} :
      s.sched h = .away now p → s.ctx p = .yielding → s.lock p = none →
      Step s [.lock (.acquire h p)]
        (s.swtch h now p false { s.proc p with state := .runnable })
  -- the rest of `usertrap`
  | checkAlive {h : Hart} {p : Slot} {k : Pc} : s.Runs h p → (s.pc p).alive = some k →
      s.lock p = none → (s.proc p).killed = false → Step s (sect h p []) (s.setPc p k)
  | checkKilled {h : Hart} {p : Slot} {k : Pc} : s.Runs h p → (s.pc p).alive = some k →
      s.lock p = none → (s.proc p).killed = true → p ≠ s.initproc →
      Step s (sect h p [] ++ [.exit (s.proc p).pid (-1)]) (s.callExit p (-1))
  | prepareReturn {h : Hart} {p : Slot} : s.Runs h p → (s.pc p).returns = true →
      Step s [] (s.setPc p .user)
  | setkilled {h : Hart} {p : Slot} : s.Runs h p → s.pc p = .user → s.lock p = none →
      Step s (sect h p []) ((s.setProc p { s.proc p with killed := true }).setPc p .kernel)
  -- kernel code outside the process table
  | own {h : Hart} {p : Slot} {u : Own} : s.Runs h p → (s.pc p).works = true →
      Step s [] (s.setProc p (u.act (s.proc p)))
  | sleep {h : Hart} {now : ℕ} {p : Slot} {a : ℕ} :
      s.sched h = .away now p → s.ctx p = .running → (s.pc p).sleeps = true → s.lock p = none →
      Step s [.lock (.acquire h p)]
        (s.swtch h now p true { s.proc p with chan := some (.addr a), state := .sleeping })
  | wakeup {h : Hart} {q : Slot} {a : ℕ} : s.lock q = none →
      Step s (sect h q []) (s.setProc q ((s.proc q).wakeup (some (.addr a))))
  -- `kkill`, `setpowermode_pid`, `setcpulimit_pid`, `sys_setusagelimit`
  | callPid {h : Hart} {p : Slot} {call : PidCall} {pid : ℤ} : s.Runs h p → s.pc p = .kernel →
      call.Starts s.ticks → Step s [] (s.setPc p (.pidScan call pid 0))
  | pidHit {h : Hart} {p q : Slot} {call : PidCall} {pid : ℤ} : s.Runs h p →
      s.pc p = .pidScan call pid q → s.lock q = none → call.hit pid (s.proc q) = true →
      Step s (sect h q (call.events q)) ((s.setProc q (call.act (s.proc q))).setPc p .kernel)
  | pidMiss {h : Hart} {p q : Slot} {call : PidCall} {pid : ℤ} : s.Runs h p →
      s.pc p = .pidScan call pid q → s.lock q = none → call.hit pid (s.proc q) = false →
      Step s (sect h q []) (s.setPc p (.pidScan call pid (q + 1)))
  | pidEnd {h : Hart} {p : Slot} {call : PidCall} {pid : ℤ} : s.Runs h p →
      s.pc p = .pidScan call pid NPROC → Step s [] (s.setPc p .kernel)
  -- `kfork`
  | callFork {h : Hart} {p : Slot} : s.Runs h p → s.pc p = .kernel →
      Step s [] (s.setPc p (.forkScan 0))
  | forkBusy {h : Hart} {p q : Slot} : s.Runs h p → s.pc p = .forkScan q → s.lock q = none →
      (s.proc q).state ≠ .unused → Step s (sect h q []) (s.setPc p (.forkScan (q + 1)))
  | forkFull {h : Hart} {p : Slot} : s.Runs h p → s.pc p = .forkScan NPROC →
      Step s [] (s.setPc p .kernel)
  -- no memory for the trapframe, the page table or the copy
  | forkFail {h : Hart} {p q : Slot} : s.Runs h p → s.pc p = .forkScan q → s.lock q = none →
      (s.proc q).state = .unused →
      Step s (sect h q [])
        ({ s.setProc q (freeproc (s.proc q)) with nextpid := s.nextpid + 1 }.setPc p .kernel)
  | forkClaim {h : Hart} {p q : Slot} : s.Runs h p → s.pc p = .forkScan q → s.lock q = none →
      (s.proc q).state = .unused →
      Step s [.lock (.acquire h q)]
        (s.claim h p q (forkCopy (s.proc p) (allocproc s.nextpid (s.proc q))))
  | forkInherit {h : Hart} {p q : Slot} : s.Runs h p → s.pc p = .forkCopy q → s.lock p = none →
      Step s (sect h p [])
        ((s.setProc q (forkInherit (s.proc p) (s.proc q))).setPc p (.forkRelease q))
  | forkRelease {h : Hart} {p q : Slot} : s.Runs h p → s.pc p = .forkRelease q →
      Step s [.lock (.release h q)] ((s.setLock q none).setPc p (.forkParent q))
  | forkParent {h : Hart} {p q : Slot} : s.Runs h p → s.pc p = .forkParent q →
      s.waitLock = none →
      Step s [] ((s.setProc q { s.proc q with parent := some p }).setPc p (.forkReady q))
  | forkReady {h : Hart} {p q : Slot} : s.Runs h p → s.pc p = .forkReady q → s.lock q = none →
      Step s (sect h q []) ((s.setProc q { s.proc q with state := .runnable }).setPc p .kernel)
  -- `kexit`
  | callExit {h : Hart} {p : Slot} {status : ℤ} : s.Runs h p → s.pc p = .kernel →
      p ≠ s.initproc → Step s [.exit (s.proc p).pid status] (s.callExit p status)
  | exitClose {h : Hart} {p : Slot} {status : ℤ} {fd : Fin NOFILE} : s.Runs h p →
      s.pc p = .exitClose status fd →
      Step s [] ((s.setProc p { s.proc p with ofile := update (s.proc p).ofile fd none
        }).setPc p (.exitClose status (fd + 1)))
  | exitCwd {h : Hart} {p : Slot} {status : ℤ} : s.Runs h p → s.pc p = .exitClose status NOFILE →
      Step s [] ((s.setProc p { s.proc p with cwd := none }).setPc p (.exitLock status))
  | exitLock {h : Hart} {p : Slot} {status : ℤ} : s.Runs h p → s.pc p = .exitLock status →
      s.waitLock = none → Step s [] ((s.setWait (some h)).setPc p (.exitReparent status 0))
  | exitAdopt {h : Hart} {p q : Slot} {status : ℤ} : s.Runs h p →
      s.pc p = .exitReparent status q → (s.proc q).parent = some p →
      Step s [] ((s.setProc q { s.proc q with parent := some s.initproc }).setPc p
        (.exitWakeInit status q 0))
  | exitSkip {h : Hart} {p q : Slot} {status : ℤ} : s.Runs h p →
      s.pc p = .exitReparent status q → (s.proc q).parent ≠ some p →
      Step s [] (s.setPc p (.exitReparent status (q + 1)))
  | exitReparented {h : Hart} {p : Slot} {status : ℤ} : s.Runs h p →
      s.pc p = .exitReparent status NPROC →
      Step s [] (s.setPc p (.exitWakeParent status (s.proc p).parent 0))
  | wakeInitSelf {h : Hart} {p c : Slot} {status : ℤ} : s.Runs h p →
      s.pc p = .exitWakeInit status c p → Step s [] (s.setPc p (.exitWakeInit status c (p + 1)))
  | wakeInit {h : Hart} {p c q : Slot} {status : ℤ} : s.Runs h p →
      s.pc p = .exitWakeInit status c q → q ≠ p → s.lock q = none →
      Step s (sect h q []) ((s.setProc q ((s.proc q).wakeup (some (.proc s.initproc)))).setPc p
        (.exitWakeInit status c (q + 1)))
  | wakeInitEnd {h : Hart} {p c : Slot} {status : ℤ} : s.Runs h p →
      s.pc p = .exitWakeInit status c NPROC → Step s [] (s.setPc p (.exitReparent status (c + 1)))
  | wakeParentSelf {h : Hart} {p : Slot} {o : Option Slot} {status : ℤ} : s.Runs h p →
      s.pc p = .exitWakeParent status o p → Step s [] (s.setPc p (.exitWakeParent status o (p + 1)))
  | wakeParent {h : Hart} {p q : Slot} {o : Option Slot} {status : ℤ} : s.Runs h p →
      s.pc p = .exitWakeParent status o q → q ≠ p → s.lock q = none →
      Step s (sect h q []) ((s.setProc q ((s.proc q).wakeup (o.map .proc))).setPc p
        (.exitWakeParent status o (q + 1)))
  | wakeParentEnd {h : Hart} {p : Slot} {o : Option Slot} {status : ℤ} : s.Runs h p →
      s.pc p = .exitWakeParent status o NPROC → Step s [] (s.setPc p (.exitZombie status))
  | exitZombie {h : Hart} {now : ℕ} {p : Slot} {status : ℤ} :
      s.sched h = .away now p → s.ctx p = .running → s.pc p = .exitZombie status →
      s.lock p = none →
      Step s [.lock (.acquire h p)]
        (((s.swtch h now p false { s.proc p with xstate := status, state := .zombie }).setWait
          none).setPc p .exited)
  -- `kwait`
  | callWait {h : Hart} {p : Slot} {addr : ℕ} : s.Runs h p → s.pc p = .kernel →
      Step s [] (s.setPc p (.waitLock addr))
  | waitLock {h : Hart} {p : Slot} {addr : ℕ} : s.Runs h p → s.pc p = .waitLock addr →
      s.waitLock = none → Step s [] ((s.setWait (some h)).setPc p (.waitScan addr false 0))
  | waitOther {h : Hart} {p q : Slot} {addr : ℕ} {kids : Bool} : s.Runs h p →
      s.pc p = .waitScan addr kids q → (s.proc q).parent ≠ some p →
      Step s [] (s.setPc p (.waitScan addr kids (q + 1)))
  | waitChild {h : Hart} {p q : Slot} {addr : ℕ} {kids : Bool} : s.Runs h p →
      s.pc p = .waitScan addr kids q → (s.proc q).parent = some p → s.lock q = none →
      (s.proc q).state ≠ .zombie →
      Step s (sect h q []) (s.setPc p (.waitScan addr true (q + 1)))
  | waitReap {h : Hart} {p q : Slot} {addr : ℕ} {kids : Bool} : s.Runs h p →
      s.pc p = .waitScan addr kids q → (s.proc q).parent = some p → s.lock q = none →
      (s.proc q).state = .zombie →
      Step s (sect h q [.reap (s.proc p).pid (s.proc q).pid (int32 (s.proc q).pid)
          (s.proc q).xstate])
        (((s.setProc q (freeproc (s.proc q))).setWait none).setPc p .kernel)
  | waitFault {h : Hart} {p q : Slot} {addr : ℕ} {kids : Bool} : s.Runs h p →
      s.pc p = .waitScan addr kids q → (s.proc q).parent = some p → s.lock q = none →
      (s.proc q).state = .zombie → addr ≠ 0 →
      Step s (sect h q [.fault (s.proc p).pid (s.proc q).pid (-1)])
        ((s.setWait none).setPc p .kernel)
  | waitNone {h : Hart} {p : Slot} {addr : ℕ} : s.Runs h p →
      s.pc p = .waitScan addr false NPROC → Step s [] ((s.setWait none).setPc p .kernel)
  | waitKilled {h : Hart} {p : Slot} {addr : ℕ} : s.Runs h p →
      s.pc p = .waitScan addr true NPROC → s.lock p = none → (s.proc p).killed = true →
      Step s (sect h p []) ((s.setWait none).setPc p .kernel)
  | waitAlive {h : Hart} {p : Slot} {addr : ℕ} : s.Runs h p →
      s.pc p = .waitScan addr true NPROC → s.lock p = none → (s.proc p).killed = false →
      Step s (sect h p []) (s.setPc p (.waitSleep addr))
  | waitSleep {h : Hart} {now : ℕ} {p : Slot} {addr : ℕ} :
      s.sched h = .away now p → s.ctx p = .running → s.pc p = .waitSleep addr →
      s.lock p = none →
      Step s [.lock (.acquire h p)]
        (((s.swtch h now p true { s.proc p with chan := some (.proc p), state := .sleeping
          }).setWait none).setPc p (.waitLock addr))

/-- The machine when the harts enter their schedulers: `userinit` has made the first process. -/
def Machine.boot : Machine where
  proc := fun p => if p = 0 then { allocproc 1 Proc.empty with state := .runnable, cwd := some 0 }
    else Proc.empty
  initproc := 0
  nextpid := 2
  ticks := 0
  activeTicks := 0
  idleTicks := 0
  contextSwitches := 0
  waitLock := none
  lock := fun _ => none
  cpu := fun _ => none
  sched := fun _ => .top
  ctx := fun _ => .saved false
  pc := fun p => if p = 0 then .forkret else .user

/-- The runs of the machine from boot. -/
abbrev Runs (tr : List Event) (s : Machine) : Prop := Trans.Run Step Machine.boot tr s

end Xv6
