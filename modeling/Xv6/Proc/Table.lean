import Mathlib.Data.Int.ModEq
import Mathlib.Logic.Function.Basic

/-!
# The process table

One record of `proc[]` and what the lock sections of `proc.c`, `sysproc.c` and `trap.c` do to it.

The counters that the kernel keeps in 32 bits and that can wrap are kept here in full: `pid` is the
number of the allocation that gave it, and the machine's `int` is `int32 pid`; `budgetWindowStart`
is a tick count of which the machine holds the low 32 bits. Every test the kernel makes reads them
through `int32` or `elapsed`.
-/

namespace Xv6

abbrev NPROC : ℕ := 64
abbrev NOFILE : ℕ := 16

/-- An entry of `proc[]`. -/
abbrev Slot := Fin NPROC

inductive ProcState
  | unused | used | sleeping | runnable | running | zombie
  deriving DecidableEq, Repr

inductive PowerMode
  | normal | eco
  deriving DecidableEq, Repr

def ECO_SKIP_INTERVAL : ℤ := 3
def CPU_BUDGET_WINDOW_TICKS : ℕ := 50

/-- A sleep channel: the address of a `struct proc`, or any other address. -/
inductive Chan
  | proc (p : Slot)
  | addr (a : ℕ)
  deriving DecidableEq, Repr

/-- The `int` that a 32-bit counter holds after `n` increments from zero. -/
def int32 (n : ℕ) : ℤ := Int.bmod n (2 ^ 32)

/-- The unsigned 32-bit difference of two tick counts. -/
def elapsed (now start : ℕ) : ℕ := (now % 2 ^ 32 + (2 ^ 32 - start % 2 ^ 32)) % 2 ^ 32

/-- The fields of `struct proc`. Of the page table and the trapframe only their presence is kept;
`ofile` and `cwd` are indices of open files and of in-memory inodes. -/
structure Proc where
  state : ProcState
  chan : Option Chan
  killed : Bool
  xstate : ℤ
  pid : ℕ
  parent : Option Slot
  sz : ℕ
  pagetable : Bool
  trapframe : Bool
  ofile : Fin NOFILE → Option ℕ
  cwd : Option ℕ
  powerMode : PowerMode
  cpuBudget : ℤ
  ticksUsed : ℤ
  ticksTotal : ℤ
  budgetWindowStart : ℕ
  ecoSkipCounter : ℤ
  cpuTicks : ℕ
  cpuTicksLimit : ℕ
  schedCount : ℕ

/-- The state of a slot at boot. -/
def Proc.empty : Proc where
  state := .unused
  chan := none
  killed := false
  xstate := 0
  pid := 0
  parent := none
  sz := 0
  pagetable := false
  trapframe := false
  ofile := fun _ => none
  cwd := none
  powerMode := .normal
  cpuBudget := 0
  ticksUsed := 0
  ticksTotal := 0
  budgetWindowStart := 0
  ecoSkipCounter := 0
  cpuTicks := 0
  cpuTicksLimit := 0
  schedCount := 0

/-- `freeproc`: everything but the open files and the working directory. -/
def freeproc (x : Proc) : Proc :=
  { Proc.empty with ofile := x.ofile, cwd := x.cwd }

/-- The slot that `allocproc` returns. -/
def allocproc (pid : ℕ) (x : Proc) : Proc :=
  { x with
    pid := pid
    state := .used
    powerMode := .normal
    cpuBudget := 0
    ticksUsed := 0
    ticksTotal := 0
    budgetWindowStart := 0
    ecoSkipCounter := 0
    cpuTicks := 0
    cpuTicksLimit := 0
    schedCount := 0
    trapframe := true
    pagetable := true }

/-- The part of `kfork` between the copy of the memory and the parent's lock: what the child `np`
takes from the private fields of its parent `p`. -/
def forkCopy (p np : Proc) : Proc :=
  { np with sz := p.sz, ofile := p.ofile, cwd := p.cwd }

/-- The part of `kfork` under the parent's lock. -/
def forkInherit (p np : Proc) : Proc :=
  { np with
    powerMode := p.powerMode
    cpuBudget := p.cpuBudget
    ticksUsed := 0
    ticksTotal := 0
    budgetWindowStart := p.budgetWindowStart
    ecoSkipCounter := 0
    cpuTicks := 0
    cpuTicksLimit := p.cpuTicksLimit }

/-! ## The scheduler's visit of a slot -/

/-- Does a scan that read the tick count `now` start a new accounting window? -/
def Proc.restarts (now : ℕ) (x : Proc) : Bool :=
  x.state = .runnable && 0 < x.cpuBudget &&
    CPU_BUDGET_WINDOW_TICKS ≤ elapsed now x.budgetWindowStart

/-- The budget test: restart the window, then compare. The flag is `can_run`. -/
def Proc.budget (now : ℕ) (x : Proc) : Proc × Bool :=
  if 0 < x.cpuBudget then
    let y := if CPU_BUDGET_WINDOW_TICKS ≤ elapsed now x.budgetWindowStart then
        { x with budgetWindowStart := now, ticksUsed := 0 } else x
    (y, !(y.cpuBudget ≤ y.ticksUsed))
  else (x, true)

/-- The power-mode test of a process within its budget. -/
def Proc.eco (x : Proc) : Proc × Bool :=
  if x.powerMode = .eco then
    if x.ecoSkipCounter + 1 < ECO_SKIP_INTERVAL then
      ({ x with ecoSkipCounter := x.ecoSkipCounter + 1 }, false)
    else ({ x with ecoSkipCounter := 0 }, true)
  else (x, true)

/-- The body of the scheduler's loop up to the decision to run the slot. -/
def Proc.visit (now : ℕ) (x : Proc) : Proc × Bool :=
  if x.state = .runnable then
    match x.budget now with
    | (y, true) => y.eco
    | (y, false) => (y, false)
  else (x, false)

/-- The chosen process. -/
def Proc.dispatch (x : Proc) : Proc :=
  { x with schedCount := x.schedCount + 1, state := .running }

/-! ## Lock sections on one slot -/

/-- The accounting section of `usertrap`. -/
def Proc.charge (x : Proc) : Proc :=
  { x with
    ticksUsed := x.ticksUsed + 1
    ticksTotal := x.ticksTotal + 1
    killed := x.killed || (0 < x.cpuTicksLimit && x.cpuTicksLimit < x.cpuTicks) }

/-- The section of `wakeup(chan)`. -/
def Proc.wakeup (chan : Option Chan) (x : Proc) : Proc :=
  if x.state = .sleeping ∧ x.chan = chan then { x with state := .runnable } else x

/-- The system calls that look for a slot by its pid. The tick count of `setcpulimit` is the one it
read before its loop. -/
inductive PidCall
  | kkill
  | setpowermode (mode : PowerMode)
  | setcpulimit (limit : ℤ) (now : ℕ)
  | setusagelimit (max : ℤ)
  deriving DecidableEq, Repr

/-- The test of the loop: `kkill` and `setusagelimit` compare only the pid. -/
def PidCall.hit (pid : ℤ) (x : Proc) : PidCall → Bool
  | kkill => int32 x.pid = pid
  | setpowermode _ => x.state ≠ .unused && int32 x.pid = pid
  | setcpulimit _ _ => x.state ≠ .unused && int32 x.pid = pid
  | setusagelimit _ => int32 x.pid = pid

/-- The update of the slot found. -/
def PidCall.act (x : Proc) : PidCall → Proc
  | kkill => { x with
      killed := true
      state := if x.state = .sleeping then .runnable else x.state }
  | setpowermode mode => { x with powerMode := mode, ecoSkipCounter := 0 }
  | setcpulimit limit now => { x with
      cpuBudget := limit
      ticksUsed := 0
      budgetWindowStart := now }
  | setusagelimit max => { x with cpuTicksLimit := max.toNat }

/-- What a process does to its private fields outside the functions modelled here: `exec` and
`sbrk` set the size, opening and closing files and `chdir` the rest. -/
inductive Own
  | resize (sz : ℕ)
  | setFile (fd : Fin NOFILE) (f : Option ℕ)
  | setCwd (i : Option ℕ)

def Own.act (x : Proc) : Own → Proc
  | resize n => { x with sz := n }
  | setFile fd f => { x with ofile := Function.update x.ofile fd f }
  | setCwd i => { x with cwd := i }

end Xv6
