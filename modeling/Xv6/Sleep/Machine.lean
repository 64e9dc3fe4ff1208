import Xv6.Lib.Trans
import Xv6.Proc.Table

/-!
# Sleep and wakeup

The functions `sleep`, `wakeup`, `sched`, `yield` and `kkill` of `proc.c` around one condition. The
condition is protected by a spinlock `lk` and has a channel `c`. A step acquires or releases one lock,
with the reads and writes that follow under it. The parties are

* processes, which run the loop `acquire(lk); while(!cond) sleep(chan, lk); ...; release(lk)`, wake the
  channel with `lk` held, or do something else;
* handlers of interrupts, which also wake the channel; a handler runs on behalf of no process, and
  `myproc()` is the process that it interrupted, if any;
* others, which take the lock of a process: the schedulers, `kkill`, and the code that frees a slot and
  gives it to a new process.

A party that makes the condition true calls `wakeup` before it releases `lk`. The numbers `made` and
`tested` are not in the source: they count how often the condition was made true, and what that number
was when a process last tested the condition.
-/

namespace Xv6

open Function (update)

/-- Who may hold a lock. -/
inductive Party
  | proc (p : Slot)
  | handler (h : ℕ)
  | other (e : ℕ)
  deriving DecidableEq

/-- Where a process goes on after an interrupt or when it is scheduled: outside, or before an
acquisition of `lk`, at the start of the loop or in `sleep`. -/
inductive Spot
  | out
  | enter
  deriving DecidableEq

/-- A section under `lk`: the condition has not been made true since the last `wakeup`, or it has; in
`wakeup` before the slot `k`; in `wakeup` with the lock of `k`. -/
inductive Section
  | work
  | owes
  | wake (k : ℕ)
  | visit (k : Slot)
  deriving DecidableEq

/-- Where a process is. The flag of `sched`, `off` and `on` tells `sleep` from the other callers of
`sched`. -/
inductive SleepPc
  /-- holds no lock -/
  | free (b : Spot)
  /-- interrupted -/
  | intr (b : Spot)
  /-- in the loop, before the test, with `lk` -/
  | test
  /-- in `sleep`, before `acquire(&p->lock)`, with `lk` -/
  | bed
  /-- in `sleep`, before `release(lk)`, with both locks -/
  | drowsy
  /-- in `sleep`, after `release(lk)`, with `p->lock` -/
  | fall
  | crit (x : Section)
  /-- in `sched`, with `p->lock` -/
  | sched (sleeps : Bool) (b : Spot)
  /-- switched out -/
  | off (sleeps : Bool) (b : Spot)
  /-- back from `sched`, with `p->lock` -/
  | on (sleeps : Bool) (b : Spot)
  deriving DecidableEq

/-- Where a handler is; `q` is `myproc()`. -/
inductive HandlerPc
  | idle
  | enter (q : Option Slot)
  | crit (q : Option Slot) (x : Section)
  deriving DecidableEq

/-- What is kept of a `struct proc`, with the place of the process and what it last saw of the
condition. -/
structure Sleeper where
  lock : Option Party
  state : ProcState
  chan : ℕ
  pc : SleepPc
  tested : ℕ

structure SleepSys where
  lk : Option Party
  cond : Bool
  proc : Slot → Sleeper
  hpc : ℕ → HandlerPc
  made : ℕ

/-- A slot without a process. -/
def Sleeper.unused : Sleeper := ⟨none, .unused, 0, .off false .out, 0⟩

namespace SleepSys

/-- No process exists. -/
def init : SleepSys := ⟨none, false, fun _ => .unused, fun _ => .idle, 0⟩

variable (s : SleepSys)

/-- The section that a party is in. -/
def sect : Party → Option Section
  | .proc p => match (s.proc p).pc with
    | .crit x => some x
    | _ => none
  | .handler h => match s.hpc h with
    | .crit _ x => some x
    | _ => none
  | .other _ => none

/-- `myproc()` in a section. -/
def myproc : Party → Option Slot
  | .proc p => some p
  | .handler h => match s.hpc h with
    | .crit q _ => q
    | _ => none
  | .other _ => none

/-- The slot `p` is now `x`. -/
def set (p : Slot) (x : Sleeper) : SleepSys := { s with proc := update s.proc p x }

/-- The slot `p` is changed by `f`. -/
def modify (p : Slot) (f : Sleeper → Sleeper) : SleepSys := s.set p (f (s.proc p))

/-- The party is now in the section `x`. -/
def goto (a : Party) (x : Section) : SleepSys :=
  match a with
  | .proc p => s.set p { s.proc p with pc := .crit x }
  | .handler h => { s with hpc := update s.hpc h (.crit (s.myproc a) x) }
  | .other _ => s

end SleepSys

namespace Sleeper

variable (x : Sleeper)

/-- `if(p->state == SLEEPING && p->chan == chan) p->state = RUNNABLE` -/
def rouse (c : ℕ) : Sleeper :=
  if x.state = .sleeping ∧ x.chan = c then { x with state := .runnable } else x

/-- `if(p->state == SLEEPING) p->state = RUNNABLE` -/
def jolt : Sleeper := if x.state = .sleeping then { x with state := .runnable } else x

/-- The handler that interrupted the process returns. -/
def resume : Sleeper :=
  match x.pc with
  | .intr b => { x with pc := .free b }
  | _ => x

end Sleeper

/-- One step around the condition with the channel `c`. -/
inductive SleepStep (c : ℕ) : SleepSys → List Unit → SleepSys → Prop
  -- the loop of a sleeper
  | start {s : SleepSys} {p : Slot} :
      (s.proc p).pc = .free .out → SleepStep c s [] (s.set p { s.proc p with pc := .free .enter })
  | acquire {s : SleepSys} {p : Slot} :
      (s.proc p).pc = .free .enter → s.lk = none →
        SleepStep c s [] { s.set p { s.proc p with pc := .test } with lk := some (.proc p) }
  | testTrue {s : SleepSys} {p : Slot} :
      (s.proc p).pc = .test → s.cond = true →
        SleepStep c s [] (s.set p { s.proc p with pc := .crit .work, tested := s.made })
  | testFalse {s : SleepSys} {p : Slot} :
      (s.proc p).pc = .test → s.cond = false →
        SleepStep c s [] (s.set p { s.proc p with pc := .bed, tested := s.made })
  -- `sleep`
  | lockSelf {s : SleepSys} {p : Slot} :
      (s.proc p).pc = .bed → (s.proc p).lock = none →
        SleepStep c s [] (s.set p { s.proc p with pc := .drowsy, lock := some (.proc p) })
  | releaseLk {s : SleepSys} {p : Slot} :
      (s.proc p).pc = .drowsy →
        SleepStep c s [] { s.set p { s.proc p with pc := .fall } with lk := none }
  | fallAsleep {s : SleepSys} {p : Slot} :
      (s.proc p).pc = .fall →
        SleepStep c s [] (s.set p
          { s.proc p with pc := .sched true .enter, state := .sleeping, chan := c })
  | tidy {s : SleepSys} {p : Slot} {b : Spot} :
      (s.proc p).pc = .on true b →
        SleepStep c s [] (s.set p { s.proc p with pc := .free b, chan := 0, lock := none })
  -- the other callers of `sched`: `yield`, `sleep` on another channel, and `kexit`
  | yield {s : SleepSys} {p : Slot} {b : Spot} :
      (s.proc p).pc = .free b → (s.proc p).lock = none →
        SleepStep c s [] (s.set p
          { s.proc p with pc := .sched false b, state := .runnable, lock := some (.proc p) })
  | yielded {s : SleepSys} {p : Slot} {b : Spot} :
      (s.proc p).pc = .on false b →
        SleepStep c s [] (s.set p { s.proc p with pc := .free b, lock := none })
  | sleepElse {s : SleepSys} {p : Slot} {n : ℕ} :
      (s.proc p).pc = .free .out → (s.proc p).lock = none → n ≠ c →
        SleepStep c s [] (s.set p { s.proc p with
          pc := .sched true .out, state := .sleeping, chan := n, lock := some (.proc p) })
  | exit {s : SleepSys} {p : Slot} :
      (s.proc p).pc = .free .out → (s.proc p).lock = none →
        SleepStep c s [] (s.set p
          { s.proc p with pc := .sched false .out, state := .zombie, lock := some (.proc p) })
  -- the scheduler, after `swtch`, releases the lock of the process
  | swtch {s : SleepSys} {p : Slot} {t : Bool} {b : Spot} :
      (s.proc p).pc = .sched t b →
        SleepStep c s [] (s.set p { s.proc p with pc := .off t b, lock := none })
  -- sections under `lk`
  | enter {s : SleepSys} {p : Slot} :
      (s.proc p).pc = .free .out → s.lk = none →
        SleepStep c s [] { s.set p { s.proc p with pc := .crit .work } with lk := some (.proc p) }
  | again {s : SleepSys} {p : Slot} :
      (s.proc p).pc = .crit .work → SleepStep c s [] (s.set p { s.proc p with pc := .test })
  | leave {s : SleepSys} {p : Slot} :
      (s.proc p).pc = .crit .work →
        SleepStep c s [] { s.set p { s.proc p with pc := .free .out } with lk := none }
  | make {s : SleepSys} {a : Party} {x : Section} :
      s.sect a = some x → x = .work ∨ x = .owes →
        SleepStep c s [] { s.goto a .owes with cond := true, made := s.made + 1 }
  | consume {s : SleepSys} {a : Party} {x : Section} :
      s.sect a = some x → x = .work ∨ x = .owes → SleepStep c s [] { s with cond := false }
  | wakeup {s : SleepSys} {a : Party} {x : Section} :
      s.sect a = some x → x = .work ∨ x = .owes → SleepStep c s [] (s.goto a (.wake 0))
  | skip {s : SleepSys} {a : Party} {k : Slot} :
      s.sect a = some (.wake k) → s.myproc a = some k → SleepStep c s [] (s.goto a (.wake (k + 1)))
  | visit {s : SleepSys} {a : Party} {k : Slot} :
      s.sect a = some (.wake k) → s.myproc a ≠ some k → (s.proc k).lock = none →
        SleepStep c s [] ((s.set k { s.proc k with lock := some a }).goto a (.visit k))
  | visited {s : SleepSys} {a : Party} {k : Slot} :
      s.sect a = some (.visit k) →
        SleepStep c s []
          ((s.goto a (.wake (k + 1))).modify k fun x => { x.rouse c with lock := none })
  | woken {s : SleepSys} {a : Party} :
      s.sect a = some (.wake NPROC) → SleepStep c s [] (s.goto a .work)
  -- handlers
  | intrIdle {s : SleepSys} {h : ℕ} :
      s.hpc h = .idle → SleepStep c s [] { s with hpc := update s.hpc h (.enter none) }
  | intrProc {s : SleepSys} {h : ℕ} {p : Slot} {b : Spot} :
      s.hpc h = .idle → (s.proc p).pc = .free b →
        SleepStep c s [] { s.set p { s.proc p with pc := .intr b } with
          hpc := update s.hpc h (.enter (some p)) }
  | intrAcquire {s : SleepSys} {h : ℕ} {q : Option Slot} :
      s.hpc h = .enter q → s.lk = none →
        SleepStep c s [] { s with
          lk := some (.handler h), hpc := update s.hpc h (.crit q .work) }
  | intrReturn {s : SleepSys} {h : ℕ} :
      s.hpc h = .crit none .work →
        SleepStep c s [] { s with lk := none, hpc := update s.hpc h .idle }
  | intrReturnTo {s : SleepSys} {h : ℕ} {p : Slot} :
      s.hpc h = .crit (some p) .work →
        SleepStep c s [] { s.set p (s.proc p).resume with
          lk := none, hpc := update s.hpc h .idle }
  -- others, with the lock of a process
  | grab {s : SleepSys} {e : ℕ} {p : Slot} :
      (s.proc p).lock = none → SleepStep c s [] (s.set p { s.proc p with lock := some (.other e) })
  | drop {s : SleepSys} {e : ℕ} {p : Slot} :
      (s.proc p).lock = some (.other e) → SleepStep c s [] (s.set p { s.proc p with lock := none })
  | kill {s : SleepSys} {e : ℕ} {p : Slot} :
      (s.proc p).lock = some (.other e) → SleepStep c s [] (s.set p (s.proc p).jolt)
  | run {s : SleepSys} {e : ℕ} {p : Slot} {t : Bool} {b : Spot} :
      (s.proc p).lock = some (.other e) → (s.proc p).state = .runnable → (s.proc p).pc = .off t b →
        SleepStep c s [] (s.set p
          { s.proc p with pc := .on t b, state := .running, lock := some (.proc p) })
  | reap {s : SleepSys} {e : ℕ} {p : Slot} :
      (s.proc p).lock = some (.other e) → (s.proc p).state = .zombie →
        SleepStep c s [] (s.set p { s.proc p with state := .unused, chan := 0 })
  | fork {s : SleepSys} {e : ℕ} {p : Slot} :
      (s.proc p).lock = some (.other e) → (s.proc p).state = .unused →
        SleepStep c s [] (s.set p { s.proc p with pc := .off false .out, state := .runnable })

end Xv6
