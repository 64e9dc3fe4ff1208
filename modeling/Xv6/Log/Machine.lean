import Xv6.Disk.Log
import Xv6.Lib.Monitor
import Xv6.Lib.Quota
import Xv6.Lib.Trans
import Xv6.Proc.Table

/-!
# Operations on the log

The functions `begin_op`, `log_write`, `end_op` and `commit` of `log.c`, run by any processes in any
interleaving. `log.lock` is explicit where a section has more than one step: `end_op` holds it while
it runs `wakeup`, and a process that panics holds it for ever. `commit` runs without the lock; each
pass of its loops is a step. Of the buffer cache only the pins that `log_write` adds and
`install_trans` takes away are kept, and of a process only whether it sleeps on `&log`.
-/

namespace Xv6

open Monitor Function

/-- Where a process is. In an operation, `D` are the blocks it has passed to `log_write` and `F` those
among them that it added to the log; neither is in the source. -/
inductive LogPc
  | idle
  /-- Before an acquisition of `log.lock` in `begin_op`, at its start or in `sleep`. -/
  | beginEnter
  | inOp (D F : Finset ℕ)
  /-- In the `wakeup` of an `end_op` that leaves operations outstanding. -/
  | endWake (k : ℕ)
  | commit
  | writeLog (tail : ℕ)
  | writeHead
  | install (tail : ℕ)
  | clear
  | eraseHead
  /-- After `commit`, before the second acquisition of `log.lock` in `end_op`. -/
  | finish
  | finishWake (k : ℕ)

/-- What steps record. -/
inductive LogEvent
  /-- `begin_op` returned. -/
  | begun (p : Slot)
  /-- `log_write` was called. -/
  | logWrite (p : Slot) (b : ℕ)
  | panic (p : Slot) (why : Panic)

/-- The log and the processes that use it. -/
structure LogSys where
  lh : List ℕ
  outstanding : ℕ
  committing : Bool
  lock : Option Slot
  mode : Slot → Mode Unit
  pins : ℕ → ℕ
  pc : Slot → LogPc

namespace LogSys

variable (s : LogSys)

def setPc (p : Slot) (k : LogPc) : LogSys := { s with pc := update s.pc p k }
def setMode (p : Slot) (m : Mode Unit) : LogSys := { s with mode := update s.mode p m }
def setLock (o : Option Slot) : LogSys := { s with lock := o }
def setLh (lh : List ℕ) : LogSys := { s with lh := lh }
def setOutstanding (n : ℕ) : LogSys := { s with outstanding := n }
def setCommitting (b : Bool) : LogSys := { s with committing := b }
def bpin (b : ℕ) : LogSys := { s with pins := update s.pins b (s.pins b + 1) }
def bunpin (b : ℕ) : LogSys := { s with pins := update s.pins b (s.pins b - 1) }

/-- `p` can take `log.lock`. -/
def Acquires (p : Slot) : Prop := s.lock = none ∧ s.mode p = .awake

/-- `p` panics inside an operation, with `log.lock` held. -/
def halt (p : Slot) : LogSys := s.setLock (some p)

end LogSys

/-- The slot that a `wakeup` visits next, and the place after it. -/
def LogPc.waking : LogPc → Option (ℕ × LogPc)
  | endWake k => some (k, endWake (k + 1))
  | finishWake k => some (k, finishWake (k + 1))
  | _ => none

/-- One step of the processes that use the log. -/
inductive LogStep (s : LogSys) : List LogEvent → LogSys → Prop
  | callBegin {p : Slot} : s.pc p = .idle → s.mode p = .awake → LogStep s [] (s.setPc p .beginEnter)
  -- `kkill` has found `q`
  | kkill {q : Slot} : ¬ (s.mode q).Drowsy → LogStep s [] (s.setMode q (s.mode q).jolt)
  -- the rest of `sleep`
  | sleep {p : Slot} {c : Unit} : s.mode p = .drowsy c → LogStep s [] (s.setMode p (.asleep c))
  -- `wakeup(&log)`
  | wakeSelf {p : Slot} {k : LogPc} : s.lock = some p → (s.pc p).waking = some (p.val, k) →
      LogStep s [] (s.setPc p k)
  | wake {p q : Slot} {k : LogPc} : s.lock = some p → (s.pc p).waking = some (q.val, k) → q ≠ p →
      ¬ (s.mode q).Drowsy → LogStep s [] ((s.setMode q ((s.mode q).rouse ())).setPc p k)
  -- `begin_op`
  | beginCommitting {p : Slot} : s.pc p = .beginEnter → s.Acquires p → s.committing = true →
      LogStep s [] (s.setMode p (.drowsy ()))
  | beginFull {p : Slot} : s.pc p = .beginEnter → s.Acquires p → s.committing = false →
      LOGBLOCKS < s.lh.length + (s.outstanding + 1) * MAXOPBLOCKS →
      LogStep s [] (s.setMode p (.drowsy ()))
  | beginAdmit {p : Slot} : s.pc p = .beginEnter → s.Acquires p → s.committing = false →
      s.lh.length + (s.outstanding + 1) * MAXOPBLOCKS ≤ LOGBLOCKS →
      LogStep s [.begun p] ((s.setOutstanding (s.outstanding + 1)).setPc p (.inOp ∅ ∅))
  -- `log_write`
  | writeTooBig {p : Slot} {b : ℕ} {D F : Finset ℕ} : s.pc p = .inOp D F → s.Acquires p →
      LOGBLOCKS ≤ s.lh.length → LogStep s [.logWrite p b, .panic p .tooBig] (s.halt p)
  | writeOutside {p : Slot} {b : ℕ} {D F : Finset ℕ} : s.pc p = .inOp D F → s.Acquires p →
      s.lh.length < LOGBLOCKS → s.outstanding < 1 →
      LogStep s [.logWrite p b, .panic p .outsideTrans] (s.halt p)
  | writeAbsorb {p : Slot} {b : ℕ} {D F : Finset ℕ} : s.pc p = .inOp D F → s.Acquires p →
      s.lh.length < LOGBLOCKS → 1 ≤ s.outstanding → b ∈ s.lh →
      LogStep s [.logWrite p b] (s.setPc p (.inOp (insert b D) F))
  | writeAppend {p : Slot} {b : ℕ} {D F : Finset ℕ} : s.pc p = .inOp D F → s.Acquires p →
      s.lh.length < LOGBLOCKS → 1 ≤ s.outstanding → b ∉ s.lh →
      LogStep s [.logWrite p b]
        (((s.bpin b).setLh (s.lh ++ [b])).setPc p (.inOp (insert b D) (insert b F)))
  -- `end_op`
  | endPanic {p : Slot} {D F : Finset ℕ} : s.pc p = .inOp D F → s.Acquires p → s.committing = true →
      LogStep s [.panic p .committing] ((s.setOutstanding (s.outstanding - 1)).halt p)
  | endLast {p : Slot} {D F : Finset ℕ} : s.pc p = .inOp D F → s.Acquires p → s.committing = false →
      s.outstanding - 1 = 0 →
      LogStep s [] (((s.setOutstanding (s.outstanding - 1)).setCommitting true).setPc p .commit)
  | endOthers {p : Slot} {D F : Finset ℕ} : s.pc p = .inOp D F → s.Acquires p →
      s.committing = false → s.outstanding - 1 ≠ 0 →
      LogStep s []
        (((s.setOutstanding (s.outstanding - 1)).setLock (some p)).setPc p (.endWake 0))
  | endReturn {p : Slot} : s.lock = some p → s.pc p = .endWake NPROC →
      LogStep s [] ((s.setLock none).setPc p .idle)
  -- `commit`
  | commitNothing {p : Slot} : s.pc p = .commit → s.lh.length = 0 → LogStep s [] (s.setPc p .finish)
  | commitSome {p : Slot} : s.pc p = .commit → 0 < s.lh.length →
      LogStep s [] (s.setPc p (.writeLog 0))
  | writeLog {p : Slot} {tail : ℕ} : s.pc p = .writeLog tail → tail < s.lh.length →
      LogStep s [] (s.setPc p (.writeLog (tail + 1)))
  | writeLogDone {p : Slot} {tail : ℕ} : s.pc p = .writeLog tail → s.lh.length ≤ tail →
      LogStep s [] (s.setPc p .writeHead)
  | writeHead {p : Slot} : s.pc p = .writeHead → LogStep s [] (s.setPc p (.install 0))
  | install {p : Slot} {tail b : ℕ} : s.pc p = .install tail → s.lh[tail]? = some b →
      LogStep s [] ((s.bunpin b).setPc p (.install (tail + 1)))
  | installDone {p : Slot} {tail : ℕ} : s.pc p = .install tail → s.lh.length ≤ tail →
      LogStep s [] (s.setPc p .clear)
  | clear {p : Slot} : s.pc p = .clear → LogStep s [] ((s.setLh []).setPc p .eraseHead)
  | eraseHead {p : Slot} : s.pc p = .eraseHead → LogStep s [] (s.setPc p .finish)
  -- the end of `end_op` after `commit`
  | finish {p : Slot} : s.pc p = .finish → s.Acquires p →
      LogStep s [] (((s.setCommitting false).setLock (some p)).setPc p (.finishWake 0))
  | finishReturn {p : Slot} : s.lock = some p → s.pc p = .finishWake NPROC →
      LogStep s [] ((s.setLock none).setPc p .idle)

/-- The log as `initlog` leaves it. -/
def LogSys.init : LogSys where
  lh := []
  outstanding := 0
  committing := false
  lock := none
  mode := fun _ => .awake
  pins := fun _ => 0
  pc := fun _ => .idle

end Xv6
