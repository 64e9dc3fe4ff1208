import Xv6.Lib.Ring
import Xv6.Lib.Trans
import Xv6.Proc.Table

/-!
# Console input

The functions `consoleintr` and `consoleread` of `console.c`, run by the interrupt handler and any
processes in any interleaving. A call of `consoleintr` is one section under `cons.lock`. A reader keeps
the lock over the passes of its loop and gives it up in `sleep`; a step is one pass. A sleeping reader
may take the lock again at any time, as after a wakeup, and may find itself killed whenever it tests.
The indices are the 32-bit indices of the source.
-/

namespace Xv6

open Function

abbrev INPUT_BUF_SIZE : ℕ := 128

instance : NeZero INPUT_BUF_SIZE := ⟨Nat.succ_ne_zero 127⟩

/-- `cons`, without its lock. -/
structure Cons where
  buf : Fin INPUT_BUF_SIZE → UInt8
  r : UInt32
  w : UInt32
  e : UInt32

/-- `C(x)` -/
def ctrl (x : Char) : UInt8 := x.toUInt8 - '@'.toUInt8

/-- The delete key. -/
def del : UInt8 := 0x7f

def newline : UInt8 := '\n'.toUInt8

namespace Cons

/-- `cons.e--` -/
def erase (x : Cons) : Cons := { x with e := x.e - 1 }

/-- `cons.buf[(cons.e-1) % INPUT_BUF_SIZE]` -/
def last (x : Cons) : UInt8 := x.buf (Ring.index INPUT_BUF_SIZE (x.e - 1))

/-- `cons.buf[cons.e++ % INPUT_BUF_SIZE] = c` -/
def store (x : Cons) (c : UInt8) : Cons :=
  { x with buf := update x.buf (Ring.index INPUT_BUF_SIZE x.e) c, e := x.e + 1 }

/-- `cons.w = cons.e` -/
def commit (x : Cons) : Cons := { x with w := x.e }

/-- `cons.buf[cons.r % INPUT_BUF_SIZE]` -/
def front (x : Cons) : UInt8 := x.buf (Ring.index INPUT_BUF_SIZE x.r)

/-- `cons.r++` -/
def take (x : Cons) : Cons := { x with r := x.r + 1 }

/-- The loop of `C('U')`, for at most `k` passes. -/
def killLine : ℕ → Cons → Cons
  | 0, x => x
  | k + 1, x => if x.e ≠ x.w ∧ x.last ≠ newline then killLine k x.erase else x

/-- The `default` case of `consoleintr`. -/
def insert (x : Cons) (c : UInt8) : Cons :=
  if c ≠ 0 ∧ Ring.dist x.r x.e < INPUT_BUF_SIZE then
    let c := if c = '\r'.toUInt8 then newline else c
    let y := x.store c
    if c = newline ∨ c = ctrl 'D' ∨ Ring.dist y.r y.e = INPUT_BUF_SIZE then y.commit else y
  else x

/-- `consoleintr`, without the echo and `procdump`. The loop of `C('U')` has at most one pass for each
byte from `w` to `e`. -/
def intr (x : Cons) (c : UInt8) : Cons :=
  if c = ctrl 'P' then x
  else if c = ctrl 'U' then x.killLine (Ring.dist x.w x.e)
  else if c = ctrl 'H' ∨ c = del then (if x.e ≠ x.w then x.erase else x)
  else x.insert c

end Cons

/-- The arguments of `consoleread`: can `either_copyout` store at `dst + i`?, and `n`. -/
structure ConsArgs where
  dst : ℕ → Bool
  n : ℤ

/-- Where a process is: outside `consoleread`; before an acquisition of `cons.lock`, at the start or in
`sleep`; in the loop, with the lock. The number is the current `n`. -/
inductive ConsPc
  | idle
  | enter (a : ConsArgs) (n : ℤ)
  | loop (a : ConsArgs) (n : ℤ)

/-- What can be seen of the console: a byte that is typed, a call of `consoleread`, a byte stored for
the caller, and the result of a call. -/
inductive ConsEvent
  | typed (c : UInt8)
  | call (p : Slot) (a : ConsArgs)
  | deliver (p : Slot) (c : UInt8)
  | ret (p : Slot) (r : ℤ)

structure ConsSys where
  cons : Cons
  lock : Option Slot
  pc : Slot → ConsPc

namespace ConsSys

/-- The console after boot. -/
def init : ConsSys := ⟨⟨fun _ => 0, 0, 0, 0⟩, none, fun _ => .idle⟩

/-- `p` is now at `k`. -/
def goto (s : ConsSys) (p : Slot) (k : ConsPc) : ConsSys := { s with pc := update s.pc p k }

/-- `p` releases `cons.lock`, is now at `k` and leaves the buffer as `x`. -/
def leave (s : ConsSys) (p : Slot) (k : ConsPc) (x : Cons) : ConsSys :=
  { cons := x, lock := none, pc := update s.pc p k }

end ConsSys

/-- One step, with what is seen of it. -/
inductive ConsStep : ConsSys → List ConsEvent → ConsSys → Prop
  | intr {s : ConsSys} (c : UInt8) :
      s.lock = none → ConsStep s [.typed c] { s with cons := s.cons.intr c }
  | call {s : ConsSys} (p : Slot) (a : ConsArgs) :
      s.pc p = .idle → ConsStep s [.call p a] (s.goto p (.enter a a.n))
  | acquire {s : ConsSys} {p : Slot} {a : ConsArgs} {n : ℤ} :
      s.pc p = .enter a n → s.lock = none →
        ConsStep s [] { s.goto p (.loop a n) with lock := some p }
  /-- `n > 0` fails -/
  | done {s : ConsSys} {p : Slot} {a : ConsArgs} {n : ℤ} :
      s.pc p = .loop a n → n ≤ 0 → ConsStep s [.ret p (a.n - n)] (s.leave p .idle s.cons)
  | killed {s : ConsSys} {p : Slot} {a : ConsArgs} {n : ℤ} :
      s.pc p = .loop a n → 0 < n → s.cons.r = s.cons.w →
        ConsStep s [.ret p (-1)] (s.leave p .idle s.cons)
  | sleep {s : ConsSys} {p : Slot} {a : ConsArgs} {n : ℤ} :
      s.pc p = .loop a n → 0 < n → s.cons.r = s.cons.w →
        ConsStep s [] (s.leave p (.enter a n) s.cons)
  /-- control-D; `r` goes back to it if bytes have been copied -/
  | eof {s : ConsSys} {p : Slot} {a : ConsArgs} {n : ℤ} :
      s.pc p = .loop a n → 0 < n → s.cons.r ≠ s.cons.w → s.cons.front = ctrl 'D' →
        ConsStep s [.ret p (a.n - n)]
          (s.leave p .idle (if n < a.n then s.cons else s.cons.take))
  /-- `either_copyout` fails; the byte is lost -/
  | fault {s : ConsSys} {p : Slot} {a : ConsArgs} {n : ℤ} :
      s.pc p = .loop a n → 0 < n → s.cons.r ≠ s.cons.w → s.cons.front ≠ ctrl 'D' →
        a.dst (a.n - n).toNat = false →
        ConsStep s [.ret p (a.n - n)] (s.leave p .idle s.cons.take)
  | line {s : ConsSys} {p : Slot} {a : ConsArgs} {n : ℤ} :
      s.pc p = .loop a n → 0 < n → s.cons.r ≠ s.cons.w → s.cons.front = newline →
        a.dst (a.n - n).toNat = true →
        ConsStep s [.deliver p newline, .ret p (a.n - (n - 1))] (s.leave p .idle s.cons.take)
  | byte {s : ConsSys} {p : Slot} {a : ConsArgs} {n : ℤ} :
      s.pc p = .loop a n → 0 < n → s.cons.r ≠ s.cons.w → s.cons.front ≠ ctrl 'D' →
        s.cons.front ≠ newline → a.dst (a.n - n).toNat = true →
        ConsStep s [.deliver p s.cons.front]
          { s.goto p (.loop a (n - 1)) with cons := s.cons.take }

end Xv6
