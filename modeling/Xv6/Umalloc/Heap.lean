import Mathlib.Algebra.BigOperators.Group.List.Basic
import Mathlib.Data.Int.Init
import Mathlib.Logic.Function.Basic
import Mathlib.Tactic.Ring
import Xv6.Lib.Prog

/-!
# The user-level allocator

`malloc` and `free` of `umalloc.c`. Memory is seen only through the headers of its blocks: the fields `ptr` and
`size` of the header at an address. Pointer arithmetic is in units of a header, 16 bytes; the size of a block
counts them, with its header, in a 32-bit number. The system call `sbrk` is outside of the model: `answers` are
the values that its next calls return.
-/

namespace Xv6

namespace Umalloc

structure Heap where
  ptr : ℕ → ℕ
  size : ℕ → ℕ
  freep : ℕ
  /-- The regions that `sbrk` returned: their addresses and their numbers of bytes. -/
  mem : List (ℕ × ℕ)
  /-- What `sbrk` returns next; `none` is `SBRK_ERROR`. -/
  answers : List (Option ℕ)

/-- Why a call does not return. -/
inductive Stuck
  /-- The bound on the number of steps was too small. -/
  | fuel
  /-- `sbrk` was called more often than it answers. -/
  | unanswered

abbrev HeapM : Type → Type := Prog Heap Stuck

def Heap.setPtr (h : Heap) (p q : ℕ) : Heap := { h with ptr := Function.update h.ptr p q }

/-- Assign to a size, a 32-bit number. -/
def Heap.setSize (h : Heap) (p n : ℕ) : Heap := { h with size := Function.update h.size p (n % 2 ^ 32) }

def Heap.setFreep (h : Heap) (p : ℕ) : Heap := { h with freep := p }

/-- `p` is the block of the free list behind which the block `bp` belongs. -/
def Heap.Stops (h : Heap) (bp p : ℕ) : Prop :=
  (p < bp ∧ bp < h.ptr p) ∨ (h.ptr p ≤ p ∧ (p < bp ∨ bp < h.ptr p))

instance (h : Heap) (bp p : ℕ) : Decidable (h.Stops bp p) := inferInstanceAs (Decidable (_ ∨ _))

/-- The loop of `free` from `p` on; `none` if it takes too many steps. -/
def freeFind (h : Heap) (bp : ℕ) : ℕ → ℕ → Option ℕ
  | 0, _ => none
  | n + 1, p => if h.Stops bp p then some p else freeFind h bp n (h.ptr p)

/-- The block `bp` gets the link of the block `p` before it; it is joined with the block that follows if that
is adjacent. -/
def joinUp (bp p : ℕ) (h : Heap) : Heap :=
  if bp + 16 * h.size bp = h.ptr p then
    (h.setSize bp (h.size bp + h.size (h.ptr p))).setPtr bp (h.ptr (h.ptr p))
  else h.setPtr bp (h.ptr p)

/-- The block `p` is joined with the block `bp` if that is adjacent, or linked to it. -/
def joinDown (bp p : ℕ) (h : Heap) : Heap :=
  if p + 16 * h.size p = bp then (h.setSize p (h.size p + h.size bp)).setPtr p (h.ptr bp)
  else h.setPtr p bp

/-- The block `bp` is put behind the block `p` of the free list. -/
def insertBlock (bp p : ℕ) (h : Heap) : Heap := (joinDown bp p (joinUp bp p h)).setFreep p

def free (fuel ap : ℕ) : HeapM Unit := do
  let bp := ap - 16
  let h ← Prog.get
  match freeFind h bp fuel h.freep with
  | none => Prog.panic .fuel
  | some p => Prog.modify (insertBlock bp p)

/-- The system call, as the program sees it: a new region of `n` bytes. -/
def sbrk (n : ℤ) : HeapM (Option ℕ) := do
  let h ← Prog.get
  match h.answers with
  | [] => Prog.panic .unanswered
  | none :: answers =>
    Prog.modify fun h => { h with answers := answers }
    pure none
  | some a :: answers =>
    Prog.modify fun h => { h with answers := answers, mem := (a, n.toNat) :: h.mem }
    pure (some a)

/-- A 64-bit number as an argument of type `int`. -/
def int (n : ℕ) : ℤ := Int.bmod n (2 ^ 32)

def morecore (fuel nu : ℕ) : HeapM (Option ℕ) := do
  let nu := if nu < 4096 then 4096 else nu
  match ← sbrk (int (nu * 16)) with
  | none => pure none
  | some hp =>
    Prog.modify fun h => h.setSize hp nu
    free fuel (hp + 16)
    let h ← Prog.get
    pure (some h.freep)

/-- Take `nunits` from the block `p`, which comes after `prevp` in the free list. -/
def take (nunits prevp p : ℕ) : HeapM (Option ℕ) := do
  let h ← Prog.get
  if h.size p = nunits then
    Prog.modify fun h => (h.setPtr prevp (h.ptr p)).setFreep prevp
    pure (some (p + 16))
  else
    -- the tail of the block
    let q := p + 16 * (h.size p - nunits)
    Prog.modify fun h => ((h.setSize p (h.size p - nunits)).setSize q nunits).setFreep prevp
    pure (some (q + 16))

/-- The loop of `malloc`. -/
def mallocLoop (nunits : ℕ) : ℕ → ℕ → ℕ → HeapM (Option ℕ)
  | 0, _, _ => Prog.panic .fuel
  | n + 1, prevp, p => do
    let h ← Prog.get
    if nunits ≤ h.size p then take nunits prevp p
    else if p = h.freep then
      match ← morecore n nunits with
      | none => pure none
      | some p =>
        let h ← Prog.get
        mallocLoop nunits n p (h.ptr p)
    else mallocLoop nunits n p (h.ptr p)

/-- The number of units of a block for `nbytes` bytes. -/
def units (nbytes : ℕ) : ℕ := ((nbytes + 15) / 16 + 1) % 2 ^ 32

/-- The empty free list consists of `base`. -/
def Heap.start (base : ℕ) (h : Heap) : Heap :=
  if h.freep = 0 then ((h.setPtr base base).setSize base 0).setFreep base else h

/-- `malloc` in a program with its `base` at the given address; `none` is the null pointer. -/
def malloc (base fuel nbytes : ℕ) : HeapM (Option ℕ) := do
  Prog.modify (Heap.start base)
  let h ← Prog.get
  mallocLoop (units nbytes) fuel h.freep (h.ptr h.freep)

end Umalloc

end Xv6
