import Mathlib.Data.List.Infix
import Mathlib.Tactic.Common

/-!
# Radix trees in a memory of entries

Nodes of type `B` have entries `ent b k`, and `dec` reads an entry as the address of a child. The
node at a path is found by following the entries from a root. A change of entries moves no node whose
path does not go through a changed entry (`node_congr`).
-/

namespace Radix

variable {B K E : Type} (dec : E → B) {ent ent' : B → K → E} {r b : B} {i : K} {path p q : List K}

/-- The node at a path from the root `r`. -/
def node (ent : B → K → E) (r : B) : List K → B
  | [] => r
  | i :: path => node ent (dec (ent r i)) path

@[simp] theorem node_nil : node dec ent r [] = r := rfl

@[simp] theorem node_cons : node dec ent r (i :: path) = node dec ent (dec (ent r i)) path := rfl

theorem node_append : node dec ent r (p ++ q) = node dec ent (node dec ent r p) q := by
  induction p generalizing r with
  | nil => rfl
  | cons i p ih => exact ih

/-- No node is below an address all of whose entries lead back to it, such as the null address. -/
theorem node_of_fixed (h : ∀ k, dec (ent b k) = b) : node dec ent b path = b := by
  induction path with
  | nil => rfl
  | cons i path ih => rw [node_cons, h, ih]

/-- A change of the entries in `C` moves no node whose path does not go through `C`. -/
theorem node_congr {C : B → K → Prop} (h : ∀ b k, ¬ C b k → ent' b k = ent b k)
    (hp : ∀ q k rest, path = q ++ k :: rest → ¬ C (node dec ent r q) k) :
    node dec ent' r path = node dec ent r path := by
  induction path generalizing r with
  | nil => rfl
  | cons i path ih =>
    rw [node_cons, node_cons, h r i (hp [] i path rfl)]
    exact ih fun q k rest hq => hp (i :: q) k rest (by rw [hq, List.cons_append])

end Radix
