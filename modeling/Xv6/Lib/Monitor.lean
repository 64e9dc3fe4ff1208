import Mathlib.Order.Nat
import Mathlib.Tactic.Common

/-!
# Condition locks and sleep channels

Threads `0, …, n-1` share data under one lock and sleep on channels until the data changes. To sleep,
a thread takes its own lock, releases the condition lock and only then is asleep; in between it is
`drowsy`, and whoever wants to wake it waits for it. To wake a channel, the owner of the condition
lock visits all threads in order. Other parties may wake any thread at any time.

`Watched m calm debt` is the invariant that excludes stranded sleepers: a thread sleeps on `c` only if
it should (`calm c`), or if the owner of the condition lock has yet to visit it (`debt c` is the first
thread that the owner will still visit for `c`).
-/

namespace Monitor

open Function

/-- What a thread does with respect to the channels `C`. -/
inductive Mode (C : Type)
  | awake
  | drowsy (c : C)
  | asleep (c : C)
  deriving DecidableEq

variable {n : ℕ} {C : Type}

/-- The thread has gone to sleep on `c` or is about to. -/
def Mode.On (c : C) : Mode C → Prop
  | awake => False
  | drowsy c' => c' = c
  | asleep c' => c' = c

/-- The section of a wakeup of `c` on one thread. -/
def Mode.rouse [DecidableEq C] (c : C) : Mode C → Mode C
  | asleep c' => if c' = c then awake else asleep c'
  | m => m

/-- Wake the thread whatever it sleeps on. -/
def Mode.jolt : Mode C → Mode C
  | asleep _ => awake
  | m => m

/-- The thread holds its own lock on the way to sleep. -/
def Mode.Drowsy (m : Mode C) : Prop := ∃ c, m = drowsy c

@[simp] theorem Mode.not_on_awake (c : C) : ¬ (awake : Mode C).On c := id

theorem Mode.on_of_rouse [DecidableEq C] {c d : C} {m : Mode C} (h : (m.rouse d).On c) : m.On c := by
  cases m with
  | asleep c' =>
    simp only [rouse] at h
    split at h
    · exact h.elim
    · exact h
  | _ => exact h

theorem Mode.on_of_jolt {c : C} {m : Mode C} (h : m.jolt.On c) : m.On c := by
  cases m with
  | asleep c' => exact h.elim
  | _ => exact h

/-- A thread that is not drowsy does not sleep on a channel after a visit for it. -/
theorem Mode.not_on_rouse [DecidableEq C] {c : C} {m : Mode C} (h : ¬ m.Drowsy) : ¬ (m.rouse c).On c := by
  cases m with
  | awake => exact id
  | drowsy c' => exact absurd ⟨c', rfl⟩ h
  | asleep c' =>
    simp only [rouse]
    split
    · exact id
    · rename_i hne
      exact hne

/-- No thread is stranded: sleepers are where they should be or will be visited. -/
def Watched (mode : Fin n → Mode C) (calm : C → Prop) (debt : C → ℕ) : Prop :=
  ∀ q c, (mode q).On c → calm c ∨ debt c ≤ q

namespace Watched

variable {mode mode' : Fin n → Mode C} {calm calm' : C → Prop} {debt debt' : C → ℕ} {t q : Fin n}
  {c : C}

/-- With no visits to come, a sleeper is where it should be. -/
theorem calm_of_asleep (h : Watched mode calm debt) (hd : ∀ c, n ≤ debt c) (hq : mode q = .asleep c) :
    calm c := by
  rcases h q c (by rw [hq]; rfl) with hc | hc
  · exact hc
  · have := hd c
    omega

/-- Threads wake up, channels calm down, and visits are added. -/
theorem mono (h : Watched mode calm debt) (hm : ∀ q c, (mode' q).On c → (mode q).On c)
    (hc : ∀ c, calm c → calm' c ∨ debt' c = 0) (hd : ∀ c, debt' c ≤ debt c) :
    Watched mode' calm' debt' := fun q c hq => by
  rcases h q c (hm q c hq) with h' | h'
  · exact (hc c h').imp_right fun e => by omega
  · exact .inr ((hd c).trans h')

/-- A thread goes to sleep on a calm channel. -/
theorem doze (h : Watched mode calm debt) (hc : calm c) :
    Watched (update mode t (.drowsy c)) calm debt := fun q d hq => by
  by_cases e : q = t
  · subst e
    rw [update_self] at hq
    cases (show c = d from hq)
    exact .inl hc
  · rw [update_of_ne e] at hq
    exact h q d hq

/-- The drowsy thread is asleep. -/
theorem sleep (h : Watched mode calm debt) (ht : mode t = .drowsy c) :
    Watched (update mode t (.asleep c)) calm debt :=
  h.mono (fun q d hq => by
    by_cases e : q = t
    · subst e
      rw [update_self] at hq
      rw [ht]
      exact hq
    · rwa [update_of_ne e] at hq) (fun _ => .inl) fun _ => le_rfl

/-- A thread wakes up for a reason of its own. -/
theorem jolt (h : Watched mode calm debt) :
    Watched (update mode t (mode t).jolt) calm debt :=
  h.mono (fun q d hq => by
    by_cases e : q = t
    · subst e
      rw [update_self] at hq
      exact Mode.on_of_jolt hq
    · rwa [update_of_ne e] at hq) (fun _ => .inl) fun _ => le_rfl

/-- The owner visits the thread `q` for `c`. -/
theorem visit [DecidableEq C] (h : Watched mode calm debt) (hq : ¬ (mode q).Drowsy)
    (hd : debt c = q) (hd' : debt' = update debt c (q + 1)) :
    Watched (update mode q ((mode q).rouse c)) calm debt' := fun p d hp => by
  subst hd'
  have hon : (mode p).On d := by
    by_cases e : p = q
    · subst e
      rw [update_self] at hp
      exact Mode.on_of_rouse hp
    · rwa [update_of_ne e] at hp
  refine (h p d hon).imp_right fun hle => ?_
  by_cases hdc : d = c
  · subst hdc
    rw [update_self]
    have hne : p ≠ q := fun e => by
      subst e
      rw [update_self] at hp
      exact Mode.not_on_rouse hq hp
    have : (p : ℕ) ≠ q := fun e => hne (Fin.ext e)
    omega
  · rwa [update_of_ne hdc]

/-- The owner skips a thread that does not sleep on `c`, such as itself. -/
theorem skip [DecidableEq C] (h : Watched mode calm debt) (hq : ¬ (mode q).On c)
    (hd : debt c = q) (hd' : debt' = update debt c (q + 1)) :
    Watched mode calm debt' := fun p d hp => by
  subst hd'
  refine (h p d hp).imp_right fun hle => ?_
  by_cases hdc : d = c
  · subst hdc
    rw [update_self]
    have hne : (p : ℕ) ≠ q := fun e => hq (Fin.ext e ▸ hp)
    omega
  · rwa [update_of_ne hdc]

end Watched

end Monitor
