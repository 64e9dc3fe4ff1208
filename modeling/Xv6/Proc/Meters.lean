import Xv6.Proc.Metered

/-!
# The two tick counts of a process

`clockintr` advances `cpuTicks` on every timer interrupt that finds the process running; `usertrap`
advances `ticksTotal` on those that came from user mode. Whenever the process is in user mode, the two
differ by the timer interrupts that it took in the kernel.
-/

namespace Xv6

open Proc

/-- The step is a timer interrupt of `p` in kernel mode, taken by `kerneltrap`. -/
def KernelTick (p : Slot) (s s' : Machine) : Prop :=
  ∃ h, s.Runs h p ∧ (s.pc p).preemptible = true ∧ s' = (s.clockintr h).setCtx p .yielding

/-- The steps, with the number of timer interrupts that the process in slot `p` took in kernel mode. -/
def CountStep (p : Slot) (c : Machine × ℕ) (es : List Event) (c' : Machine × ℕ) : Prop :=
  Step c.1 es c'.1 ∧ (KernelTick p c.1 c'.1 ∧ c'.2 = c.2 + 1 ∨
    ¬ KernelTick p c.1 c'.1 ∧ c'.2 = if (c.1.proc p).state = .unused then 0 else c.2)

/-- In a slot in use, `cpuTicks` is ahead by the ticks in the kernel and the tick that `usertrap` has yet
to count. -/
def Level (p : Slot) (k : ℕ) (s : Machine) : Prop :=
  (s.proc p).state ≠ .unused → ∀ n, (s.pc p).owed = some n →
    ((s.proc p).cpuTicks : ℤ) = (s.proc p).ticksTotal + n + k

/-- The slot that a `kfork` is filling has no ticks and no skips. -/
def FreshMeters (s : Machine) : Prop :=
  ∀ p q, s.pc p = .forkCopy q →
    (s.proc q).cpuTicks = 0 ∧ (s.proc q).ticksTotal = 0 ∧ (s.proc q).ecoSkipCounter = 0

variable {s s' : Machine} {es : List Event} {h : Hart} {p q : Slot} {k k' : ℕ}

/-- A visit of a slot that is not runnable changes nothing. -/
theorem visit_of_ne {now : ℕ} {x : Proc} (hx : x.state ≠ .runnable) : x.visit now = (x, false) := by
  simp [visit, hx]

theorem freshMeters_boot : FreshMeters Machine.boot := fun p q hp => by
  by_cases h0 : p = 0 <;> simp [Machine.boot, h0] at hp

/-- What the steps can do to a slot in state `USED` leaves fresh meters fresh. -/
theorem Metered.fresh (hm : Metered s s' q) (hs : Placed s) (hu : (s.proc q).state = .used)
    (hf : (s.proc q).cpuTicks = 0 ∧ (s.proc q).ticksTotal = 0 ∧ (s.proc q).ecoSkipCounter = 0) :
    (s'.proc q).cpuTicks = 0 ∧ (s'.proc q).ticksTotal = 0 ∧ (s'.proc q).ecoSkipCounter = 0 := by
  cases hm with
  | keep hk _ => simpa [hk.ticks, hk.total, hk.counter] using hf
  | skip _ hv =>
    rw [visit_of_ne (by simp [hu]), Prod.mk.injEq] at hv
    rwa [← hv.1]
  | run _ hv => simp [runnable_of_visit hv] at hu
  | tickUser hr | tickKernel hr | charge hr => simp [hs.running_of_runs hr] at hu
  | @call _ c _ _ _ _ e _ => cases c <;> simp [e, PidCall.act, hf]
  | claim hu' => simp [hu'] at hu
  | inherit _ e => simp [e, forkInherit]
  | free e => simp [e, freeproc, empty]

theorem Step.freshMeters (hs : Placed s) (hf : FreshMeters s) (st : Step s es s') : FreshMeters s' := by
  intro p q hp
  rcases st.building (q := q) (by rw [hp]; rfl) with hsame | ⟨-, hrel⟩ | ⟨-, hx⟩
  · have hp' : s.pc p = .forkCopy q := hsame ▸ hp
    exact (st.metered hs q).fresh hs (hs.used_of_child (by rw [hp']; rfl)) (hf p q hp')
  · simp [hrel] at hp
  · simp [hx, forkCopy, allocproc]

/-- The machine's threads are placed and the slots being filled are fresh. -/
theorem Runs.freshMeters {tr : List Event} (hr : Runs tr s) : FreshMeters s := by
  have h : Placed s ∧ FreshMeters s :=
    Trans.Run.invariant (I := fun _ s => Placed s ∧ FreshMeters s) ⟨placed_boot, freshMeters_boot⟩
      (fun _ _ _ _ hs st => ⟨st.placed hs.1, st.freshMeters hs.1 hs.2⟩) hr
  exact h.2

theorem level_boot : Level p 0 Machine.boot := fun _ n hn => by
  by_cases h0 : p = 0 <;> simp [Machine.boot, h0, Pc.owed] at hn <;> subst hn <;>
    simp [Machine.boot, h0, allocproc, empty]

/-- A step that leaves both counts alone and owes no more. -/
theorem Level.keep (hl : Level p k s) (hu : (s'.proc p).state = .unused ↔ (s.proc p).state = .unused)
    (hc : (s'.proc p).cpuTicks = (s.proc p).cpuTicks)
    (ht : (s'.proc p).ticksTotal = (s.proc p).ticksTotal)
    (ho : (s'.pc p).owed = (s.pc p).owed ∨ (s'.pc p).owed = none) : Level p k s' := fun hu' n hn => by
  rw [hc, ht]
  rcases ho with ho | ho
  · exact hl (hu' ∘ hu.2) n (ho ▸ hn)
  · simp [ho] at hn

/-- A slot that was free is free or holds a process without ticks. -/
theorem Metered.level_of_unused (hm : Metered s s' p) (hs : Placed s)
    (hu : (s.proc p).state = .unused) : Level p 0 s' := by
  have free : (s'.proc p).state = .unused → Level p 0 s' := fun h hn => absurd h hn
  cases hm with
  | keep hk _ => exact free (hk.unused.2 hu)
  | @skip h now found hsc hv _ _ =>
    exact free ((visited hv).state.trans hu)
  | run _ hv => simp [runnable_of_visit hv] at hu
  | tickUser hr | tickKernel hr | charge hr => simp [hs.running_of_runs hr] at hu
  | @call _ c _ _ _ _ e _ => exact free (by rw [e]; exact (pidCall_unused c _).2 hu)
  | claim _ e ho =>
    intro _ n hn
    obtain rfl : 0 = n := by simpa [ho] using hn
    simp [e, forkCopy, allocproc]
  | inherit hpc e ho => simp [hs.used_of_child (q := p) (by rw [hpc]; rfl)] at hu
  | free e => exact free (by rw [e]; rfl)

/-- What a step does to the two counts, if it is not a tick in the kernel. -/
theorem Metered.level (hm : Metered s s' p) (hs : Placed s) (hf : FreshMeters s) (hl : Level p k s)
    (hk : ¬ KernelTick p s s') (hk' : k' = if (s.proc p).state = .unused then 0 else k) :
    Level p k' s' := by
  by_cases hu : (s.proc p).state = .unused
  · rw [if_pos hu] at hk'
    subst hk'
    exact hm.level_of_unused hs hu
  rw [if_neg hu] at hk'
  subst hk'
  cases hm with
  | keep hk ho => exact hl.keep hk.unused hk.ticks hk.total ho
  | @skip h now found hsc hv _ hpc =>
    have h := visited hv
    exact hl.keep (by rw [h.state]) h.cpuTicks h.ticksTotal (.inl (by rw [hpc]))
  | @run h now found x hsc hv e _ hpc =>
    refine hl.keep (by simp [e, Proc.dispatch, runnable_of_visit hv]) ?_ ?_ (.inl (by rw [hpc]))
    · rw [e]
      exact (visited hv).cpuTicks
    · rw [e]
      exact (visited hv).ticksTotal
  | tickUser hr hpc hpc' e =>
    -- the tick that `usertrap` now owes
    intro _ n hn
    have h0 := hl (by simp [hs.running_of_runs hr]) 0 (by rw [hpc]; rfl)
    obtain rfl : 1 = n := by simpa [hpc', Pc.owed] using hn
    rw [e]
    push_cast
    omega
  | tickKernel hr hp hs' => exact absurd ⟨_, hr, hp, hs'⟩ hk
  | charge hr hpc hpc' e =>
    intro _ n hn
    have h1 := hl (by simp [hs.running_of_runs hr]) 1 (by rw [hpc]; rfl)
    obtain rfl : 0 = n := by simpa [hpc', Pc.owed] using hn
    rw [e]
    simp only [Proc.charge]
    push_cast at h1 ⊢
    omega
  | @call _ c _ _ _ _ e ho =>
    have hc : (c.act (s.proc p)).cpuTicks = (s.proc p).cpuTicks := by cases c <;> rfl
    have ht : (c.act (s.proc p)).ticksTotal = (s.proc p).ticksTotal := by cases c <;> rfl
    exact hl.keep (by rw [e]; exact pidCall_unused c _) (by rw [e, hc]) (by rw [e, ht]) (.inl ho)
  | claim hu' => exact absurd hu' hu
  | inherit hpc e ho =>
    obtain ⟨hc, ht, -⟩ := hf _ _ hpc
    exact hl.keep (by rw [e]; rfl) (by simp [e, forkInherit, hc]) (by simp [e, forkInherit, ht]) (.inl ho)
  | free e => exact fun hu => absurd (by rw [e]; rfl) hu

/-- A timer interrupt in kernel mode is in `cpuTicks` only. -/
theorem KernelTick.level (hs : Placed s) (hl : Level p k s) (hk : KernelTick p s s') :
    Level p (k + 1) s' := by
  obtain ⟨h, hr, -, rfl⟩ := hk
  intro _ n hn
  have h0 := hl (by simp [hs.running_of_runs hr]) n (by simpa [clockintr_pc] using hn)
  rw [Machine.setCtx_proc, clockintr_proc_of_runs hs hr]
  push_cast
  omega

theorem CountStep.level {c c' : Machine × ℕ} (hs : Placed c.1) (hf : FreshMeters c.1)
    (hl : Level p c.2 c.1) (st : CountStep p c es c') : Level p c'.2 c'.1 := by
  rcases st.2 with ⟨hk, he⟩ | ⟨hk, he⟩
  · rw [he]
    exact hk.level hs hl
  · exact (st.1.metered hs p).level hs hf hl hk he

/-- **When the two counts agree.** Every run counts the timer interrupts that the process in a slot took
in kernel mode, and whenever that process is in user mode, `getcputicks` reports what `proccost` and
`getusagestats` report if and only if there were none. -/
theorem tick_counts_agree (p : Slot) :
    (∀ tr s, Runs tr s → ∃ k, Trans.Run (CountStep p) (Machine.boot, 0) tr (s, k)) ∧
    ∀ tr s h k, Trans.Run (CountStep p) (Machine.boot, 0) tr (s, k) → s.Runs h p → s.pc p = .user →
      ((s.proc p).ticksTotal = (s.proc p).cpuTicks ↔ k = 0) := by
  constructor
  · intro tr s hr
    refine hr.invariant (I := fun tr s => ∃ k, Trans.Run (CountStep p) (Machine.boot, 0) tr (s, k))
      ⟨0, .refl⟩ fun tr s es s' ⟨k, hk⟩ st => ?_
    by_cases ht : KernelTick p s s'
    · exact ⟨k + 1, hk.tail ⟨st, .inl ⟨ht, rfl⟩⟩⟩
    · exact ⟨_, hk.tail ⟨st, .inr ⟨ht, rfl⟩⟩⟩
  · intro tr s h k hr hu hp
    have hi : Placed s ∧ FreshMeters s ∧ Level p k s :=
      hr.invariant (I := fun _ c => Placed c.1 ∧ FreshMeters c.1 ∧ Level p c.2 c.1)
        ⟨placed_boot, freshMeters_boot, level_boot⟩ fun _ _ _ _ hs st =>
          ⟨st.1.placed hs.1, st.1.freshMeters hs.1 hs.2.1, st.level hs.1 hs.2.1 hs.2.2⟩
    have h0 := hi.2.2 (by simp [hi.1.running_of_runs hu]) 0 (by rw [hp]; rfl)
    push_cast at h0
    omega

/-- The first process takes one timer interrupt in user mode and comes back. -/
theorem tick_counts_agree_one_tick : ∃ tr s,
    Trans.Run (CountStep 0) (Machine.boot, 0) tr (s, 0) ∧ s.Runs 1 0 ∧ s.pc 0 = .user ∧
    (s.proc 0).cpuTicks = 1 ∧ (s.proc 0).ticksTotal = (s.proc 0).cpuTicks := by
  have count : ∀ {s s' : Machine} {es : List Event}, Step s es s' → (s.proc 0).state ≠ .unused →
      (s.pc 0).preemptible = false ∨ s'.ctx 0 ≠ .yielding → CountStep 0 (s, 0) es (s', 0) :=
    fun st hu hc => ⟨st, .inr ⟨fun ⟨_, _, hk, e⟩ => by
      rcases hc with hc | hc
      · simp [hc] at hk
      · exact hc ((congrArg (·.ctx 0) e).trans (by simp)), (if_neg hu).symm⟩⟩
  have hr := (Trans.Run.refl : Trans.Run (CountStep 0) (Machine.boot, 0) [] _)
    |>.tail (count (@Step.schedTop Machine.boot 0 rfl) (by decide) (by decide))
    |>.tail (count (@Step.schedRun _ 0 0 false 0 _ rfl rfl rfl) (by decide) (by decide))
    |>.tail (count (@Step.resume _ 0 0 0 false rfl rfl) (by decide) (by decide))
    |>.tail (count (@Step.prepareReturn _ 0 0 ⟨⟨0, rfl⟩, rfl⟩ rfl) (by decide) (by decide))
    |>.tail (count (@Step.timerUser _ 0 0 ⟨⟨0, rfl⟩, rfl⟩ rfl) (by decide) (by decide))
    |>.tail (count (@Step.checkAlive _ 0 0 _ ⟨⟨0, rfl⟩, rfl⟩ rfl rfl rfl) (by decide) (by decide))
    |>.tail (count (@Step.timerCharge _ 0 0 ⟨⟨0, rfl⟩, rfl⟩ rfl rfl) (by decide) (by decide))
    |>.tail (count (@Step.yield _ 0 0 0 rfl rfl rfl) (by decide) (by decide))
    |>.tail (count (@Step.schedBack _ 0 0 0 rfl) (by decide) (by decide))
    |>.tail (count (@Step.schedTop _ 1 rfl) (by decide) (by decide))
    |>.tail (count (@Step.schedRun _ 1 1 false 0 _ rfl rfl rfl) (by decide) (by decide))
    |>.tail (count (@Step.resume _ 1 1 0 false rfl rfl) (by decide) (by decide))
  exact ⟨_, _, hr, ⟨⟨1, rfl⟩, rfl⟩, rfl, by decide +kernel,
    ((tick_counts_agree 0).2 _ _ 1 0 hr ⟨⟨1, rfl⟩, rfl⟩ rfl).2 rfl⟩

/-- The first process takes one timer interrupt inside a system call and returns to user mode. -/
theorem tick_counts_differ : ∃ tr s, Runs tr s ∧ s.Runs 1 0 ∧ s.pc 0 = .user ∧
    (s.proc 0).ticksTotal = 0 ∧ (s.proc 0).cpuTicks = 1 := by
  have hr := (Trans.Run.refl : Trans.Run Step Machine.boot [] _)
    |>.tail (@Step.schedTop Machine.boot 0 rfl)
    |>.tail (@Step.schedRun _ 0 0 false 0 _ rfl rfl rfl)
    |>.tail (@Step.resume _ 0 0 0 false rfl rfl)
    |>.tail (@Step.prepareReturn _ 0 0 ⟨⟨0, rfl⟩, rfl⟩ rfl)
    |>.tail (@Step.checkAlive _ 0 0 .kernel ⟨⟨0, rfl⟩, rfl⟩ rfl rfl rfl)
    |>.tail (@Step.timerKernel _ 0 0 ⟨⟨0, rfl⟩, rfl⟩ rfl)
    |>.tail (@Step.yield _ 0 0 0 rfl rfl rfl)
    |>.tail (@Step.schedBack _ 0 0 0 rfl)
    |>.tail (@Step.schedTop _ 1 rfl)
    |>.tail (@Step.schedRun _ 1 1 false 0 _ rfl rfl rfl)
    |>.tail (@Step.resume _ 1 1 0 false rfl rfl)
    |>.tail (@Step.checkAlive _ 1 0 _ ⟨⟨1, rfl⟩, rfl⟩ rfl rfl rfl)
    |>.tail (@Step.prepareReturn _ 1 0 ⟨⟨1, rfl⟩, rfl⟩ rfl)
  exact ⟨_, _, hr, ⟨⟨1, rfl⟩, rfl⟩, rfl, by decide +kernel, by decide +kernel⟩

end Xv6
