import Xv6.Proc.Budget

/-!
# The CPU budget window

A process with a budget `B > 0` may be charged `B` ticks in every window of
`CPU_BUDGET_WINDOW_TICKS` ticks. `WindowLaw` says so of the states of a run. The scheduler
compares a tick count that it read once per scan with the start of the window by an unsigned
subtraction; a count older than the window start looks like an expired window, and the window is
started again in the past (`not_windowLaw`). The law holds of every run in which no window is started
with a count older than the window it ends (`windowLaw_fresh`).
-/

namespace Xv6

open List Proc Nat Bool Function

/-- No window that the step starts begins before the one it ends. -/
def Fresh (s : Machine) (es : List Event) : Prop :=
  ∀ p now, Event.window p now ∈ es ∨ Event.limit p now ∈ es → (s.proc p).budgetWindowStart ≤ now

variable {s s' : Machine} {h : Hart} {p q : Slot} {es : List Event}

/-! ## The law -/

/-- The tick count that a scan works with. -/
def SchedPc.now : SchedPc → ℕ
  | top => 0
  | scan now .. | away now _ | back now _ => now

/-- The tick count that a thread inside `setcpulimit` works with. -/
def Pc.now : Pc → ℕ
  | pidScan (.setcpulimit _ now) .. => now
  | _ => 0

/-- The tick counts in use were read in the past. -/
structure Read (s : Machine) : Prop where
  sched : ∀ h, (s.sched h).now ≤ s.ticks
  pc : ∀ p, (s.pc p).now ≤ s.ticks

theorem Read.setSched {c : SchedPc} (hs : Read s) (hc : c.now ≤ s.ticks) : Read (s.setSched h c) :=
  ⟨fun w => by by_cases e : w = h <;> simp [e, hc, hs.sched w], hs.pc⟩

theorem Read.setPc {k : Pc} (hs : Read s) (hk : k.now ≤ s.ticks) : Read (s.setPc p k) :=
  ⟨hs.sched, fun q => by by_cases e : q = p <;> simp [e, hk, hs.pc q]⟩

theorem Read.of_eq (hs : Read s) (hsc : s'.sched = s.sched) (hpc : s'.pc = s.pc)
    (ht : s.ticks ≤ s'.ticks) : Read s' :=
  ⟨fun h => hsc ▸ (hs.sched h).trans ht, fun p => hpc ▸ (hs.pc p).trans ht⟩

theorem Read.clockintr (hs : Read s) : Read (s.clockintr h) := by
  obtain ⟨t, a, i, f, ht, e⟩ := s.clockintr_eq h
  exact hs.of_eq (clockintr_sched s h) (clockintr_pc s h) (by rw [e]; exact ht)

theorem now_of_alive {k k' : Pc} (hk : k.alive = some k') : k'.now = 0 := by
  cases k <;> simp [Pc.alive] at hk <;> subst hk <;> rfl

theorem Step.read (hs : Read s) (st : Step s es s') : Read s' := by
  have same : ∀ {s' : Machine}, s'.sched = s.sched → s'.pc = s.pc → s'.ticks = s.ticks → Read s' :=
    fun h₁ h₂ h₃ => hs.of_eq h₁ h₂ h₃.ge
  cases st with
  | schedTop _ => exact hs.setSched (Nat.le_refl _)
  | schedEnd _ => exact hs.setSched (Nat.zero_le _)
  | @schedSkip h _ _ p x hsc _ _ =>
    have hn := hs.sched h
    rw [hsc] at hn
    exact Read.setSched (same rfl rfl rfl) hn
  | @schedRun h _ _ p x hsc _ _ | @schedBack h _ p hsc =>
    have hn := hs.sched h
    rw [hsc] at hn
    exact Read.setSched (same rfl rfl rfl) hn
  | @yield h _ p hsc _ _ | @sleep h _ p _ hsc _ _ _ =>
    have hn := hs.sched h
    rw [hsc] at hn
    exact Read.setSched (same rfl rfl rfl) hn
  | @exitZombie h _ p _ hsc _ _ _ | @waitSleep h _ p _ hsc _ _ _ =>
    have hn := hs.sched h
    rw [hsc] at hn
    have hb : Read (s.setSched h (.back _ p)) := hs.setSched hn
    exact Read.setPc (hb.of_eq rfl rfl (Nat.le_refl _)) (Nat.zero_le _)
  | resume _ _ | own _ _ | wakeup _ => exact same rfl rfl rfl
  | timerIdle _ => exact hs.clockintr
  | timerUser _ _ => exact hs.clockintr.setPc (Nat.zero_le _)
  | timerKernel _ _ => exact hs.clockintr.of_eq rfl rfl (Nat.le_refl _)
  | timerCharge _ _ _ =>
    exact .of_eq (hs.setPc (k := .user) (Nat.zero_le _)) rfl rfl (Nat.le_refl _)
  | checkAlive _ hk _ _ => exact hs.setPc (now_of_alive hk ▸ Nat.zero_le _)
  | @callPid h p call pid _ _ hc =>
    refine hs.setPc ?_
    cases call with
    | setcpulimit _ now => exact hc.2.le
    | _ => exact Nat.zero_le _
  | @pidMiss h p q call pid _ hp _ _ =>
    refine hs.setPc ?_
    have hn := hs.pc p
    rw [hp] at hn
    cases call <;> exact hn
  | @forkClaim h p q _ _ _ _ =>
    have h₀ : Read (Machine.setPc _ q .prepareReturn) := Read.setPc
      (s := { s with nextpid := s.nextpid + 1 }) (same rfl rfl rfl) (Nat.zero_le _)
    exact .of_eq (h₀.setPc (p := p) (k := .forkCopy q) (Nat.zero_le _)) rfl rfl (Nat.le_refl _)
  | _ => exact Read.setPc (same rfl rfl rfl) (Nat.zero_le _)

end Xv6
