import Xv6.Proc.Identity

/-!
# What a step does to the meters of a process

A process carries its pid, its power mode with the ECO counter, and two tick counts: `cpuTicks`, which
`clockintr` advances, and `ticksTotal`, which `usertrap` advances after it. `Step.metered` says once
what a step can do to these fields of one slot and, with them, where the slot's thread goes; the
modules that follow read their invariants off it. `Step.scheduled` does the same for the scheduler of
one hart.
-/

namespace Xv6

open Function Machine

/-- How far `cpuTicks` is ahead of `ticksTotal` while the thread is there: `usertrap` counts the tick
of a timer interrupt after `clockintr` has. A thread in `kexit` never goes back to user mode. -/
def Pc.owed : Pc → Option ℕ
  | timerKilled | timerCharge => some 1
  | exitClose .. | exitLock _ | exitReparent .. | exitWakeInit .. | exitWakeParent .. | exitZombie _
  | exited => none
  | _ => some 0

/-- Two records of one process with the same meters. -/
structure SameMeters (x y : Proc) : Prop where
  pid : y.pid = x.pid
  unused : y.state = .unused ↔ x.state = .unused
  mode : y.powerMode = x.powerMode
  counter : y.ecoSkipCounter = x.ecoSkipCounter
  ticks : y.cpuTicks = x.cpuTicks
  total : y.ticksTotal = x.ticksTotal

/-- What a step can do to the meters of the slot `q`. -/
inductive Metered (s s' : Machine) (q : Slot) : Prop
  | keep : SameMeters (s.proc q) (s'.proc q) →
      ((s'.pc q).owed = (s.pc q).owed ∨ (s'.pc q).owed = none) → Metered s s' q
  | skip {h : Hart} {now : ℕ} {found : Bool} : s.sched h = .scan now found q →
      (s.proc q).visit now = (s'.proc q, false) → s'.sched h = .scan now found (q + 1) →
      s'.pc q = s.pc q → Metered s s' q
  | run {h : Hart} {now : ℕ} {found : Bool} {x : Proc} : s.sched h = .scan now found q →
      (s.proc q).visit now = (x, true) → s'.proc q = x.dispatch → s'.sched h = .away now q →
      s'.pc q = s.pc q → Metered s s' q
  | tickUser {h : Hart} : s.Runs h q → s.pc q = .user → s'.pc q = .timerKilled →
      s'.proc q = { s.proc q with cpuTicks := (s.proc q).cpuTicks + 1 } → Metered s s' q
  | tickKernel {h : Hart} : s.Runs h q → (s.pc q).preemptible = true →
      s' = (s.clockintr h).setCtx q .yielding →
      s'.proc q = { s.proc q with cpuTicks := (s.proc q).cpuTicks + 1 } → Metered s s' q
  | charge {h : Hart} : s.Runs h q → s.pc q = .timerCharge → s'.pc q = .user →
      s'.proc q = (s.proc q).charge → Metered s s' q
  | call {p : Slot} {c : PidCall} {pid : ℤ} : s.pc p = .pidScan c pid q →
      c.hit pid (s.proc q) = true → s'.pc p = .kernel → s'.proc q = c.act (s.proc q) →
      (s'.pc q).owed = (s.pc q).owed → Metered s s' q
  | claim {x : Proc} : (s.proc q).state = .unused →
      s'.proc q = forkCopy x (allocproc s.nextpid (s.proc q)) → (s'.pc q).owed = some 0 →
      Metered s s' q
  | inherit {p : Slot} : s.pc p = .forkCopy q → s'.proc q = forkInherit (s.proc p) (s.proc q) →
      (s'.pc q).owed = (s.pc q).owed → Metered s s' q
  | free : s'.proc q = freeproc (s.proc q) → ((s.proc q).state = .unused ∨ (s.proc q).state = .zombie) →
      (s'.pc q).owed = (s.pc q).owed ∨ (s'.pc q).owed = none → Metered s s' q

variable {s s' : Machine} {es : List Event} {h : Hart} {p q : Slot}

theorem SameMeters.refl (x : Proc) : SameMeters x x := ⟨rfl, Iff.rfl, rfl, rfl, rfl, rfl⟩

theorem wakeup_kept (chan : Option Chan) (x : Proc) : SameMeters x (x.wakeup chan) := by
  unfold Proc.wakeup
  split <;> rename_i hw
  · exact ⟨rfl, by simp [hw.1], rfl, rfl, rfl, rfl⟩
  · exact .refl x

/-- A record that gets another state, in a slot that is in use before and after. -/
theorem SameMeters.of_state {x y : Proc} (hx : x.state ≠ .unused) (hy : y.state ≠ .unused) (hp : y.pid = x.pid)
    (hm : y.powerMode = x.powerMode) (hc : y.ecoSkipCounter = x.ecoSkipCounter)
    (ht : y.cpuTicks = x.cpuTicks) (hl : y.ticksTotal = x.ticksTotal) : SameMeters x y :=
  ⟨hp, by simp [hx, hy], hm, hc, ht, hl⟩

/-- The update of one slot keeps the meters of all. -/
theorem kept_update {x : Proc} (hx : SameMeters (s.proc p) x) (q : Slot) :
    SameMeters (s.proc q) (update s.proc p x q) := by
  by_cases hq : q = p
  · subst hq
    simpa using hx
  · simpa [hq] using SameMeters.refl (s.proc q)

/-- A thread moves on to a place from which it owes as much. -/
theorem owed_update {k k' : Pc} (hp : s.pc p = k') (hk : k.owed = k'.owed ∨ k.owed = none) (q : Slot) :
    (update s.pc p k q).owed = (s.pc q).owed ∨ (update s.pc p k q).owed = none := by
  by_cases hq : q = p
  · subst hq
    simpa [hp] using hk
  · simp [hq]

theorem clockintr_proc_of_ne (hc : s.cpu h ≠ some q) : (s.clockintr h).proc q = s.proc q := by
  simp [clockintr, hc]

theorem Placed.cpu_of_runs (hs : Placed s) (hr : s.Runs h p) : s.cpu h = some p := by
  obtain ⟨⟨now, hsc⟩, -⟩ := hr
  simp [hs.cpu, hsc, SchedPc.place, Dispatch.Place.task]

theorem clockintr_proc_of_runs (hs : Placed s) (hr : s.Runs h p) :
    (s.clockintr h).proc p = { s.proc p with cpuTicks := (s.proc p).cpuTicks + 1 } := by
  simp [clockintr, hs.cpu_of_runs hr, hs.running_of_runs hr]

theorem Step.metered (hs : Placed s) (st : Step s es s') (q : Slot) : Metered s s' q := by
  have still : ∀ r, (s.pc r).owed = (s.pc r).owed ∨ (s.pc r).owed = none := fun r => .inl rfl
  cases st with
  | schedTop | schedEnd | schedBack => exact .keep (.refl _) (still q)
  | @schedSkip h now found p x hsc hl hv =>
    by_cases hq : q = p
    · subst hq
      exact .skip hsc (by simpa using hv) (by simp) rfl
    · exact .keep (by simpa [hq] using SameMeters.refl _) (still q)
  | @schedRun h now found p x hsc hl hv =>
    by_cases hq : q = p
    · subst hq
      exact .run hsc hv (by simp) (by simp) rfl
    · exact .keep (by simpa [hq] using SameMeters.refl _) (still q)
  | resume => exact .keep (kept_update (by constructor <;> rfl) q) (still q)
  | @timerIdle h hsc =>
    have hc : s.cpu h ≠ some q := by simp [hs.cpu_of_idle hsc]
    refine .keep (by simpa [clockintr_proc_of_ne hc] using SameMeters.refl _) ?_
    rw [clockintr_pc]
    exact still q
  | @timerUser h p hr hp =>
    by_cases hq : q = p
    · subst hq
      exact .tickUser hr hp (by simp) (by simpa using clockintr_proc_of_runs hs hr)
    · have hc : s.cpu h ≠ some q := by simpa [hs.cpu_of_runs hr] using fun e => hq e.symm
      refine .keep (by simpa [clockintr_proc_of_ne hc] using SameMeters.refl _) (.inl ?_)
      simp [hq, clockintr_pc]
  | @timerKernel h p hr hp =>
    by_cases hq : q = p
    · subst hq
      exact .tickKernel hr hp rfl (by simpa using clockintr_proc_of_runs hs hr)
    · have hc : s.cpu h ≠ some q := by simpa [hs.cpu_of_runs hr] using fun e => hq e.symm
      refine .keep (by simpa [clockintr_proc_of_ne hc] using SameMeters.refl _) (.inl ?_)
      simp [clockintr_pc]
  | @timerCharge h p hr hp hl =>
    by_cases hq : q = p
    · subst hq
      exact .charge hr hp (by simp) (by simp)
    · exact .keep (by simpa [hq] using SameMeters.refl _) (.inl (by simp [hq]))
  | yield hsc | sleep hsc =>
    exact .keep (kept_update (by exact .of_state (by simp [hs.running hsc]) (by simp) rfl rfl rfl rfl rfl) q)
      (still q)
  | @checkAlive h p k hr hk =>
    refine .keep (.refl _) (owed_update rfl ?_ q)
    cases hp : s.pc p <;> simp [hp, Pc.alive] at hk <;> subst hk <;> exact .inl rfl
  | @prepareReturn h p hr hk =>
    refine .keep (.refl _) (owed_update rfl ?_ q)
    cases hp : s.pc p <;> simp [hp, Pc.returns] at hk <;> exact .inl rfl
  | checkKilled | callExit => exact .keep (.refl _) (owed_update rfl (by exact .inr rfl) q)
  | setkilled _ hp | forkParent _ hp =>
    exact .keep (kept_update (by constructor <;> rfl) q) (owed_update hp (by exact .inl rfl) q)
  | @own h p u =>
    refine .keep (kept_update ?_ q) (still q)
    cases u <;> exact ⟨rfl, Iff.rfl, rfl, rfl, rfl, rfl⟩
  | wakeup => exact .keep (kept_update (wakeup_kept ..) q) (still q)
  | callPid _ hp | pidMiss _ hp | pidEnd _ hp | callFork _ hp | forkBusy _ hp | forkFull _ hp
  | forkRelease _ hp | callWait _ hp | waitLock _ hp | waitOther _ hp | waitChild _ hp
  | waitFault _ hp | waitNone _ hp | waitKilled _ hp | waitAlive _ hp =>
    exact .keep (.refl _) (owed_update hp (by exact .inl rfl) q)
  | @pidHit h p r c pid hr hp hl hh =>
    have ho : (update s.pc p Pc.kernel q).owed = (s.pc q).owed := by
      by_cases hq : q = p
      · subst hq
        simp [hp, Pc.owed]
      · simp [hq]
    by_cases hq : q = r
    · subst hq
      exact .call hp hh (by simp) (by simp) ho
    · exact .keep (by simpa [hq] using SameMeters.refl _) (.inl ho)
  | @forkFail h p r _ hp _ hu =>
    by_cases hq : q = r
    · subst hq
      exact .free (by simp) (.inl hu) (owed_update hp (by exact .inl rfl) q)
    · exact .keep (by simpa [hq] using SameMeters.refl _) (owed_update hp (by exact .inl rfl) q)
  | @forkClaim h p r hr hp _ hu =>
    have hne : p ≠ r := fun e => by simp [← e, hs.running_of_runs hr] at hu
    by_cases hq : q = r
    · subst hq
      exact .claim (x := s.proc p) hu (by simp [claim]) (by simp [claim, hne.symm, Pc.owed])
    · refine .keep (by simpa [claim, hq] using SameMeters.refl _) (.inl ?_)
      by_cases hqp : q = p
      · subst hqp
        simp [claim, hp, Pc.owed]
      · simp [claim, hq, hqp]
  | @forkInherit h p r _ hp =>
    have ho : (update s.pc p (Pc.forkRelease r) q).owed = (s.pc q).owed := by
      by_cases hq : q = p
      · subst hq
        simp [hp, Pc.owed]
      · simp [hq]
    by_cases hq : q = r
    · subst hq
      exact .inherit hp (by simp) ho
    · exact .keep (by simpa [hq] using SameMeters.refl _) (.inl ho)
  | forkReady _ hp =>
    have hu := hs.used_of_child (show (s.pc _).child = _ by rw [hp]; rfl)
    exact .keep (kept_update (by exact .of_state (by simp [hu]) (by simp) rfl rfl rfl rfl rfl) q)
      (owed_update hp (by exact .inl rfl) q)
  | exitClose | exitCwd | exitAdopt =>
    exact .keep (kept_update (by constructor <;> rfl) q) (owed_update rfl (by exact .inr rfl) q)
  | wakeInit | wakeParent =>
    exact .keep (kept_update (wakeup_kept ..) q) (owed_update rfl (by exact .inr rfl) q)
  | exitLock | exitSkip | exitReparented | wakeInitSelf | wakeInitEnd | wakeParentSelf | wakeParentEnd =>
    exact .keep (.refl _) (owed_update rfl (by exact .inr rfl) q)
  | exitZombie hsc =>
    exact .keep (kept_update (by exact .of_state (by simp [hs.running hsc]) (by simp) rfl rfl rfl rfl rfl) q)
      (owed_update rfl (by exact .inr rfl) q)
  | @waitReap h p r _ _ _ hp _ _ hz =>
    by_cases hq : q = r
    · subst hq
      exact .free (by simp) (.inr hz) (owed_update hp (by exact .inl rfl) q)
    · exact .keep (by simpa [hq] using SameMeters.refl _) (owed_update hp (by exact .inl rfl) q)
  | waitSleep hsc _ hp =>
    exact .keep (kept_update (by exact .of_state (by simp [hs.running hsc]) (by simp) rfl rfl rfl rfl rfl) q)
      (owed_update hp (by exact .inl rfl) q)

/-! ## What a step does to a scheduler -/

/-- What a step can do to the scheduler of `h`. -/
inductive Scheduled (s s' : Machine) (h : Hart) : Prop
  | same : s'.sched h = s.sched h → Scheduled s s' h
  | skip {now : ℕ} {found : Bool} {p : Slot} {x : Proc} : s.sched h = .scan now found p →
      (s.proc p).visit now = (x, false) → s'.proc = update s.proc p x →
      s'.sched = update s.sched h (.scan now found (p + 1)) → s'.pc = s.pc → Scheduled s s' h
  | run {now : ℕ} {found : Bool} {p : Slot} {x : Proc} : s.sched h = .scan now found p →
      (s.proc p).visit now = (x, true) → s'.proc = update s.proc p x.dispatch →
      s'.sched = update s.sched h (.away now p) → s'.pc = s.pc → Scheduled s s' h
  | other : (∀ now found (p : Slot), s.sched h ≠ .scan now found p) → (∀ now p, s'.sched h ≠ .away now p) →
      Scheduled s s' h

theorem scheduled_setSched {c : SchedPc} {w : Hart} (hs' : s'.sched = update s.sched h c)
    (hs : ∀ now found (p : Slot), s.sched h ≠ .scan now found p) (hc : ∀ now p, c ≠ .away now p) :
    Scheduled s s' w := by
  by_cases hw : w = h
  · subst hw
    exact .other hs (by simpa [hs'] using hc)
  · exact .same (by simp [hs', hw])

theorem Step.scheduled (st : Step s es s') (w : Hart) : Scheduled s s' w := by
  cases st with
  | schedTop hsc | schedBack hsc | yield hsc | sleep hsc | exitZombie hsc | waitSleep hsc =>
    exact scheduled_setSched rfl (by simp [hsc]) (by simp)
  | schedEnd hsc =>
    refine scheduled_setSched rfl (fun now found p e => ?_) (by simp)
    rw [hsc] at e
    have := congrArg (fun c => match c with | .scan _ _ i => i | _ => 0) e
    exact absurd this (by simpa using p.isLt.ne')
  | @schedSkip h _ _ _ _ hsc _ hv =>
    by_cases hw : w = h
    · subst hw
      exact .skip hsc hv rfl rfl rfl
    · exact .same (by simp [hw])
  | @schedRun h _ _ _ _ hsc _ hv =>
    by_cases hw : w = h
    · subst hw
      exact .run hsc hv rfl rfl rfl
    · exact .same (by simp [hw])
  | @timerIdle h _ =>
    obtain ⟨t, a, i, f, -, e⟩ := s.clockintr_eq h
    exact .same (by rw [e])
  | @timerUser h p _ _ | @timerKernel h p _ _ =>
    obtain ⟨t, a, i, f, -, e⟩ := s.clockintr_eq h
    exact .same (by rw [e]; rfl)
  | _ => exact .same rfl

end Xv6
