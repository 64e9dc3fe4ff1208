import Xv6.Sleep.Waits

/-!
# Kill and the interruptible waits

`kkill` sets `killed` and wakes its target under `p->lock`, and takes none of the condition locks. A
process tests `killed()` under `p->lock`, gives the lock up and takes it again in `sleep`. A call of
`kkill` between the two sections sets `killed` after the test and finds the process not yet asleep: the
process then goes to sleep and stays there, killed, until something else wakes it.

This is the only way. In a run without such a call a process that has passed its test and is about to
sleep is not killed until it is asleep, and once it is asleep `kkill` wakes it.
-/

namespace Xv6

/-- The process is in one of the loops. -/
def WaitPc.inLoop : WaitPc → Bool
  | .out => false
  | .sched none => false
  | .off none => false
  | .on none => false
  | _ => true

/-- The process has its own lock. -/
def WaitPc.hasSelf : WaitPc → Bool
  | .drowsy _ => true
  | .fall _ => true
  | .sched _ => true
  | .on _ => true
  | _ => false

/-- The process is on a hart and has not called `sched`. -/
def WaitPc.runs : WaitPc → Bool
  | .sched _ => false
  | .off _ => false
  | _ => true

/-- The process has passed its test of `killed()` on its way to sleep and is not yet asleep. -/
def WaitPc.nods (w : World) : WaitPc → Bool
  | .passed l => l.sleeps w
  | .drowsy _ => true
  | .fall _ => true
  | _ => false

/-- The condition lock that the process has. -/
def WaitPc.cond : WaitPc → Option CondLock
  | .head l => some l.lock
  | .passed l => some l.lock
  | .drowsy l => some l.lock
  | _ => none

attribute [simp] WaitPc.inLoop WaitPc.hasSelf WaitPc.runs WaitPc.nods

namespace Waiter

/-- The process is killed and SLEEPING in one of the loops. -/
def Stuck (x : Waiter) : Prop := x.killed = true ∧ x.state = .sleeping ∧ x.pc.inLoop = true

/-- A process that is about to sleep is not killed, and none is stuck. -/
structure Alert (w : World) (x : Waiter) : Prop where
  self : x.pc.hasSelf = true → x.locked = true
  runs : x.pc.runs = true → x.state = .running
  nods : x.pc.nods w = true → x.killed = false
  asleep : ¬ x.Stuck

variable {w : World} {x : Waiter}

theorem wake_eq_self (h : x.state ≠ .sleeping) : x.wake = x := if_neg h

theorem wake_state_ne (x : Waiter) : x.wake.state ≠ .sleeping := by
  rw [wake]
  split_ifs with h
  · simp
  · exact h

theorem wake_pc (x : Waiter) : x.wake.pc = x.pc := by
  rw [wake]
  split_ifs <;> rfl

namespace Alert

theorem not_stuck_of_state (h : x.state ≠ .sleeping) : ¬ x.Stuck := fun hs => h hs.2.1

theorem wake (h : x.Alert w) : x.wake.Alert w := by
  by_cases hs : x.state = .sleeping
  · have hr : x.pc.runs ≠ true := fun hr => absurd (h.runs hr) (by simp [hs])
    rw [Waiter.wake, if_pos hs]
    exact ⟨h.self, fun hr' => absurd hr' hr, h.nods, not_stuck_of_state (by simp)⟩
  · rw [wake_eq_self hs]
    exact h

/-- `kkill` finds a process that is not about to sleep. -/
theorem kill (h : x.Alert w) (hl : x.locked = false) (hp : x.pc.late w = false) : x.kill.Alert w := by
  have hw := h.wake
  refine ⟨hw.self, hw.runs, fun hn => ?_, not_stuck_of_state x.wake_state_ne⟩
  have hn' : x.pc.nods w = true := by
    rw [← wake_pc]
    exact hn
  cases hpc : x.pc with
  | passed l =>
    rw [hpc] at hn' hp
    exact absurd (hp.symm.trans hn') (by decide)
  | drowsy l | fall l => exact absurd (h.self (by rw [hpc]; rfl)) (by simp [hl])
  | _ => simp [hpc] at hn'

/-- A process that runs goes on to a place that is not past the test, or stays past it. -/
theorem walk {k : WaitPc} (h : x.Alert w) (hr : x.pc.runs = true)
    (hs : k.hasSelf = true → x.pc.hasSelf = true)
    (hn : k.nods w = true → x.killed = false) : ({ x with pc := k } : Waiter).Alert w := by
  have hrun := h.runs hr
  exact ⟨fun h' => h.self (hs h'), fun _ => hrun, hn, not_stuck_of_state (by simp [hrun])⟩

/-- The data that the loop of the process tests stay as they are. -/
theorem world {w' : World} (h : x.Alert w)
    (hw : ∀ i, x.pc.cond = some (.pipe i) → w'.pipe i = w.pipe i) : x.Alert w' := by
  refine ⟨h.self, h.runs, fun hn => h.nods ?_, h.asleep⟩
  cases hpc : x.pc with
  | passed l =>
    rw [hpc] at hn
    cases l with
    | pipewrite i left =>
      have := hw i (by rw [hpc]; rfl)
      simpa [WaitLoop.sleeps, this] using hn
    | _ => rfl
  | _ => rwa [hpc] at hn

end Alert

end Waiter

open Waiter

/-- Every slot is as it should be, and has the condition lock it should have. -/
structure WaitSys.Alert (s : WaitSys) : Prop where
  each : ∀ p, (s.proc p).Alert s.world
  held : ∀ p k, (s.proc p).pc.cond = some k → s.lock k = some p

namespace WaitSys.Alert

variable {s : WaitSys} {p : Slot} {x : Waiter} {k : CondLock}

/-- A step of one process that takes no lock. -/
theorem set (h : s.Alert) (hx : x.Alert s.world) (hc : x.pc.cond = (s.proc p).pc.cond ∨ x.pc.cond = none) :
    (s.set p x).Alert := by
  refine ⟨fun q => ?_, fun q k hk => ?_⟩
  · by_cases e : q = p
    · subst e
      simpa [WaitSys.set] using hx
    · simpa [WaitSys.set, e] using h.each q
  · by_cases e : q = p
    · subst e
      have hk : x.pc.cond = some k := by simpa [WaitSys.set] using hk
      rcases hc with hc | hc
      · exact h.held q k (hc ▸ hk)
      · simp [hc] at hk
    · exact h.held q k (by simpa [WaitSys.set, e] using hk)

/-- A process takes a condition lock that is free. -/
theorem acquire (h : s.Alert) (hx : x.Alert s.world) (hk : s.lock k = none) (hc : x.pc.cond = some k) :
    ((s.set p x).hold k (some p)).Alert := by
  refine ⟨fun q => ?_, fun q k' hk' => ?_⟩
  · by_cases e : q = p
    · subst e
      simpa [WaitSys.set, WaitSys.hold] using hx
    · simpa [WaitSys.set, WaitSys.hold, e] using h.each q
  · by_cases e : q = p
    · subst e
      obtain rfl : k = k' := by simpa [WaitSys.set, WaitSys.hold, hc] using hk'
      simp [WaitSys.hold]
    · have hq := h.held q k' (by simpa [WaitSys.set, WaitSys.hold, e] using hk')
      have hne : k' ≠ k := fun e' => by simp [e', hk] at hq
      simpa [WaitSys.hold, WaitSys.set, hne] using hq

theorem release (h : s.Alert) (hx : x.Alert s.world) (hk : (s.proc p).pc.cond = some k)
    (hc : x.pc.cond = none) : ((s.set p x).hold k none).Alert := by
  have hs := h.set (p := p) hx (.inr hc)
  refine ⟨hs.each, fun q k' hk' => ?_⟩
  have hq := hs.held q k' hk'
  have hne : k' ≠ k := by
    rintro rfl
    obtain rfl : p = q := Option.some.inj ((h.held p k' hk).symm.trans hq)
    simp [WaitSys.set, WaitSys.hold, hc] at hk'
  simpa [WaitSys.hold, hne] using hq

/-- The data that a lock protects change: the lock is free, or its owner is at a place where it does not
go to sleep. -/
theorem world {w : World} (h : s.Alert) (hw : ∀ i, w.pipe i ≠ s.world.pipe i →
      ∀ p, (s.proc p).pc.cond ≠ some (.pipe i) ∨ (s.proc p).Alert w) : ({ s with world := w } : WaitSys).Alert := by
  refine ⟨fun p => ?_, h.held⟩
  by_cases hp : (s.proc p).Alert w
  · exact hp
  · refine (h.each p).world fun i hi => ?_
    by_contra hne
    exact ((hw i hne p).resolve_right hp) hi

end WaitSys.Alert

variable {s s' : WaitSys} {es : List KillEvent}

/-- **One step** without a late call of `kkill`. -/
theorem WaitStep.alert (st : WaitStep s es s') (h : s.Alert) (ht : ∀ e ∈ es, e.late = false) :
    s'.Alert := by
  cases st with
  | @call p l hp _ => exact h.set ((h.each p).walk (by rw [hp]; rfl) (by simp) (by simp)) (.inr rfl)
  | @acquire p l hp hk =>
    refine h.acquire ((h.each p).walk (by rw [hp]; rfl) (by simp) (by simp)) hk ?_
    cases l with
    | pause n o => cases o <;> rfl
    | _ => rfl
  | @leave p l hp _ | @killed p l hp _ _ _ =>
    exact h.release ((h.each p).walk (by rw [hp]; rfl) (by simp) (by simp)) (by rw [hp]; rfl) rfl
  | @giveUp p i left hp _ =>
    exact h.release ((h.each p).walk (by rw [hp]; rfl) (by simp) (by simp)) (by rw [hp]; rfl) rfl
  | @take p n hp _ _ =>
    have hs := h.set (p := p) ((h.each p).walk (k := .head (.consoleread (n - 1))) (by rw [hp]; rfl)
      (by simp) (by simp)) (.inl (by rw [hp]; rfl))
    exact hs.world fun i hi => absurd rfl hi
  | @store p i left ch hp _ =>
    have hx := (h.each p).walk (k := .head (.pipewrite i left)) (by rw [hp]; rfl) (by simp) (by simp)
    have hs := h.set (p := p) hx (.inl (by rw [hp]; rfl))
    refine hs.world fun j hj q => ?_
    -- only the writer has the lock of the pipe
    obtain rfl : j = i := by
      by_contra hne
      exact hj (Function.update_of_ne hne _ _)
    by_cases e : q = p
    · subst e
      have hq := hs.each q
      exact .inr ⟨hq.self, hq.runs, fun hn => by simp [WaitSys.set] at hn, hq.asleep⟩
    · refine .inl fun hq => e ?_
      have h₁ := h.held p (.pipe j) (by rw [hp]; rfl)
      have h₂ := hs.held q (.pipe j) hq
      exact Option.some.inj (h₂.symm.trans h₁)
  | @alive p l hp _ _ hk =>
    exact h.set ((h.each p).walk (by rw [hp]; rfl) (by simp) fun _ => hk) (.inl (by rw [hp]; rfl))
  | @lockSelf p l hp hsl _ =>
    have hrun := (h.each p).runs (by rw [hp]; rfl)
    exact h.set ⟨fun _ => rfl, fun _ => hrun, fun _ => (h.each p).nods (by rw [hp]; exact hsl),
      Alert.not_stuck_of_state (by simp [hrun])⟩ (.inl (by rw [hp]; rfl))
  | @release p l hp =>
    exact h.release ((h.each p).walk (by rw [hp]; rfl) (fun _ => by rw [hp]; rfl)
      fun _ => (h.each p).nods (by rw [hp]; rfl)) (by rw [hp]; rfl) rfl
  | @fallAsleep p l hp =>
    have hk := (h.each p).nods (by rw [hp]; rfl)
    exact h.set ⟨fun _ => (h.each p).self (by rw [hp]; rfl), by simp, fun _ => hk,
      fun hs => absurd hs.1 (by simp [hk])⟩ (.inr rfl)
  | @swtch p o hp =>
    refine h.set ⟨by simp, by simp, by simp, ?_⟩ (.inr rfl)
    rintro ⟨hk, hs, hi⟩
    refine (h.each p).asleep ⟨hk, hs, ?_⟩
    rw [hp]
    cases o with
    | none => exact hi
    | some l => rfl
  | @run p o hp _ _ =>
    exact h.set ⟨fun _ => rfl, fun _ => rfl, by simp,
      Alert.not_stuck_of_state (by simp)⟩ (.inr rfl)
  | @resume p o hp =>
    have hrun := (h.each p).runs (by rw [hp]; rfl)
    exact h.set ⟨by cases o <;> simp [WaitPc.back], fun _ => hrun,
      by cases o <;> simp [WaitPc.back], Alert.not_stuck_of_state (by simp [hrun])⟩
      (.inr (by cases o <;> rfl))
  | @yield p o _ _ | @exit p _ _ =>
    exact h.set ⟨fun _ => rfl, by simp, by simp,
      Alert.not_stuck_of_state (by simp)⟩ (.inr rfl)
  | @sleepElse p _ _ =>
    exact h.set ⟨fun _ => rfl, by simp, by simp,
      fun hs => absurd hs.2.2 (by simp)⟩ (.inr rfl)
  | @free p _ hs =>
    exact h.set ⟨(h.each p).self, fun hr => absurd ((h.each p).runs hr) (by simp [hs]), fun _ => rfl,
      Alert.not_stuck_of_state (by simp)⟩ (.inl rfl)
  | @fork p _ _ =>
    exact h.set ⟨by simp, by simp, by simp,
      Alert.not_stuck_of_state (by simp)⟩ (.inr rfl)
  | @kkill p hl =>
    exact h.set ((h.each p).kill hl (ht _ (List.mem_singleton.2 rfl))) (.inl (by rw [kill, wake_pc]))
  | @setkilled p hp _ =>
    have hrun := (h.each p).runs (by rw [hp]; rfl)
    exact h.set ⟨(h.each p).self, (h.each p).runs, fun hn => absurd hn (by simp [hp]),
      Alert.not_stuck_of_state (by simp [hrun])⟩ (.inl rfl)
  | @wakeup p _ => exact h.set (h.each p).wake (.inl (by rw [wake_pc]))
  | change k w hk hw =>
    refine h.world fun i hi p => .inl fun hp => hi (hw.pipe i ?_)
    rintro rfl
    exact absurd (hk.symm.trans (h.held p _ hp)) (by simp)

theorem WaitSys.alert_init : WaitSys.init.Alert :=
  ⟨fun _ => ⟨by simp [WaitSys.init], by simp [WaitSys.init],
    by simp [WaitSys.init], Alert.not_stuck_of_state (by simp [WaitSys.init])⟩,
    fun _ _ hk => by cases hk⟩

/-- **Kill interrupts the waits** along every run in which no call of `kkill` finds its target between
the test of `killed()` and the `sleep` that follows: no process is both killed and SLEEPING in one of the loops. -/
theorem kill_interrupts_waits {tr : List KillEvent} (hr : Trans.Run WaitStep .init tr s)
    (ht : ∀ e ∈ tr, e.late = false) (p : Slot) : ¬ (s.proc p).Stuck := by
  have ha : (∀ e ∈ tr, e.late = false) → s.Alert :=
    hr.invariant (I := fun tr s => (∀ e ∈ tr, e.late = false) → WaitSys.Alert s)
      (fun _ => WaitSys.alert_init) fun es s fs s' ih st hts =>
        st.alert (ih fun e he => hts e (List.mem_append_left _ he)) fun e he =>
          hts e (List.mem_append_right _ he)
  exact ((ha ht).each p).asleep

/-- A process is asleep in `sys_pause` when it is killed, and is woken. -/
theorem kill_interrupts_waits_asleep : ∃ s, Trans.Run WaitStep .init [⟨false⟩] s ∧
    (s.proc 0).killed = true ∧ (s.proc 0).pc = .off (some (.pause 1 (some 0))) ∧ ¬ (s.proc 0).Stuck := by
  have hr := (Trans.Run.refl : Trans.Run WaitStep .init [] _)
    |>.tail (@WaitStep.fork _ 0 rfl rfl)
    |>.tail (@WaitStep.run _ 0 none rfl rfl rfl)
    |>.tail (@WaitStep.resume _ 0 none rfl)
    |>.tail (@WaitStep.call _ 0 (.pause 1 none) rfl rfl)
    |>.tail (@WaitStep.acquire _ 0 (.pause 1 none) rfl rfl)
    |>.tail (@WaitStep.alive _ 0 (.pause 1 (some 0)) rfl (by decide) rfl rfl)
    |>.tail (@WaitStep.lockSelf _ 0 (.pause 1 (some 0)) rfl rfl rfl)
    |>.tail (@WaitStep.release _ 0 (.pause 1 (some 0)) rfl)
    |>.tail (@WaitStep.fallAsleep _ 0 (.pause 1 (some 0)) rfl)
    |>.tail (@WaitStep.swtch _ 0 (some (.pause 1 (some 0))) rfl)
    |>.tail (@WaitStep.kkill _ 0 rfl)
  exact ⟨_, hr, rfl, rfl, kill_interrupts_waits hr (by simp [WaitPc.late, WaitSys.set]) 0⟩

/-- A process calls `sys_pause` and finds itself not killed. It is killed then, and goes to sleep; its
lock is free. -/
theorem killed_asleep_pause : ∃ tr s, Trans.Run WaitStep .init tr s ∧ (s.proc 0).locked = false ∧
    (s.proc 0).pc = .off (some (.pause 1 (some 0))) ∧ (s.proc 0).Stuck := by
  have hr := (Trans.Run.refl : Trans.Run WaitStep .init [] _)
    |>.tail (@WaitStep.fork _ 0 rfl rfl)
    |>.tail (@WaitStep.run _ 0 none rfl rfl rfl)
    |>.tail (@WaitStep.resume _ 0 none rfl)
    |>.tail (@WaitStep.call _ 0 (.pause 1 none) rfl rfl)
    |>.tail (@WaitStep.acquire _ 0 (.pause 1 none) rfl rfl)
    |>.tail (@WaitStep.alive _ 0 (.pause 1 (some 0)) rfl (by decide) rfl rfl)
    |>.tail (@WaitStep.kkill _ 0 rfl)
    |>.tail (@WaitStep.lockSelf _ 0 (.pause 1 (some 0)) rfl rfl rfl)
    |>.tail (@WaitStep.release _ 0 (.pause 1 (some 0)) rfl)
    |>.tail (@WaitStep.fallAsleep _ 0 (.pause 1 (some 0)) rfl)
    |>.tail (@WaitStep.swtch _ 0 (some (.pause 1 (some 0))) rfl)
  exact ⟨_, _, hr, rfl, rfl, rfl, rfl, rfl⟩

end Xv6
