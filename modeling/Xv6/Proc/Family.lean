import Xv6.Lib.Kinship
import Xv6.Proc.Exclusive

/-!
# Parents and children

What the protocol of `Kinship` sees of the machine: `Machine.kin` keeps the parent links, whether a
slot is free, in the making, alive or a zombie, who sleeps in `kwait`, and where each thread is in
`kfork`, `kexit` and `kwait`. The lock of the protocol is `wait_lock`: a thread in one of its sections
runs on the hart that holds it (`Waits`).
-/

namespace Xv6

open Machine Proc Pc

open Kinship (Life Stage)

def ProcState.life : ProcState → Life
  | unused => .vacant
  | used => .draft
  | zombie => .zombie
  | _ => .live

/-- The slots that a loop has passed before it looks at slot `i`. -/
def before (i : ℕ) : Slot → Prop := fun c => c.val < i

theorem before_zero : before 0 = fun _ => False := by
  funext c
  simp [before]

theorem before_succ (c : Slot) : before (c + 1) = Kinship.add (before c) c := by
  funext x
  simp only [before, Kinship.add, Fin.ext_iff, eq_iff_iff]
  omega

theorem before_end (c : Slot) : before NPROC c := c.isLt

/-- Where a thread is in `kfork`, `kexit` or `kwait`. -/
def Pc.stage : Pc → Stage Slot
  | forkCopy q | forkRelease q | forkParent q => .making q
  | forkReady q => .ready q
  | exitClose .. | exitLock _ => .leaving
  | exitReparent _ i => .adopting (before i)
  | exitWakeInit _ c i => .waking (before (c + 1)) (before i)
  | exitWakeParent _ o i => .calling o (before i)
  | exitZombie _ => .dying
  | waitScan _ _ i => .scanning (before i)
  | waitSleep _ => .resting
  | _ => .idle

/-- `p` sleeps in `kwait`. -/
def Machine.InWait (s : Machine) (p : Slot) : Prop :=
  (s.proc p).state = .sleeping ∧ ∃ addr, s.pc p = .waitLock addr

def Machine.kin (s : Machine) : Kinship.State Slot where
  root := s.initproc
  life p := (s.proc p).state.life
  parent p := (s.proc p).parent
  asleep := s.InWait
  stage p := (s.pc p).stage

/-- A thread in a section of `wait_lock` runs on the hart that holds it. -/
def Waits (s : Machine) : Prop :=
  ∀ p, (s.pc p).stage.Holds → ∃ h, s.Runs h p ∧ s.waitLock = some h

/-- A process that sleeps in `kwait` sleeps on its own record. -/
def Chans (s : Machine) : Prop := ∀ p, s.InWait p → (s.proc p).chan = some (.proc p)

variable {s s' : Machine} {h : Hart} {p q : Slot} {k : Pc} {x : Proc} {es : List Event}

/-! ## `wait_lock` -/

theorem Waits.unique (hw : Waits s) (hp : (s.pc p).stage.Holds) (hq : (s.pc q).stage.Holds) :
    p = q := by
  obtain ⟨h, ⟨⟨n, hn⟩, -⟩, hl⟩ := hw p hp
  obtain ⟨h', ⟨⟨n', hn'⟩, -⟩, hl'⟩ := hw q hq
  obtain rfl : h = h' := by simpa [hl] using hl'
  exact (SchedPc.away.inj (hn.symm.trans hn')).2

theorem Waits.free (hw : Waits s) (hl : s.waitLock = none) : s.kin.Free := by
  intro p hp
  obtain ⟨h, -, hl'⟩ := hw p hp
  simp [hl] at hl'

theorem waits_setPc (hw : Waits s) (hk : k.stage.Holds → (s.pc p).stage.Holds) :
    Waits (s.setPc p k) := by
  intro r hr
  by_cases hrp : r = p
  · subst hrp
    exact hw r (hk (by simpa using hr))
  · exact hw r (by simpa [hrp] using hr)

theorem waits_setSched {c : SchedPc} (hw : Waits s)
    (hn : ∀ now r, s.sched h = .away now r → ¬ (s.pc r).stage.Holds) : Waits (s.setSched h c) := by
  intro r hr
  obtain ⟨h', ⟨⟨now, hs⟩, hc⟩, hl⟩ := hw r hr
  have hh : h' ≠ h := by
    rintro rfl
    exact hn now r hs hr
  exact ⟨h', ⟨⟨now, by simpa [hh] using hs⟩, hc⟩, hl⟩

theorem waits_setCtx {c : Ctx} (hw : Waits s) (hp : ¬ (s.pc p).stage.Holds) :
    Waits (s.setCtx p c) := by
  intro r hr
  have hrp : r ≠ p := by
    rintro rfl
    exact hp hr
  obtain ⟨h, ⟨hs, hc⟩, hl⟩ := hw r hr
  exact ⟨h, ⟨hs, by simpa [hrp] using hc⟩, hl⟩

theorem Waits.not_holds (hw : Waits s) (hc : s.ctx p ≠ .running) : ¬ (s.pc p).stage.Holds := by
  intro hp
  obtain ⟨h, hr, -⟩ := hw p hp
  exact hc hr.2

theorem waits_swtch {now : ℕ} {b : Bool} (hw : Waits s) (hs : s.sched h = .away now p)
    (hp : ¬ (s.pc p).stage.Holds) : Waits (s.swtch h now p b x) := by
  refine waits_setSched (waits_setCtx (s := (s.setProc p x).setLock p (some h)) hw hp) ?_
  intro now' r hr
  obtain ⟨-, rfl⟩ := SchedPc.away.inj (hs.symm.trans hr)
  exact hp

/-- The thread in the section ends it. -/
theorem waits_leave {k' : Pc} (hw : Waits s) (hp : s.pc p = k') (hk' : k'.stage.Holds)
    (hpc : s'.pc = Function.update s.pc p k) (hk : ¬ k.stage.Holds) : Waits s' := by
  intro r hr
  rw [hpc] at hr
  by_cases hrp : r = p
  · subst hrp
    exact absurd (by simpa using hr) hk
  · exact absurd (hw.unique (by simpa [hrp] using hr) (hp ▸ hk')) hrp

/-- A thread begins a section. -/
theorem waits_enter (hw : Waits s) (hl : s.waitLock = none) (hr : s.Runs h p) :
    Waits ((s.setWait (some h)).setPc p k) := by
  intro r hr'
  by_cases hrp : r = p
  · subst hrp
    exact ⟨h, hr, rfl⟩
  · have hr'' : (s.pc r).stage.Holds := by simpa [hrp] using hr'
    exact absurd hr'' (hw.free hl r)

theorem not_holds_of_preemptible {k : Pc} (hk : k.preemptible = true) : ¬ k.stage.Holds := by
  cases k <;> simp_all [preemptible, stage, Stage.Holds]

theorem not_holds_of_sleeps {k : Pc} (hk : k.sleeps = true) : ¬ k.stage.Holds := by
  cases k <;> simp_all [sleeps, stage, Stage.Holds]

theorem stage_of_alive {k k' : Pc} (hk : k.alive = some k') : k.stage = .idle ∧ k'.stage = .idle := by
  cases k <;> simp [alive] at hk <;> subst hk <;> exact ⟨rfl, rfl⟩

theorem stage_of_returns {k : Pc} (hk : k.returns = true) : k.stage = .idle := by
  cases k <;> first | rfl | simp [returns] at hk

theorem Step.waits (hs : Placed s) (hw : Waits s) (st : Step s es s') : Waits s' := by
  -- a slot that is free has no thread in a section
  have unused : ∀ q, (s.proc q).state = .unused → ¬ (s.pc q).stage.Holds := fun q hq hh => by
    obtain ⟨h, hr, -⟩ := hw q hh
    simp [hs.running_of_runs hr] at hq
  cases st with
  | schedTop hsc | schedEnd hsc | schedSkip hsc | schedRun hsc | schedBack hsc =>
    exact waits_setSched (by exact hw) fun now r hr => by simp [hsc] at hr
  | resume _ hc => exact waits_setCtx (by exact hw) (hw.not_holds (by simp [hc]))
  | @timerIdle h _ =>
    obtain ⟨t, a, i, f, -, e⟩ := s.clockintr_eq h
    rw [e]
    exact hw
  | @timerUser h p _ hp =>
    obtain ⟨t, a, i, f, -, e⟩ := s.clockintr_eq h
    rw [e]
    exact waits_setPc (by exact hw) (by simp [stage, Stage.Holds])
  | @timerKernel h p _ hp =>
    obtain ⟨t, a, i, f, -, e⟩ := s.clockintr_eq h
    rw [e]
    exact waits_setCtx (by exact hw) (not_holds_of_preemptible hp)
  | timerCharge _ hp _ =>
    exact waits_setCtx (waits_setPc (by exact hw) (by simp [stage, Stage.Holds]))
      (by simp [stage, Stage.Holds])
  | yield hsc hc _ => exact waits_swtch hw hsc (hw.not_holds (by simp [hc]))
  | checkAlive _ hk _ _ => exact waits_setPc hw (by simp [(stage_of_alive hk).2, Stage.Holds])
  | own | wakeup => exact hw
  | sleep hsc _ hp _ => exact waits_swtch hw hsc (not_holds_of_sleeps hp)
  | @forkClaim h p q hr hp _ hq =>
    refine waits_setPc (waits_setPc ?_ (by simp [stage, Stage.Holds]))
      (by simp [stage, Stage.Holds])
    exact waits_setCtx (by exact hw) (unused q hq)
  | exitLock hr hp hl => exact waits_enter hw hl hr
  | exitZombie _ _ hp _ | waitReap _ hp _ _ _ | waitFault _ hp _ _ _ _ | waitNone _ hp
  | waitKilled _ hp _ _ | waitSleep _ _ hp _ => exact waits_leave hw hp trivial rfl id
  | waitLock hr hp hl => exact waits_enter hw hl hr
  | exitAdopt _ hp _ | exitSkip _ hp _ | exitReparented _ hp =>
    exact waits_setPc (by exact hw) (by simp [hp, stage, Stage.Holds])
  | wakeInitSelf _ hp | wakeInit _ hp _ _ | wakeInitEnd _ hp =>
    exact waits_setPc (by exact hw) (by simp [hp, stage, Stage.Holds])
  | wakeParentSelf _ hp | wakeParent _ hp _ _ | wakeParentEnd _ hp =>
    exact waits_setPc (by exact hw) (by simp [hp, stage, Stage.Holds])
  | waitOther _ hp _ | waitChild _ hp _ _ _ | waitAlive _ hp _ _ =>
    exact waits_setPc (by exact hw) (by simp [hp, stage, Stage.Holds])
  | _ => exact waits_setPc (by exact hw) (by simp [stage, Stage.Holds])

/-! ## Sleeping in `kwait` -/

theorem chans_setPc (hc : Chans s) (hp : (s.proc p).state ≠ .sleeping) : Chans (s.setPc p k) := by
  rintro r ⟨hr, addr, hpc⟩
  have hrp : r ≠ p := by
    rintro rfl
    exact hp hr
  exact hc r ⟨hr, addr, by simpa [hrp] using hpc⟩

theorem chans_setProc (hc : Chans s)
    (hx : x.state = .sleeping → (s.proc q).state = .sleeping ∧ x.chan = (s.proc q).chan) :
    Chans (s.setProc q x) := by
  rintro r ⟨hr, hpc⟩
  by_cases hrq : r = q
  · subst hrq
    obtain ⟨h₁, h₂⟩ := hx (by simpa using hr)
    simpa [h₂] using hc r ⟨h₁, hpc⟩
  · simpa [hrq] using hc r ⟨by simpa [hrq] using hr, hpc⟩

theorem chans_setProc_setPc (hc : Chans s)
    (hx : x.state = .sleeping → (s.proc q).state = .sleeping ∧ x.chan = (s.proc q).chan)
    (hp : (s.proc p).state ≠ .sleeping) : Chans ((s.setProc q x).setPc p k) := by
  refine chans_setPc (chans_setProc hc hx) ?_
  by_cases hpq : p = q
  · subst hpq
    simpa using mt (fun h => (hx h).1) hp
  · simpa [hpq] using hp

theorem wakeup_chans {c : Option Chan} (hx : (x.wakeup c).state = .sleeping) :
    x.state = .sleeping ∧ (x.wakeup c).chan = x.chan := by
  unfold wakeup at hx ⊢
  grind

theorem pidCall_chans {c : PidCall} (hx : (c.act x).state = .sleeping) :
    x.state = .sleeping ∧ (c.act x).chan = x.chan := by
  cases c <;> grind [PidCall.act]

theorem Step.chans (hs : Placed s) (hc : Chans s) (st : Step s es s') : Chans s' := by
  have awake : ∀ {h p}, s.Runs h p → (s.proc p).state ≠ .sleeping := fun hr => by
    simp [hs.running_of_runs hr]
  cases st with
  | schedSkip _ _ hv =>
    exact chans_setProc hc fun hx => ⟨(visited hv).state.symm.trans hx, (visited hv).chan⟩
  | schedRun => exact chans_setProc hc fun hx => by simp [dispatch] at hx
  | resume hsc _ => exact chans_setProc hc fun hx => by simp [hs.running hsc] at hx
  | @timerIdle h _ | @timerKernel h p _ hp =>
    obtain ⟨t, a, i, f, -, e⟩ := s.clockintr_eq h
    rw [e]
    exact hc
  | @timerUser h p hr hp =>
    obtain ⟨t, a, i, f, -, e⟩ := s.clockintr_eq h
    rw [e]
    exact chans_setPc (by exact hc) (awake hr)
  | timerCharge hr _ _ | setkilled hr _ _ | exitClose hr _ | exitCwd hr _ =>
    exact chans_setProc_setPc hc (fun hx => absurd hx (awake hr)) (awake hr)
  | yield => exact chans_setProc hc fun hx => by simp at hx
  | own hr _ => exact chans_setProc hc fun hx => absurd (own_state _ _ ▸ hx) (awake hr)
  | @sleep h now p a hsc _ hp _ =>
    rintro r ⟨hr, addr, hpc⟩
    by_cases hrp : r = p
    · subst hrp
      simp [show s.pc r = .waitLock addr from hpc, sleeps] at hp
    · simpa [swtch, hrp] using hc r ⟨by simpa [swtch, hrp] using hr, addr, hpc⟩
  | wakeup => exact chans_setProc hc wakeup_chans
  | pidHit hr _ _ _ => exact chans_setProc_setPc hc pidCall_chans (awake hr)
  | forkFail hr _ _ _ =>
    exact chans_setProc_setPc (s := { s with nextpid := _ }) hc
      (fun hx => by simp [freeproc, empty] at hx) (awake hr)
  | @forkClaim h p q hr _ _ hq =>
    refine chans_setPc (chans_setProc_setPc (s := { s with nextpid := _, lock := _, ctx := _ }) hc
      (fun hx => by simp [forkCopy, allocproc] at hx) (by simp [hq])) ?_
    by_cases hpq : p = q
    · subst hpq
      simp [hs.running_of_runs hr] at hq
    · simpa [hpq] using awake hr
  | forkInherit hr _ _ | forkParent hr _ _ | exitAdopt hr _ _ =>
    exact chans_setProc_setPc hc (fun hx => ⟨by exact hx, by rfl⟩) (awake hr)
  | forkReady hr _ _ => exact chans_setProc_setPc hc (fun hx => by simp at hx) (awake hr)
  | wakeInit hr _ _ _ | wakeParent hr _ _ _ => exact chans_setProc_setPc hc wakeup_chans (awake hr)
  | exitZombie hsc _ _ _ =>
    exact chans_setProc_setPc (s := { s with lock := _, ctx := _, sched := _, waitLock := none }) hc
      (fun hx => by simp at hx) (by simp [hs.running hsc])
  | waitReap hr _ _ _ _ =>
    exact chans_setProc_setPc (s := s.setWait none) hc
      (fun hx => by simp [freeproc, empty] at hx) (awake hr)
  | @waitSleep h now p addr hsc _ _ _ =>
    rintro r ⟨hr, addr', hpc⟩
    by_cases hrp : r = p
    · subst hrp
      simp [swtch]
    · simpa [swtch, hrp] using hc r ⟨by simpa [swtch, hrp] using hr, addr',
        by simpa [swtch, hrp] using hpc⟩
  | schedTop | schedEnd | schedBack => exact hc
  | _ hr => exact chans_setPc (by exact hc) (awake hr)

end Xv6
