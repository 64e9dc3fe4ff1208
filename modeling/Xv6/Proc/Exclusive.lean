import Xv6.Proc.Machine

/-!
# A process runs on one hart

The machine refines the hand-over protocol of `Dispatch`: `core` forgets everything but who
runs where and who holds which `p->lock`, and every step of the machine is a move of the protocol
with the same lock events (`Step.move`).
-/

namespace Xv6

open Function Machine Proc Pc ProcState

open Dispatch (LockEvent Move Holder)

/-! ## The hand-over protocol of the machine -/

def SchedPc.place : SchedPc → Dispatch.Place Slot
  | top => .idle
  | scan .. => .idle
  | away _ p => .away p
  | back _ p => .back p

/-- The slot whose lock the thread holds while it builds it. -/
def Pc.building : Pc → Option Slot
  | forkCopy q => some q
  | forkRelease q => some q
  | _ => none

/-- The slot that the thread is turning into a process. -/
def Pc.child : Pc → Option Slot
  | forkCopy q => some q
  | forkRelease q => some q
  | forkParent q => some q
  | forkReady q => some q
  | _ => none

def Ctx.isSaved : Ctx → Bool
  | saved _ => true
  | _ => false

def ProcState.status : ProcState → Dispatch.Status
  | running => .running
  | used => .draft
  | _ => .rest

/-- Who runs where, and who holds which `p->lock`. -/
def Machine.core (s : Machine) : Dispatch.State Hart Slot where
  status p := (s.proc p).state.status
  saved p := (s.ctx p).isSaved
  child p := (s.pc p).child
  building p := (s.pc p).building
  lock := s.lock
  place h := (s.sched h).place

def lockEvents (es : List Event) : List (LockEvent Hart Slot) :=
  es.filterMap fun
    | .lock e => some e
    | _ => none

/-- The places where a thread waits to yield. -/
def Pc.yields (k : Pc) : Prop := k = .user ∨ k.preemptible = true

/-- What holds of the machine between steps. -/
structure Placed (s : Machine) : Prop where
  ok : Dispatch.Ok s.core
  cpu : ∀ h, s.cpu h = (s.sched h).place.task
  yields : ∀ p, s.ctx p = .yielding → (s.pc p).yields

@[simp] theorem lockEvents_append (es fs : List Event) :
    lockEvents (es ++ fs) = lockEvents es ++ lockEvents fs := List.filterMap_append

@[simp] theorem lockEvents_windowEvents (now : ℕ) (p : Slot) (x : Proc) :
    lockEvents (windowEvents now p x) = [] := by
  unfold windowEvents
  split <;> rfl

@[simp] theorem lockEvents_pidCall (p : Slot) (c : PidCall) : lockEvents (c.events p) = [] := by
  cases c <;> rfl

theorem lockEvents_sect (h : Hart) (p : Slot) {es : List Event} (hes : lockEvents es = []) :
    lockEvents (sect h p es) = [.acquire h p, .release h p] := by
  change LockEvent.acquire h p :: lockEvents (es ++ [.lock (.release h p)]) = _
  rw [lockEvents_append, hes]
  rfl

/-! ## What the lock sections do to the state of a slot -/

/-- What a visit of the scheduler leaves as it is. -/
structure Visited (x y : Proc) : Prop where
  state : y.state = x.state
  pid : y.pid = x.pid
  xstate : y.xstate = x.xstate
  parent : y.parent = x.parent
  chan : y.chan = x.chan
  ofile : y.ofile = x.ofile
  cpuTicks : y.cpuTicks = x.cpuTicks
  ticksTotal : y.ticksTotal = x.ticksTotal
  schedCount : y.schedCount = x.schedCount

/-- A visit changes the account and the skip counter only. -/
theorem visited {now : ℕ} {x y : Proc} {b : Bool} (hv : x.visit now = (y, b)) : Visited x y := by
  obtain rfl : (x.visit now).1 = y := congrArg Prod.fst hv
  unfold visit budget eco
  constructor <;> grind

theorem runnable_of_visit {now : ℕ} {x y : Proc} (h : x.visit now = (y, true)) :
    x.state = .runnable := by
  unfold visit at h
  grind

theorem wakeup_status (chan : Option Chan) (x : Proc) :
    (x.wakeup chan).state.status = x.state.status := by
  unfold wakeup
  split
  · simp_all [status]
  · rfl

theorem pidCall_status (c : PidCall) (x : Proc) :
    (c.act x).state.status = x.state.status := by
  cases c with
  | kkill =>
    simp only [PidCall.act]
    split
    · simp_all [status]
    · rfl
  | _ => rfl

theorem own_state (u : Own) (x : Proc) : (u.act x).state = x.state := by
  cases u <;> rfl

/-! ## Steps that the protocol does not see -/

variable {s s' : Machine} {h : Hart} {p q : Slot} {es : List Event}

variable {now : ℕ} {b : Bool} {c : SchedPc} {x : Proc} {k : Pc}

theorem core_setPc (hk : k.child = (s.pc p).child)
    (hb : k.building = (s.pc p).building) : (s.setPc p k).core = s.core := by
  unfold core setPc
  congr 1
  · funext q
    by_cases hq : q = p
    · subst hq; simpa using hk
    · simp [hq]
  · funext q
    by_cases hq : q = p
    · subst hq; simpa using hb
    · simp [hq]

theorem core_setProc (hx : x.state.status = (s.proc q).state.status) :
    (s.setProc q x).core = s.core := by
  unfold core setProc
  congr 1
  funext p
  by_cases hq : p = q
  · subst hq; simpa using hx
  · simp [hq]

theorem core_setSched (hc : c.place = (s.sched h).place) :
    (s.setSched h c).core = s.core := by
  unfold core setSched
  congr 1
  funext w
  by_cases hw : w = h
  · subst hw; simpa using hc
  · simp [hw]

theorem core_setCtx {c : Ctx} (hc : c.isSaved = (s.ctx p).isSaved) :
    (s.setCtx p c).core = s.core := by
  unfold core setCtx
  congr 1
  funext q
  by_cases hq : q = p
  · subst hq; simpa using hc
  · simp [hq]

theorem core_clockintr : (s.clockintr h).core = s.core := by
  obtain ⟨t, a, i, f, -, e⟩ := s.clockintr_eq h
  rw [e]
  rfl

/-- The steps whose effect the protocol does not see. -/
theorem move_stay (hc : s'.core = s.core) : Move s.core [] s'.core := by
  rw [hc]
  exact .stay _

theorem move_section (hc : s'.core = s.core) (hl : s.lock q = none) {es : List Event}
    (hes : lockEvents es = []) : Move s.core (lockEvents (sect h q es)) s'.core := by
  rw [hc, lockEvents_sect h q hes]
  exact .section _ h q hl

theorem Machine.Runs.core (hr : s.Runs h p) : s.core.Runs h p := by
  obtain ⟨⟨now, hs⟩, hc⟩ := hr
  exact ⟨by simp [Machine.core, hs, SchedPc.place], by simp [Machine.core, hc, Ctx.isSaved]⟩

/-- The thread of `p` leaves the hart. -/
theorem move_swtch (hs : s.sched h = .away now p)
    (hc : (s.ctx p).isSaved = false) (hb : (s.pc p).building = none) (hl : s.lock p = none)
    (hx : x.state.status = .rest) : Move s.core [.acquire h p] (s.swtch h now p b x).core := by
  have hm := Move.leave s.core h p ⟨by simp [core, hs, SchedPc.place], hc⟩ hb hl
  convert hm using 1
  unfold core swtch setSched setCtx setLock setProc
  congr 1
  · funext q
    by_cases hq : q = p
    · subst hq; simpa using hx
    · simp [hq]
  · funext q
    by_cases hq : q = p
    · subst hq; simp [Ctx.isSaved]
    · simp [hq]
  · funext w
    by_cases hw : w = h
    · subst hw; simp [SchedPc.place]
    · simp [hw]

/-- A change of one record and of the place of the thread. -/
theorem core_setProc_setPc
    (hx : x.state.status = (s.proc q).state.status) (hk : k.child = (s.pc p).child)
    (hb : k.building = (s.pc p).building) : ((s.setProc q x).setPc p k).core = s.core :=
  (core_setPc (s := s.setProc q x) hk hb).trans (core_setProc hx)

theorem building_of_preemptible (hk : k.preemptible = true) : k.building = none := by
  cases k <;> first | rfl | simp [preemptible] at hk

theorem child_of_sleeps (hk : k.sleeps = true) : k.child = none ∧ k.building = none := by
  cases k <;> first | exact ⟨rfl, rfl⟩ | simp [sleeps] at hk

theorem child_of_returns (hk : k.returns = true) : k.child = none ∧ k.building = none := by
  cases k <;> first | exact ⟨rfl, rfl⟩ | simp [returns] at hk

theorem child_of_alive {k k' : Pc} (hk : k.alive = some k') :
    (k.child = none ∧ k.building = none) ∧ k'.child = none ∧ k'.building = none := by
  cases k <;> simp [alive] at hk <;> subst hk <;> exact ⟨⟨rfl, rfl⟩, rfl, rfl⟩

theorem Placed.cpu_of_idle (hs : Placed s) (hi : (s.sched h).idle = true) : s.cpu h = none := by
  rw [hs.cpu]
  cases hsc : s.sched h <;> first | rfl | simp [hsc, SchedPc.idle] at hi

theorem Placed.building_of_yielding (hs : Placed s) (hc : s.ctx p = .yielding) :
    (s.pc p).building = none := by
  rcases hs.yields p hc with hp | hp
  · rw [hp]
    rfl
  · exact building_of_preemptible hp

theorem move_run {found : Bool} {x : Proc} {n : ℕ} (hsc : s.sched h = .scan now found p)
    (hl : s.lock p = none) (hv : (s.proc p).visit now = (x, true)) :
    Move s.core [.acquire h p] (((({ s with contextSwitches := n }.setProc p x.dispatch).setLock p
      (some h)).setCpu h (some p)).setSched h (.away now p)).core := by
  have hm := Move.pick s.core h p (by simp [core, hsc, SchedPc.place]) hl
    (by simp [core, runnable_of_visit hv, status])
  convert hm using 1
  unfold core setSched setCpu setLock setProc
  congr 1
  · funext q
    by_cases hq : q = p
    · subst hq; simp [dispatch, status]
    · simp [hq]
  · funext w
    by_cases hw : w = h
    · subst hw; simp [SchedPc.place]
    · simp [hw]

theorem move_back (hsc : s.sched h = .back now p) (hc : c.place = .idle) :
    Move s.core [.release h p] (((s.setCpu h none).setLock p none).setSched h c).core := by
  have hm := Move.back s.core h p (by simp [core, hsc, SchedPc.place])
  convert hm using 1
  unfold core setSched setCpu setLock
  congr 1
  funext w
  by_cases hw : w = h
  · subst hw; simp [hc]
  · simp [hw]

/-- The thread of `p` is back from `swtch`. -/
theorem move_resume (hsc : s.sched h = .away now p)
    (hc : s.ctx p = .saved b) (hx : x.state = (s.proc p).state) :
    Move s.core [.release h p] (((s.setProc p x).setLock p none).setCtx p .running).core := by
  have hm := Move.resume s.core h p (by simp [core, hsc, SchedPc.place])
    (by simp [core, hc, Ctx.isSaved])
  convert hm using 1
  unfold core setCtx setLock setProc
  congr 1
  · funext q
    by_cases hq : q = p
    · subst hq; simp [hx]
    · simp [hq]
  · funext q
    by_cases hq : q = p
    · subst hq; simp [Ctx.isSaved]
    · simp [hq]

/-- A `kfork` takes an unused slot. -/
theorem move_claim (hs : Placed s) (hr : s.Runs h p) (hp : s.pc p = .forkScan q)
    (hl : s.lock q = none) (hq : (s.proc q).state = .unused) (hx : x.state = .used) :
    Move s.core [.acquire h q] (s.claim h p q x).core := by
  have hrest : s.core.status q = .rest := by simp [core, hq, status]
  have hqs := hs.ok.saved_of_not_running q (by simp [hrest])
  have hqb := hs.ok.not_building q hqs
  have hm := Move.claim s.core h p q hr.core (by simp [core, hp, Pc.child]) hl hrest
  convert hm using 1
  unfold core claim setPc setCtx setLock setProc
  congr 1
  · funext r
    by_cases hrq : r = q
    · subst hrq; simp [hx, status]
    · simp [hrq]
  · funext r
    by_cases hrq : r = q
    · subst hrq
      change (update s.ctx r (.saved false) r).isSaved = s.core.saved r
      rw [update_self, hqs]
      rfl
    · simp [hrq]
  · funext r
    by_cases hrp : r = p
    · subst hrp; simp [Pc.child]
    · by_cases hrq : r = q
      · subst hrq
        change (update (update s.pc r .prepareReturn) p (.forkCopy r) r).child = _
        rw [update_of_ne hrp, update_self, update_of_ne hrp,
          update_self]
        rfl
      · simp [hrp, hrq]
  · funext r
    by_cases hrp : r = p
    · subst hrp; simp [building]
    · by_cases hrq : r = q
      · subst hrq
        change (update (update s.pc r .prepareReturn) p (.forkCopy r) r).building = _
        rw [update_of_ne hrp, update_self, update_of_ne hrp]
        exact hqb.symm
      · simp [hrp, hrq]

/-- A `kfork` lets go of the slot it built. -/
theorem move_unclaim (hr : s.Runs h p) (hp : s.pc p = .forkRelease q) :
    Move s.core [.release h q] ((s.setLock q none).setPc p (.forkParent q)).core := by
  have hm := Move.unclaim s.core h p q hr.core (by simp [core, hp, building])
  convert hm using 1
  unfold core setLock setPc
  congr 1
  · funext r
    by_cases hrp : r = p
    · subst hrp; simp [hp, Pc.child]
    · simp [hrp]
  · funext r
    by_cases hrp : r = p
    · subst hrp; simp [building]
    · simp [hrp]

/-- A `kfork` makes the slot it built runnable. -/
theorem move_publish (hr : s.Runs h p) (hp : s.pc p = .forkReady q) (hl : s.lock q = none) :
    Move s.core [.acquire h q, .release h q]
      ((s.setProc q { s.proc q with state := .runnable }).setPc p .kernel).core := by
  have hm := Move.publish s.core h p q hr.core (by simp [core, hp, Pc.child])
    (by simp [core, hp, building]) hl
  convert hm using 1
  unfold core setProc setPc
  congr 1
  · funext r
    by_cases hrq : r = q
    · subst hrq; simp [status]
    · simp [hrq]
  · funext r
    by_cases hrp : r = p
    · subst hrp; simp [Pc.child]
    · simp [hrp]
  · funext r
    by_cases hrp : r = p
    · subst hrp; simp [hp, building]
    · simp [hrp]

/-- Every step of the machine is a step of the hand-over protocol, with the same lock events. -/
theorem Step.move (hs : Placed s) (st : Step s es s') :
    Move s.core (lockEvents es) s'.core := by
  cases st with
  | schedTop hsc | schedEnd hsc => exact move_stay (core_setSched (by rw [hsc]; rfl))
  | @schedSkip h now _ p x hsc hl hv =>
    refine move_section ?_ hl (lockEvents_windowEvents ..)
    rw [core_setSched (by simp [setProc, hsc, SchedPc.place]), core_setProc]
    rw [(visited hv).state]
  | schedRun hsc hl hv =>
    rw [show ∀ (e : LockEvent Hart Slot) es, lockEvents (.lock e :: es) = e :: lockEvents es
      from fun _ _ => rfl, lockEvents_windowEvents]
    exact move_run hsc hl hv
  | schedBack hsc => exact move_back hsc rfl
  | resume hsc hc => exact move_resume hsc hc rfl
  | timerIdle hsc => exact move_stay core_clockintr
  | @timerUser h p hr hp =>
    obtain ⟨t, a, i, f, -, e⟩ := s.clockintr_eq h
    rw [e]
    exact move_stay (core_setPc (s := { s with ticks := _, activeTicks := _, idleTicks := _, proc := _ })
      (by simp [hp, Pc.child]) (by simp [hp, building]))
  | @timerKernel h p hr hp =>
    refine move_stay ((core_setCtx ?_).trans core_clockintr)
    obtain ⟨t, a, i, f, -, e⟩ := s.clockintr_eq h
    rw [e]
    simp [hr.2, Ctx.isSaved]
  | @timerCharge h p hr hp hl =>
    refine move_section ?_ hl rfl
    rw [core_setCtx (by simp [setProc, setPc, hr.2, Ctx.isSaved]),
      core_setProc_setPc (by rfl) (by rw [hp]; rfl) (by rw [hp]; rfl)]
  | yield hsc hc hl =>
    exact move_swtch hsc (by rw [hc]; rfl) (hs.building_of_yielding hc) hl rfl
  | checkAlive hr hk hl hkl =>
    obtain ⟨⟨h₁, h₂⟩, h₃, h₄⟩ := child_of_alive hk
    exact move_section (core_setPc (h₃.trans h₁.symm) (h₄.trans h₂.symm)) hl rfl
  | @checkKilled h p k hr hk hl hkl hi =>
    obtain ⟨⟨h₁, h₂⟩, -⟩ := child_of_alive hk
    have hc : (s.callExit p (-1)).core = s.core := core_setPc h₁.symm h₂.symm
    exact move_section (h := h) hc hl (show lockEvents [] = [] from rfl)
  | prepareReturn hr hp =>
    exact move_stay (core_setPc (child_of_returns hp).1.symm (child_of_returns hp).2.symm)
  | setkilled hr hp hl | forkInherit hr hp hl =>
    exact move_section (core_setProc_setPc (by rfl) (by rw [hp]; rfl) (by rw [hp]; rfl)) hl rfl
  | own hr hp => exact move_stay (core_setProc (by rw [own_state]))
  | sleep hsc hc hk hl =>
    exact move_swtch hsc (by rw [hc]; rfl) (child_of_sleeps hk).2 hl rfl
  | wakeup hl => exact move_section (core_setProc (wakeup_status ..)) hl rfl
  | callPid hr hp _ | pidEnd hr hp | callFork hr hp | forkFull hr hp | callExit hr hp hi
  | exitSkip hr hp hq | exitReparented hr hp | wakeInitSelf hr hp | wakeInitEnd hr hp
  | wakeParentSelf hr hp | wakeParentEnd hr hp | callWait hr hp | waitOther hr hp hq =>
    exact move_stay (core_setPc (by rw [hp]; rfl) (by rw [hp]; rfl))
  | pidHit hr hp hl hh =>
    exact move_section (core_setProc_setPc (pidCall_status ..) (by rw [hp]; rfl) (by rw [hp]; rfl)) hl
      (lockEvents_pidCall ..)
  | pidMiss hr hp hl hh | forkBusy hr hp hl hq | waitChild hr hp hq hl hz | waitAlive hr hp hl hk =>
    exact move_section (core_setPc (by rw [hp]; rfl) (by rw [hp]; rfl)) hl rfl
  | forkFail hr hp hl hq =>
    exact move_section (core_setProc_setPc (s := { s with nextpid := _ })
      (by simp [hq, freeproc, empty, status]) (by rw [hp]; rfl) (by rw [hp]; rfl)) hl rfl
  | forkClaim hr hp hl hq => exact move_claim hs hr hp hl hq rfl
  | forkRelease hr hp => exact move_unclaim hr hp
  | forkParent hr hp hw =>
    exact move_stay (core_setProc_setPc (by rfl) (by rw [hp]; rfl) (by rw [hp]; rfl))
  | forkReady hr hp hl =>
    exact move_publish hr hp hl
  | exitClose hr hp | exitCwd hr hp | exitAdopt hr hp hq =>
    exact move_stay (core_setProc_setPc (by rfl) (by rw [hp]; rfl) (by rw [hp]; rfl))
  | exitLock hr hp hw | waitLock hr hp hw =>
    exact move_stay (core_setPc (s := s.setWait _) (by simp [setWait, hp, Pc.child])
      (by simp [setWait, hp, building]))
  | wakeInit hr hp hq hl | wakeParent hr hp hq hl =>
    exact move_section (core_setProc_setPc (wakeup_status ..) (by rw [hp]; rfl) (by rw [hp]; rfl)) hl rfl
  | exitZombie hsc hc hp hl | waitSleep hsc hc hp hl =>
    rw [core_setPc (by exact (congrArg Pc.child hp).symm) (by exact (congrArg building hp).symm)]
    exact move_swtch hsc (by rw [hc]; rfl) (by rw [hp]; rfl) hl rfl
  | waitReap hr hp hq hl hz =>
    exact move_section (core_setProc_setPc (s := s.setWait none)
      (by simp [setWait, hz, freeproc, empty, status])
      (by simp [setWait, hp, Pc.child])
      (by simp [setWait, hp, building])) hl rfl
  | waitFault hr hp hq hl hz ha | waitKilled hr hp hl hk =>
    exact move_section (core_setPc (s := s.setWait none)
      (by simp [setWait, hp, Pc.child])
      (by simp [setWait, hp, building])) hl rfl
  | waitNone hr hp =>
    exact move_stay (core_setPc (s := s.setWait none) (by simp [setWait, hp, Pc.child])
      (by simp [setWait, hp, building]))

/-! ## The invariant along runs -/

theorem task_setSched (hc : c.place.task = (s.sched h).place.task) (w : Hart) :
    ((s.setSched h c).sched w).place.task = (s.sched w).place.task := by
  by_cases hw : w = h
  · subst hw
    simpa [setSched] using hc
  · simp [setSched, hw]

theorem Step.cpu (hs : ∀ h, s.cpu h = (s.sched h).place.task) (st : Step s es s') (w : Hart) :
    s'.cpu w = (s'.sched w).place.task := by
  cases st with
  | schedTop hsc | schedEnd hsc | yield hsc _ _ | sleep hsc _ _ _ | exitZombie hsc _ _ _
  | waitSleep hsc _ _ _ => exact (hs w).trans (task_setSched (by rw [hsc]; rfl) w).symm
  | schedSkip hsc _ _ =>
    exact (hs w).trans (task_setSched (s := s.setProc _ _) (by rw [setProc, hsc]; rfl) w).symm
  | @schedRun h _ _ _ _ hsc _ _ =>
    by_cases hw : w = h
    · subst hw
      simp [setSched, setCpu, SchedPc.place, Dispatch.Place.task]
    · simpa [setSched, setCpu, setLock, setProc, hw] using hs w
  | @schedBack h _ _ hsc =>
    by_cases hw : w = h
    · subst hw
      simp [setSched, setCpu, setLock, SchedPc.place, Dispatch.Place.task]
    · simpa [setSched, setCpu, setLock, hw] using hs w
  | @timerIdle h _ | @timerUser h p _ _ | @timerKernel h p _ _ =>
    obtain ⟨t, a, i, f, -, e⟩ := s.clockintr_eq h
    rw [e]
    exact hs w
  | _ => exact hs w

theorem yields_setPc (hs : ∀ p, s.ctx p = .yielding → (s.pc p).yields)
    (hp : s.ctx p ≠ .yielding) (r : Slot) (hr : s.ctx r = .yielding) :
    ((s.setPc p k).pc r).yields := by
  have hrp : r ≠ p := fun e => hp (e ▸ hr)
  simpa [setPc, hrp] using hs r hr

theorem Step.yields (hs : ∀ p, s.ctx p = .yielding → (s.pc p).yields) (st : Step s es s')
    (r : Slot) (hr : s'.ctx r = .yielding) : (s'.pc r).yields := by
  -- a thread that leaves `running` for another context than `yielding`
  have away : ∀ {p c}, c ≠ Ctx.yielding → update s.ctx p c r = .yielding →
      s.ctx r = .yielding := fun {p c} hc h => by
    by_cases hrp : r = p
    · subst hrp
      simp [hc] at h
    · simpa [hrp] using h
  cases st with
  | resume _ _ | yield _ _ _ | sleep _ _ _ _ => exact hs r (away (by simp) hr)
  | @timerIdle h _ =>
    obtain ⟨t, a, i, f, -, e⟩ := s.clockintr_eq h
    rw [e] at hr ⊢
    exact hs r hr
  | @timerUser h p hrun _ =>
    obtain ⟨t, a, i, f, -, e⟩ := s.clockintr_eq h
    rw [e] at hr ⊢
    exact yields_setPc (s := { s with ticks := t, activeTicks := a, idleTicks := i, proc := _ }) hs
      (by simp [hrun.2]) r hr
  | @timerKernel h p hrun hp =>
    obtain ⟨t, a, i, f, -, e⟩ := s.clockintr_eq h
    rw [e] at hr ⊢
    by_cases hrp : r = p
    · subst hrp
      exact Or.inr hp
    · exact hs r (by simpa [hrp] using hr)
  | @timerCharge h p _ _ _ =>
    by_cases hrp : r = p
    · subst hrp
      exact Or.inl (by simp)
    · simpa [hrp] using hs r (by simpa [hrp] using hr)
  | @forkClaim h p q hrun _ _ _ =>
    have hq : r ≠ q := by
      rintro rfl
      simp [claim] at hr
    have hr' : s.ctx r = .yielding := by simpa [claim, hq] using hr
    have hp : r ≠ p := by
      rintro rfl
      simp [hrun.2] at hr'
    simpa [claim, hq, hp] using hs r hr'
  | @exitZombie h now p _ _ hc _ _ | @waitSleep h now p _ _ hc _ _ =>
    have hr' := away (by simp) hr
    have hp : r ≠ p := by
      rintro rfl
      simp [hc] at hr'
    simpa [swtch, hp] using hs r hr'
  | schedTop | schedEnd | schedSkip | schedRun | schedBack | own | wakeup => exact hs r hr
  | _ hrun => exact yields_setPc (by assumption) (fun e => nomatch hrun.2.symm.trans e) r hr

theorem Step.placed (hs : Placed s) (st : Step s es s') : Placed s' :=
  ⟨(st.move hs).ok hs.ok, st.cpu hs.cpu, st.yields hs.yields⟩

theorem placed_boot : Placed Machine.boot where
  ok := by
    have hst : ∀ p : Slot, (Machine.boot.proc p).state.status = .rest := fun p => by
      unfold Machine.boot
      simp only
      split <;> rfl
    have hpc : ∀ p : Slot, (Machine.boot.pc p).child = none ∧ (Machine.boot.pc p).building = none :=
      fun p => by
        unfold Machine.boot
        simp only
        split <;> exact ⟨rfl, rfl⟩
    refine ⟨?_, ?_, ?_, ?_, ?_, ?_, ?_, ?_, ?_, ?_⟩
    · simp [core, Machine.boot, SchedPc.place, Dispatch.Place.task]
    · simp [core, Machine.boot, SchedPc.place]
    · simp [core, hst]
    · simp [core, Machine.boot, Ctx.isSaved]
    · simp [core, Machine.boot, SchedPc.place]
    · simp [core, hpc]
    · simp [core, hpc]
    · simp [core, hpc]
    · simp [core, hpc]
    · simp [core, Dispatch.Holds, Dispatch.State.Runs, Machine.boot, SchedPc.place]
  cpu _ := rfl
  yields p hp := by simp [Machine.boot] at hp

/-- The invariant holds in every reachable state. -/
theorem Runs.placed {tr : List Event} (hr : Runs tr s) : Placed s :=
  Trans.Run.invariant (I := fun _ s => Placed s) placed_boot (fun _ _ _ _ hs st => st.placed hs) hr

/-- A thread that executes belongs to a running process. -/
theorem Placed.running (hs : Placed s) {now : ℕ} (hsc : s.sched h = .away now p) :
    (s.proc p).state = .running := by
  have h := hs.ok.running_of_away h p (by simp [core, hsc, SchedPc.place])
  cases hst : (s.proc p).state <;> simp [core, hst, status] at h ⊢

theorem Placed.running_of_runs (hs : Placed s) (hr : s.Runs h p) : (s.proc p).state = .running :=
  hs.running hr.1.choose_spec

/-- The slot that a `kfork` builds is in state `USED`. -/
theorem Placed.used_of_child (hs : Placed s) (hc : (s.pc p).child = some q) :
    (s.proc q).state = .used := by
  have h := hs.ok.draft_of_child p q hc
  cases hst : (s.proc q).state <;> simp [core, hst, status] at h ⊢

end Xv6
