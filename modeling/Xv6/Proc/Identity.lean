import Xv6.Proc.Exclusive

/-!
# Process identities

The identity of the process in a slot is the number of the allocation that created it, of which its
pid is the 32-bit `int`. A step creates at most one process or removes at most one (`Step.ident`), so
identities are never shared or reused, and pids are distinct as long as the counter has not wrapped.
-/

namespace Xv6

open Function Proc Machine

open Dispatch (LockEvent Holder)

/-- The identity of the process in a slot. -/
def Machine.ident (s : Machine) (p : Slot) : Option ℕ :=
  if (s.proc p).state = .unused then none else some (s.proc p).pid

variable {s s' : Machine} {h : Hart} {p q : Slot} {es : List Event}

theorem ident_setProc {x : Proc} (hu : x.state = .unused ↔ (s.proc q).state = .unused)
    (hp : x.state ≠ .unused → x.pid = (s.proc q).pid) : (s.setProc q x).ident = s.ident := by
  funext r
  by_cases hr : r = q
  · subst hr
    by_cases hx : x.state = .unused
    · simp [ident, hx, hu.1 hx]
    · simp [ident, hx, mt hu.2 hx, hp hx]
  · simp [ident, hr]

theorem ident_setProc_of_ne {x : Proc} (hx : x.state ≠ .unused) (hq : (s.proc q).state ≠ .unused)
    (hp : x.pid = (s.proc q).pid) : (s.setProc q x).ident = s.ident :=
  ident_setProc (by simp [hx, hq]) fun _ => hp

theorem ident_freeproc : (s.setProc q (freeproc (s.proc q))).ident =
    update s.ident q none := by
  funext r
  by_cases hr : r = q
  · subst hr
    simp [ident, freeproc, empty]
  · simp [ident, hr]

theorem wakeup_pid (chan : Option Chan) (x : Proc) : (x.wakeup chan).pid = x.pid := by
  unfold wakeup
  split <;> rfl

theorem wakeup_unused (chan : Option Chan) (x : Proc) :
    (x.wakeup chan).state = .unused ↔ x.state = .unused := by
  unfold wakeup
  grind

theorem pidCall_unused (c : PidCall) (x : Proc) :
    (c.act x).state = .unused ↔ x.state = .unused := by
  cases c <;> grind [PidCall.act]

/-- What a step can do to the identities. -/
inductive Births (s s' : Machine) : Prop
  | same : s'.ident = s.ident → s.nextpid ≤ s'.nextpid → Births s s'
  | birth (q : Slot) : s.ident q = none → s'.ident = update s.ident q (some s.nextpid) →
      s'.nextpid = s.nextpid + 1 → Births s s'
  | death (q : Slot) : (s.proc q).state = .zombie → s'.ident = update s.ident q none →
      s'.nextpid = s.nextpid → Births s s'

theorem Step.births (hs : Placed s) (st : Step s es s') : Births s s' := by
  have same : s'.ident = s.ident → s'.nextpid = s.nextpid → Births s s' :=
    fun h h' => .same h (Nat.le_of_eq h'.symm)
  cases st with
  | schedSkip _ _ hv =>
    exact same (ident_setProc (by rw [(visited hv).state]) fun _ => (visited hv).pid) rfl
  | schedRun _ _ hv =>
    refine same (ident_setProc_of_ne (by simp [dispatch]) ?_ ?_) rfl
    · simp [runnable_of_visit hv]
    · exact (visited hv).pid
  | resume _ _ | timerCharge _ _ _ | setkilled _ _ _ | forkInherit _ _ _ | forkParent _ _ _
  | exitClose _ _ | exitCwd _ _ | exitAdopt _ _ _ =>
    exact same (ident_setProc Iff.rfl fun _ => rfl) rfl
  | @timerIdle h _ | @timerUser h p _ _ | @timerKernel h p _ _ =>
    obtain ⟨t, a, i, f, -, e⟩ := s.clockintr_eq h
    rw [e] at same ⊢
    exact same rfl rfl
  | yield hsc _ _ | sleep hsc _ _ _ =>
    exact same (ident_setProc_of_ne (by simp) (by simp [hs.running hsc]) rfl) rfl
  | @own _ _ u _ _ => exact same (ident_setProc (by rw [own_state]) fun _ => by cases u <;> rfl) rfl
  | wakeup _ | wakeInit _ _ _ _ | wakeParent _ _ _ _ =>
    exact same (ident_setProc (wakeup_unused ..) fun _ => wakeup_pid ..) rfl
  | @pidHit _ _ _ call _ _ _ _ _ =>
    exact same (ident_setProc (pidCall_unused ..) fun _ => by cases call <;> rfl) rfl
  | forkFail _ _ _ hq =>
    refine .same (ident_setProc ?_ ?_) (Nat.le_succ _)
    · simp [freeproc, empty, hq]
    · simp [freeproc, empty]
  | @forkClaim h p q hr _ _ hq =>
    refine .birth q (by simp [ident, hq]) (funext fun r => ?_) rfl
    by_cases hrq : r = q
    · subst hrq
      simp [ident, claim, forkCopy, allocproc]
    · simp [ident, claim, hrq]
  | forkReady _ hp _ =>
    refine same (ident_setProc_of_ne (by simp) ?_ rfl) rfl
    simp [hs.used_of_child (show (s.pc _).child = _ by rw [hp]; rfl)]
  | exitZombie hsc _ _ _ | waitSleep hsc _ _ _ =>
    exact same (ident_setProc_of_ne (by simp) (by simp [hs.running hsc]) rfl) rfl
  | waitReap _ _ _ _ hz => exact .death _ hz ident_freeproc rfl
  | _ => exact same rfl rfl

/-- A process keeps its identity backwards as well. -/
theorem Births.ident_back (hb : Births s s') {n : ℕ} (hn : n < s.nextpid) (hi : s'.ident p = some n) :
    s.ident p = some n := by
  cases hb with
  | same he _ => rwa [he] at hi
  | birth q _ he _ =>
    rw [he, update_apply] at hi
    split at hi
    · cases hi
      omega
    · exact hi
  | death q _ he _ =>
    rw [he, update_apply] at hi
    split at hi
    · cases hi
    · exact hi

theorem Births.nextpid_le (hb : Births s s') : s.nextpid ≤ s'.nextpid := by
  cases hb <;> omega

theorem Births.ident_of_ne (hb : Births s s') {n : ℕ} (hi : s.ident p = some n)
    (hz : (s.proc p).state ≠ .zombie) : s'.ident p = some n := by
  cases hb with
  | same he _ => rwa [he]
  | birth q hq he _ =>
    have hpq : p ≠ q := by
      rintro rfl
      simp [hq] at hi
    rwa [he, update_of_ne hpq]
  | death q hq he _ =>
    have hpq : p ≠ q := by
      rintro rfl
      exact hz hq
    rwa [he, update_of_ne hpq]

/-- A slot in use before and after a step holds the same process. -/
theorem Births.ident_eq (hb : Births s s') {n m : ℕ} (hi : s.ident p = some n)
    (hi' : s'.ident p = some m) : m = n := by
  cases hb with
  | same he _ => simpa [he, hi] using hi'.symm
  | birth q hq he _ | death q _ he _ =>
    rw [he, update_apply] at hi'
    grind

theorem zombie_update {x : Proc} (hx : x.state = .zombie →
      (s.proc q).state = .zombie ∧ x.xstate = (s.proc q).xstate) {p : Slot}
    (hz : (update s.proc q x p).state = .zombie) :
    (s.proc p).state = .zombie ∧ (update s.proc q x p).xstate = (s.proc p).xstate := by
  by_cases hp : p = q
  · subst hp
    rw [update_self] at hz ⊢
    exact hx hz
  · rw [update_of_ne hp] at hz ⊢
    exact ⟨hz, rfl⟩

theorem wakeup_zombie {chan : Option Chan} {x : Proc} (hz : (x.wakeup chan).state = .zombie) :
    x.state = .zombie ∧ (x.wakeup chan).xstate = x.xstate := by
  unfold wakeup at hz ⊢
  grind

theorem pidCall_zombie {c : PidCall} {x : Proc} (hz : (c.act x).state = .zombie) :
    x.state = .zombie ∧ (c.act x).xstate = x.xstate := by
  cases c <;> grind [PidCall.act]

/-- A zombie was one before with the same status, or has just left `kexit`. -/
theorem Step.zombie_cases (st : Step s es s') (hz : (s'.proc p).state = .zombie) :
    ((s.proc p).state = .zombie ∧ (s'.proc p).xstate = (s.proc p).xstate) ∨
      ∃ status, s.pc p = .exitZombie status ∧ s'.pc p = .exited ∧
        (s'.proc p).xstate = status := by
  cases st with
  | schedSkip _ _ hv =>
    exact .inl (zombie_update
      (fun hx => ⟨(visited hv).state.symm.trans hx, (visited hv).xstate⟩) hz)
  | schedRun => exact .inl (zombie_update (fun hx => by simp [dispatch] at hx) hz)
  | resume | timerCharge | setkilled | forkInherit | forkParent | exitClose | exitCwd | exitAdopt =>
    exact .inl (zombie_update (fun hx => ⟨by exact hx, by rfl⟩) hz)
  | @timerIdle h _ | @timerUser h _ _ _ | @timerKernel h _ _ _ =>
    obtain ⟨t, a, i, f, -, e⟩ := s.clockintr_eq h
    rw [e] at hz ⊢
    exact .inl ⟨hz, rfl⟩
  | yield | sleep | forkReady | waitSleep =>
    exact .inl (zombie_update (fun hx => by simp at hx) hz)
  | @own _ _ u _ _ =>
    exact .inl (zombie_update (fun hx => ⟨by rwa [own_state] at hx, by cases u <;> rfl⟩) hz)
  | wakeup | wakeInit | wakeParent => exact .inl (zombie_update wakeup_zombie hz)
  | pidHit => exact .inl (zombie_update pidCall_zombie hz)
  | forkFail | waitReap =>
    exact .inl (zombie_update (fun hx => by simp [freeproc, empty] at hx) hz)
  | forkClaim => exact .inl (zombie_update (fun hx => by simp [forkCopy, allocproc] at hx) hz)
  | @exitZombie h now q status hsc _ hp _ =>
    by_cases hpq : p = q
    · subst hpq
      exact .inr ⟨status, hp, by simp, by simp [swtch]⟩
    · exact .inl (by simpa [swtch, hpq] using hz)
  | _ => exact .inl ⟨hz, rfl⟩

theorem building_setPc {k : Pc} {r : Slot} (hk : k.building = none)
    (hr : ((s.setPc p k).pc r).building = some q) : (s.setPc p k).pc r = s.pc r := by
  by_cases hrp : r = p
  · subst hrp
    simp [hk] at hr
  · simp [hrp]

/-- A thread that holds the lock of the slot it builds did so before, or has just taken it. -/
theorem Step.building (st : Step s es s') {r : Slot} (hr : (s'.pc r).building = some q) :
    s'.pc r = s.pc r ∨ (s.pc r = .forkCopy q ∧ s'.pc r = .forkRelease q) ∨
      ((s.proc q).state = .unused ∧
        s'.proc q = forkCopy (s.proc r) (allocproc s.nextpid (s.proc q))) := by
  cases st with
  | schedTop | schedEnd | schedSkip | schedRun | schedBack | resume | yield | own | sleep | wakeup =>
    exact .inl rfl
  | @timerIdle h _ | @timerKernel h p _ _ =>
    obtain ⟨t, a, i, f, -, e⟩ := s.clockintr_eq h
    rw [e]
    exact .inl rfl
  | @timerUser h p _ _ =>
    obtain ⟨t, a, i, f, -, e⟩ := s.clockintr_eq h
    rw [e] at hr ⊢
    exact .inl (building_setPc rfl hr)
  | timerCharge => exact .inl (building_setPc rfl hr)
  | checkAlive _ hk _ _ => exact .inl (building_setPc (child_of_alive hk).2.2 hr)
  | @forkClaim h p c _ _ _ hu =>
    by_cases hrp : r = p
    · subst hrp
      obtain rfl : c = q := by simpa [claim, Pc.building] using hr
      exact .inr (.inr ⟨hu, by simp [claim]⟩)
    · by_cases hrc : r = c
      · subst hrc
        simp [claim, hrp, Pc.building] at hr
      · exact .inl (by simp [claim, hrp, hrc])
  | @forkInherit h p c _ hp _ =>
    by_cases hrp : r = p
    · subst hrp
      obtain rfl : c = q := by simpa [Pc.building] using hr
      exact .inr (.inl ⟨hp, by simp⟩)
    · exact .inl (by simp [hrp])
  | _ => exact .inl (building_setPc rfl hr)

/-- Identities are in use by one process and below the counter. -/
structure Numbered (s : Machine) : Prop where
  bound : ∀ p n, s.ident p = some n → 0 < n ∧ n < s.nextpid
  inj : ∀ p q n, s.ident p = some n → s.ident q = some n → p = q
  pos : 0 < s.nextpid

theorem Births.numbered (hb : Births s s') (hn : Numbered s) : Numbered s' := by
  obtain ⟨h₁, h₂, h₃⟩ := hn
  cases hb with
  | same he hp =>
    refine ⟨fun p n hi => ?_, he ▸ h₂, by omega⟩
    have := h₁ p n (he ▸ hi)
    omega
  | birth q hq he hp =>
    refine ⟨fun p n hi => ?_, fun p r n hi hi' => ?_, by omega⟩
    · rw [he, update_apply] at hi
      split at hi
      · cases hi
        omega
      · have := h₁ p n hi
        omega
    · -- the new number is not in use
      have hnew : ∀ p, s.ident p ≠ some s.nextpid := fun p hp => by
        have := h₁ p _ hp
        omega
      rw [he, update_apply] at hi hi'
      grind
  | death q hz he hp =>
    refine ⟨fun p n hi => ?_, fun p r n hi hi' => ?_, by omega⟩
    · rw [he, update_apply] at hi
      split at hi
      · cases hi
      · rw [hp]
        exact h₁ p n hi
    · rw [he, update_apply] at hi hi'
      grind

theorem numbered_boot : Numbered Machine.boot := by
  have hid : ∀ p n, Machine.boot.ident p = some n → p = 0 ∧ n = 1 := fun p n hi => by
    by_cases h0 : p = 0
    · exact ⟨h0, by simpa [ident, Machine.boot, h0, allocproc] using hi.symm⟩
    · simp [ident, Machine.boot, h0, empty] at hi
  refine ⟨fun p n hi => ?_, fun p q n hi hi' => ?_, by decide⟩
  · obtain ⟨-, rfl⟩ := hid p n hi
    exact ⟨by decide, by decide⟩
  · rw [(hid p n hi).1, (hid q n hi').1]

theorem Runs.numbered {tr : List Event} (hr : Runs tr s) : Numbered s := by
  have h : Placed s ∧ Numbered s :=
    Trans.Run.invariant (I := fun _ s => Placed s ∧ Numbered s) ⟨placed_boot, numbered_boot⟩
      (fun _ _ _ _ hs st => ⟨st.placed hs.1, (st.births hs.1).numbered hs.2⟩) hr
  exact h.2

theorem int32_of_lt {n : ℕ} (hn : n < 2 ^ 31) : int32 n = n := by
  unfold int32
  rw [Int.bmod_eq_of_le] <;> omega

/-- Before the counter wraps, pids are positive and distinct. -/
theorem Numbered.pids (hn : Numbered s) (hp : s.nextpid ≤ 2 ^ 31) (hu : (s.proc p).state ≠ .unused) :
    0 < int32 (s.proc p).pid ∧
      ∀ q, q ≠ p → (s.proc q).state ≠ .unused → int32 (s.proc q).pid ≠ int32 (s.proc p).pid := by
  have hid : ∀ q, (s.proc q).state ≠ .unused → s.ident q = some (s.proc q).pid :=
    fun q hq => by simp [ident, hq]
  have hb := hn.bound p _ (hid p hu)
  rw [int32_of_lt (show (s.proc p).pid < 2 ^ 31 by omega)]
  refine ⟨by omega, fun q hqp hq he => hqp ?_⟩
  have hb' := hn.bound q _ (hid q hq)
  rw [int32_of_lt (show (s.proc q).pid < 2 ^ 31 by omega)] at he
  exact hn.inj q p _ (hid q hq) (by rw [hid p hu]; congr 1; omega)

/-! ## Exclusivity -/

theorem holder_run (hs : Placed s) (hr : Trans.Run Step s es s') (p : Slot) :
    Holder p (s.lock p) (lockEvents es) (s'.lock p) := by
  have h : Placed s' ∧ Holder p (s.lock p) (lockEvents es) (s'.lock p) := by
    refine Trans.Run.invariant (I := fun es s' => Placed s' ∧
      Holder p (s.lock p) (lockEvents es) (s'.lock p)) ⟨hs, .nil _⟩ (fun es s' fs s'' hI st => ?_) hr
    rw [lockEvents_append]
    exact ⟨st.placed hI.1, hI.2.append ((st.move hI.1).holder hI.1.ok p)⟩
  exact h.2

/-- A process that a hart points to runs, unless the hart holds its lock. -/
theorem Placed.running_of_cpu (hs : Placed s) (hc : s.cpu h = some p) (hl : s.lock p ≠ some h) :
    (s.proc p).state = .running := by
  rw [hs.cpu] at hc
  match hsc : s.sched h with
  | .top => simp [hsc, SchedPc.place, Dispatch.Place.task] at hc
  | .scan .. => simp [hsc, SchedPc.place, Dispatch.Place.task] at hc
  | .away _ q =>
    obtain rfl : q = p := by simpa [hsc, SchedPc.place, Dispatch.Place.task] using hc
    exact hs.running hsc
  | .back _ q =>
    obtain rfl : q = p := by simpa [hsc, SchedPc.place, Dispatch.Place.task] using hc
    exact absurd (hs.ok.lock_of_back (by simp [core, hsc, SchedPc.place])) hl

theorem Placed.cpu_of_running (hs : Placed s) (hp : (s.proc p).state = .running) :
    ∃ h, s.cpu h = some p := by
  obtain ⟨h, ha⟩ := hs.ok.away_of_running p (by simp [core, hp, ProcState.status])
  refine ⟨h, ?_⟩
  rw [hs.cpu, show (s.sched h).place = .away p from ha]
  rfl

/-- **Process table and hart exclusivity.** In every reachable state: a process is `RUNNING` exactly
when one hart points to it, unless that hart holds its lock inside `scheduler` or `sched`; no process
is that of two harts; every `p->lock` is acquired only while free and released once, by the hart that
acquired it, and the scheduler holds none between two passes of its loop, so that over any passes of
the loop a hart releases each lock as often as it takes it; and while fewer than `2 ^ 31` pids have
been handed out, the pids in use are positive and distinct. -/
theorem process_exclusivity {tr : List Event} {s : Machine} (hr : Runs tr s) :
    (∀ p, (∀ h, s.cpu h = some p → s.lock p ≠ some h) →
      ((s.proc p).state = .running ↔ ∃ h, s.cpu h = some p)) ∧
    (∀ h h' p, s.cpu h = some p → s.cpu h' = some p → h = h') ∧
    (∀ p, Holder p none (lockEvents tr) (s.lock p)) ∧
    (∀ h, (s.sched h).place = .idle → (∀ p, s.lock p ≠ some h) ∧
      ∀ es s', Trans.Run Step s es s' → (s'.sched h).place = .idle → ∀ p,
        (lockEvents es).count (.acquire h p) = (lockEvents es).count (.release h p)) ∧
    (s.nextpid ≤ 2 ^ 31 → ∀ p, (s.proc p).state ≠ .unused → 0 < int32 (s.proc p).pid ∧
      ∀ q, q ≠ p → (s.proc q).state ≠ .unused → int32 (s.proc q).pid ≠ int32 (s.proc p).pid) := by
  have hs := hr.placed
  have free : ∀ {s : Machine}, Placed s → ∀ h, (s.sched h).place = .idle → ∀ p, s.lock p ≠ some h :=
    fun hs h hi p => hs.ok.lock_ne_of_idle (show _ from hi)
  refine ⟨fun p hw => ⟨hs.cpu_of_running, fun ⟨h, hc⟩ => hs.running_of_cpu hc (hw h hc)⟩,
    fun h h' p hc hc' => ?_, fun p => holder_run placed_boot hr p, fun h hi => ⟨free hs h hi, ?_⟩,
    fun hp p hu => hr.numbered.pids hp hu⟩
  · rw [hs.cpu] at hc hc'
    exact hs.ok.unique h h' p hc hc'
  · intro es s' hr' hi' p
    have hcount := (holder_run hs hr' p).count_eq (h := h)
    have hs' : Placed s' := Runs.placed (hr.trans hr')
    simpa [free hs h hi p, free hs' h hi' p] using hcount

/-- The first process is dispatched on hart 1 and lets go of its lock. -/
theorem process_exclusivity_first_dispatch : ∃ tr s, Runs tr s ∧ s.cpu 1 = some 0 ∧
    ((s.proc 0).state = .running ↔ ∃ h, s.cpu h = some 0) := by
  have hr := ((Trans.Run.refl.tail (@Step.schedTop Machine.boot 1 rfl)).tail
    (@Step.schedRun _ 1 0 false 0 _ rfl rfl rfl)).tail (@Step.resume _ 1 0 0 false rfl rfl)
  refine ⟨_, _, hr, rfl, (process_exclusivity hr).1 0 fun h hc => ?_⟩
  simp

end Xv6
