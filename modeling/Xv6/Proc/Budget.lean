import Xv6.Proc.Identity

/-!
# CPU accounts

The account of a process is its budget, the ticks it has used and the start of its accounting
window. A step does one of six things to an account (`Step.account`): nothing, the scheduler's or
`setcpulimit`'s start of a window, the charge of a tick, the inheritance of a `kfork`, and the
clearing at allocation and release. A running process always has ticks left until it is charged
(`Step.within`).
-/

namespace Xv6

open Function Machine Proc List

/-! ## What a step does to the account of a process -/

/-- The budget, the ticks used and the start of the window. -/
def Proc.account (x : Proc) : ℤ × ℤ × ℕ := (x.cpuBudget, x.ticksUsed, x.budgetWindowStart)

/-- The process whose account an event is about. -/
def Event.account : Event → Option Slot
  | window p _ => some p
  | limit p _ => some p
  | charge p => some p
  | _ => none

/-- The events on the account of `p`. -/
def accountEvents (p : Slot) (es : List Event) : List Event :=
  es.filter fun e => e.account = some p

/-- What a step can do to the account of `p`. -/
inductive Account (s s' : Machine) (p : Slot) (es : List Event) : Prop
  | same : accountEvents p es = [] → (s'.proc p).account = (s.proc p).account → Account s s' p es
  | window (now : ℕ) : s.lock p = none → (s.proc p).restarts now = true →
      accountEvents p es = [.window p now] →
      (s'.proc p).account = ((s.proc p).cpuBudget, 0, now) → Account s s' p es
  | limit (limit : ℤ) (now : ℕ) : s.lock p = none → (s.proc p).state ≠ .unused →
      accountEvents p es = [.limit p now] →
      (s'.proc p).account = (limit, 0, now) → Account s s' p es
  | charge {h : Hart} : s.Runs h p → accountEvents p es = [.charge p] →
      (s'.proc p).account = ((s.proc p).cpuBudget, (s.proc p).ticksUsed + 1,
        (s.proc p).budgetWindowStart) → Account s s' p es
  | inherit {r : Slot} : s.pc r = .forkCopy p → s'.pc r = .forkRelease p → accountEvents p es = [] →
      (s'.proc p).account = ((s.proc r).cpuBudget, 0, (s.proc r).budgetWindowStart) →
      Account s s' p es
  | reborn : s.ident p = none ∨ s'.ident p = none → accountEvents p es = [] →
      (s'.proc p).account = (0, 0, 0) → Account s s' p es

variable {s s' : Machine} {h : Hart} {p q : Slot} {es : List Event}

@[simp] theorem accountEvents_nil (p : Slot) : accountEvents p [] = [] := rfl

@[simp] theorem accountEvents_singleton (p : Slot) (e : Event) :
    accountEvents p [e] = if e.account = some p then [e] else [] := by
  simp [accountEvents, filter_cons]

@[simp] theorem accountEvents_append (p : Slot) (es fs : List Event) :
    accountEvents p (es ++ fs) = accountEvents p es ++ accountEvents p fs := filter_append _ _

@[simp] theorem accountEvents_lock (p : Slot) (e : Dispatch.LockEvent Hart Slot) (es : List Event) :
    accountEvents p (.lock e :: es) = accountEvents p es := by
  simp [accountEvents, Event.account]

@[simp] theorem accountEvents_sect (p : Slot) (h : Hart) (q : Slot) (es : List Event) :
    accountEvents p (sect h q es) = accountEvents p es := by
  rw [sect, accountEvents_lock, accountEvents_append, accountEvents_lock]
  exact append_nil _

variable {now : ℕ} {x y : Proc} {c : Ctx}

theorem account_update (hx : x.account = (s.proc q).account) (p : Slot) :
    (update s.proc q x p).account = (s.proc p).account := by
  by_cases hp : p = q
  · subst hp
    simpa using hx
  · simp [hp]

theorem visit_account (now : ℕ) (x : Proc) : (x.visit now).1.account =
    if x.restarts now then (x.cpuBudget, 0, now) else x.account := by
  unfold visit budget eco restarts account
  grind

/-- A process that the visit lets run has ticks left. -/
theorem used_of_visit (hv : x.visit now = (y, true))
    (hb : 0 < y.cpuBudget) : y.ticksUsed < y.cpuBudget := by
  unfold visit budget eco at hv
  grind

theorem account_visit {b : Bool} (hl : s.lock q = none)
    (hv : (s.proc q).visit now = (x, b)) (hes : ∀ p, accountEvents p es =
      accountEvents p (windowEvents now q (s.proc q)))
    (hp : (s'.proc p).account = (update s.proc q x p).account) : Account s s' p es := by
  have hx := visit_account now (s.proc q)
  rw [hv] at hx
  by_cases hpq : p = q
  · subst hpq
    rw [update_self] at hp
    by_cases hr : (s.proc p).restarts now = true
    · rw [if_pos hr] at hx
      refine .window now hl hr ?_ (hp.trans hx)
      rw [hes, windowEvents, if_pos hr]
      simp [Event.account]
    · rw [if_neg hr] at hx
      refine .same ?_ (hp.trans hx)
      rw [hes, windowEvents, if_neg hr]
      rfl
  · rw [update_of_ne hpq] at hp
    refine .same ?_ hp
    rw [hes, windowEvents]
    split
    · simp [Event.account, Ne.symm hpq]
    · rfl

theorem wakeup_account (chan : Option Chan) (x : Proc) : (x.wakeup chan).account = x.account := by
  unfold wakeup
  split <;> rfl

theorem account_free : (freeproc (s.proc q)).account = (0, 0, 0) := rfl

theorem Step.account (st : Step s es s') (p : Slot) : Account s s' p es := by
  cases st with
  | schedSkip _ hl hv => exact account_visit hl hv (fun p => by simp) rfl
  | @schedRun _ _ _ q _ _ hl hv =>
    refine account_visit hl hv (fun p => by simp) ?_
    by_cases hpq : p = q
    · subst hpq
      simp [dispatch, account]
    · simp [hpq]
  | resume _ _ | yield _ _ _ | sleep _ _ _ _ | forkParent _ _ _ | exitClose _ _ | exitCwd _ _
  | exitAdopt _ _ _ | exitZombie _ _ _ _ | waitSleep _ _ _ _ =>
    exact .same (by rfl) (account_update (by rfl) p)
  | @timerIdle h _ | @timerUser h q _ _ | @timerKernel h q _ _ =>
    obtain ⟨t, a, i, f, -, e⟩ := s.clockintr_eq h
    rw [e]
    exact .same rfl rfl
  | @timerCharge h q hr _ _ =>
    by_cases hpq : p = q
    · subst hpq
      exact .charge hr (by simp [Event.account]) (by simp [charge, account])
    · exact .same (by simp [Event.account, Ne.symm hpq]) (by simp [hpq])
  | setkilled _ _ _ | forkReady _ _ _ => exact .same (by simp) (account_update (by rfl) p)
  | @own _ _ u _ _ => exact .same (by rfl) (account_update (by cases u <;> rfl) p)
  | wakeup _ | wakeInit _ _ _ _ | wakeParent _ _ _ _ =>
    exact .same (by simp) (account_update (wakeup_account ..) p)
  | @pidHit h r q call pid _ _ hl hh =>
    cases call with
    | setcpulimit limit now =>
      by_cases hpq : p = q
      · subst hpq
        have hu : (s.proc p).state ≠ .unused := by
          intro hu
          simp [PidCall.hit, hu] at hh
        exact .limit limit now hl hu (by simp [PidCall.events, Event.account])
          (by simp [PidCall.act, account])
      · exact .same (by simp [PidCall.events, Event.account, Ne.symm hpq])
          (by simp [hpq])
    | _ => exact .same (by simp [PidCall.events, Event.account]) (account_update (by rfl) p)
  | @forkFail h r q _ _ _ hu =>
    by_cases hpq : p = q
    · subst hpq
      exact .reborn (.inl (by simp [ident, hu])) (by simp) (by simp; rfl)
    · exact .same (by simp) (by simp [hpq])
  | @forkClaim h r q _ _ _ hu =>
    by_cases hpq : p = q
    · subst hpq
      exact .reborn (.inl (by simp [ident, hu])) rfl (by simp [claim]; rfl)
    · exact .same rfl (by simp [claim, hpq])
  | @forkInherit h r q _ hp _ =>
    by_cases hpq : p = q
    · subst hpq
      exact .inherit hp (by simp) (by simp) (by simp; rfl)
    · exact .same (by simp) (by simp [hpq])
  | @waitReap h r q _ _ _ _ _ _ _ =>
    by_cases hpq : p = q
    · subst hpq
      refine .reborn (.inr ?_) (by simp [Event.account]) (by simp; rfl)
      simp [ident, freeproc, empty]
    · exact .same (by simp [Event.account]) (by simp [hpq])
  | _ => exact .same (by simp [Event.account]) rfl

/-! ## Invariants of the accounts -/

/-- A running process that has not been charged in this turn has ticks left. -/
def Proc.Within (x : Proc) (c : Ctx) : Prop :=
  x.state = .running → c ≠ .yielding → 0 < x.cpuBudget → x.ticksUsed < x.cpuBudget

theorem Proc.Within.congr (h : y.Within c) (hst : x.state = y.state)
    (ha : x.account = y.account) : x.Within c := by
  simp only [account, Prod.mk.injEq] at ha
  intro hr hc hb
  rw [ha.1, ha.2.1]
  exact h (hst ▸ hr) hc (ha.1 ▸ hb)

/-- A step that changes one record and neither its turn nor its account. -/
theorem within_setProc (hw : ∀ p, (s.proc p).Within (s.ctx p))
    (hst : x.state ≠ .running ∨ x.state = (s.proc q).state ∧ x.account = (s.proc q).account)
    (p : Slot) : (update s.proc q x p).Within (s.ctx p) := by
  by_cases hp : p = q
  · subst hp
    rw [update_self]
    rcases hst with hst | ⟨hst, ha⟩
    · exact fun hr => absurd hr hst
    · exact (hw p).congr hst ha
  · simpa [hp] using hw p

/-- A step that takes a process off its hart, whatever happens to its context. -/
theorem within_swtch (hw : ∀ p, (s.proc p).Within (s.ctx p))
    (hx : x.state ≠ .running) (p : Slot) :
    (update s.proc q x p).Within (update s.ctx q c p) := by
  by_cases hp : p = q
  · subst hp
    exact fun hr => absurd (by simpa using hr) hx
  · simpa [hp] using hw p

theorem wakeup_running {chan : Option Chan} {x : Proc} :
    (x.wakeup chan).state ≠ .running ∨ (x.wakeup chan).state = x.state := by
  unfold wakeup
  grind

theorem Step.within (hs : Placed s) (hw : ∀ p, (s.proc p).Within (s.ctx p)) (st : Step s es s')
    (p : Slot) : (s'.proc p).Within (s'.ctx p) := by
  have woken : ∀ chan q, ((s.proc q).wakeup chan).state ≠ .running ∨
      ((s.proc q).wakeup chan).state = (s.proc q).state ∧
        ((s.proc q).wakeup chan).account = (s.proc q).account := fun chan q =>
    wakeup_running.imp_right fun h => ⟨h, wakeup_account ..⟩
  cases st with
  | @schedSkip _ now _ q _ _ _ hv =>
    have hst := (visited hv).state
    have hac := visit_account now (s.proc q)
    rw [hv] at hac
    refine within_setProc hw ?_ p
    by_cases hr : (s.proc q).state = .running
    · exact .inr ⟨hst, by simpa [restarts, hr] using hac⟩
    · exact .inl (by rwa [hst])
  | @schedRun _ now _ q x _ _ hv =>
    by_cases hp : p = q
    · subst hp
      simp only [setSched_proc, setCpu_proc, setLock_proc,
        setProc_proc, update_self]
      exact fun _ _ hb => show x.ticksUsed < x.cpuBudget from used_of_visit hv hb
    · simpa [hp] using hw p
  | @resume h now q b hsc hc =>
    by_cases hp : p = q
    · subst hp
      simp only [setCtx_proc, setLock_proc, setProc_proc,
        update_self]
      exact fun _ _ hb => hw p (hs.running hsc) (by simp [hc]) hb
    · simpa [hp] using hw p
  | @timerIdle h _ | @timerUser h q _ _ =>
    obtain ⟨t, a, i, f, -, e⟩ := s.clockintr_eq h
    rw [e]
    exact hw p
  | @timerKernel h q hr hp =>
    obtain ⟨t, a, i, f, -, e⟩ := s.clockintr_eq h
    rw [e]
    by_cases hp : p = q
    · subst hp
      exact fun _ hc => absurd (by simp) hc
    · rw [setCtx_ctx, update_of_ne hp]
      exact hw p
  | @timerCharge h q _ _ _ =>
    by_cases hp : p = q
    · subst hp
      exact fun _ hc => absurd (by simp) hc
    · simpa [hp] using hw p
  | yield _ _ _ | sleep _ _ _ _ | exitZombie _ _ _ _ | waitSleep _ _ _ _ =>
    exact within_swtch hw (by simp) p
  | setkilled _ _ _ | forkParent _ _ _ | exitClose _ _ | exitCwd _ _ | exitAdopt _ _ _ =>
    exact within_setProc hw (.inr ⟨by rfl, by rfl⟩) p
  | @own _ _ u _ _ => exact within_setProc hw (.inr (by cases u <;> exact ⟨rfl, rfl⟩)) p
  | wakeup _ | wakeInit _ _ _ _ | wakeParent _ _ _ _ => exact within_setProc hw (woken _ _) p
  | @pidHit h r q call pid _ _ _ _ =>
    cases call with
    | kkill =>
      refine within_setProc hw ?_ p
      by_cases hsl : (s.proc q).state = .sleeping
      · exact .inl (by simp [PidCall.act, hsl])
      · exact .inr ⟨by simp [PidCall.act, hsl], rfl⟩
    | setpowermode mode | setusagelimit max => exact within_setProc hw (.inr ⟨by rfl, by rfl⟩) p
    | setcpulimit limit now =>
      by_cases hp : p = q
      · subst hp
        simp only [setPc_proc, setProc_proc, update_self, PidCall.act]
        exact fun _ _ hb => hb
      · simpa [hp] using hw p
  | forkFail _ _ _ _ | waitReap _ _ _ _ _ =>
    exact within_setProc hw (.inl (by simp [freeproc, empty])) p
  | @forkClaim h r q _ _ _ _ =>
    by_cases hp : p = q
    · subst hp
      exact fun hr => by simp [claim, forkCopy, allocproc] at hr
    · simpa [claim, hp] using hw p
  | @forkInherit h r q _ hpc _ =>
    refine within_setProc hw (.inl ?_) p
    rw [show (Xv6.forkInherit (s.proc r) (s.proc q)).state = (s.proc q).state from rfl,
      hs.used_of_child (show (s.pc r).child = _ by rw [hpc]; rfl)]
    simp
  | forkReady _ _ _ => exact within_setProc hw (.inl (by simp)) p
  | _ => exact hw p

/-- The invariants of the accounts that hold in every run. -/
structure Accounted (s : Machine) : Prop where
  placed : Placed s
  numbered : Numbered s
  within : ∀ p, (s.proc p).Within (s.ctx p)
  /-- The window of a slot in construction starts at zero until it is inherited. -/
  fresh : ∀ r q, s.pc r = .forkCopy q → (s.proc q).budgetWindowStart = 0

/-- A slot that a thread is about to let inherit was so before, or has just been taken. -/
theorem Step.forkCopy_cases (st : Step s es s') {r : Slot} (hr : s'.pc r = .forkCopy q) :
    s.pc r = .forkCopy q ∨ s.ident q = none ∧ (s'.proc q).budgetWindowStart = 0 := by
  rcases st.building (show (s'.pc r).building = some q by rw [hr]; rfl) with h | ⟨-, h⟩ | ⟨h, hx⟩
  · exact .inl (h ▸ hr)
  · simp [h] at hr
  · exact .inr ⟨by simp [ident, h], by rw [hx]; rfl⟩

theorem Placed.lock_of_forkCopy (hs : Placed s) {r : Slot} (hr : s.pc r = .forkCopy q) :
    s.lock q ≠ none := fun hl =>
  hs.ok.not_building_of_lock hl (show s.core.building r = some q by
    simp [core, hr, Pc.building])

/-- The slot that a `kfork` has just taken is not touched by anyone else. -/
theorem Step.fresh (hs : Accounted s) (st : Step s es s') (r q : Slot)
    (hr : s'.pc r = .forkCopy q) : (s'.proc q).budgetWindowStart = 0 := by
  rcases st.forkCopy_cases hr with hr' | ⟨-, h0⟩
  · have hl := hs.placed.lock_of_forkCopy hr'
    have hc : (s.pc r).child = some q := by rw [hr']; rfl
    have hw := hs.fresh r q hr'
    cases st.account q with
    | same _ ha | reborn _ _ ha => simp_all [Proc.account]
    | window _ hl' | limit _ _ hl' => exact absurd hl' hl
    | charge hrun =>
      have := hs.placed.running_of_runs hrun
      simp [hs.placed.used_of_child hc] at this
    | @inherit r' hr₁ hr₂ =>
      have hc' : (s.pc r').child = some q := by rw [hr₁]; rfl
      obtain rfl := hs.placed.ok.builder_unique _ _ q hc hc'
      simp [hr₂] at hr
  · exact h0

theorem Step.accounted (hs : Accounted s) (st : Step s es s') : Accounted s' where
  placed := st.placed hs.placed
  numbered := (st.births hs.placed).numbered hs.numbered
  within := st.within hs.placed hs.within
  fresh := st.fresh hs

theorem accounted_boot : Accounted Machine.boot where
  placed := placed_boot
  numbered := numbered_boot
  within p hr := by
    unfold Machine.boot at hr
    simp only at hr
    split at hr <;> simp [empty] at hr
  fresh r q hr := by
    unfold Machine.boot at hr
    simp only at hr
    split at hr <;> cases hr

theorem Step.ticks (st : Step s es s') : s.ticks ≤ s'.ticks := by
  cases st with
  | @timerIdle h _ | @timerUser h q _ _ | @timerKernel h q _ _ =>
    obtain ⟨t, a, i, f, ht, e⟩ := s.clockintr_eq h
    rw [e]
    exact ht
  | _ => exact Nat.le_refl _

end Xv6
