import Xv6.Proc.Family

/-!
# The machine keeps the parent protocol

Every step of the machine is a move of the protocol of `Kinship` (`Step.kin`), so its invariant holds
along every run: parents are alive and no wakeup is lost.
-/

namespace Xv6

open Function Machine Proc Pc ProcState Option

open Kinship (Life Stage)

variable {s s' : Machine} {h : Hart} {p q : Slot} {k : Pc} {x : Proc} {es : List Event}

/-! ## The steps as moves of the protocol -/

theorem kin_setPc (hp : (s.proc p).state ≠ .sleeping) :
    (s.setPc p k).kin = s.kin.goto p k.stage := by
  unfold kin Kinship.State.goto
  simp only [setPc, Kinship.State.mk.injEq, true_and]
  constructor
  · funext r
    by_cases hrp : r = p
    · subst hrp
      simp [InWait, hp]
    · simp [InWait, hrp]
  · funext r
    by_cases hrp : r = p
    · subst hrp
      simp
    · simp [hrp]

theorem goto_self (s : Kinship.State Slot) (p : Slot) : s.goto p (s.stage p) = s := by
  unfold Kinship.State.goto
  rw [update_eq_self]

theorem kin_setPc_of_eq (hp : (s.proc p).state ≠ .sleeping) (hk : k.stage = (s.pc p).stage) :
    (s.setPc p k).kin = s.kin := by
  rw [kin_setPc hp, hk]
  exact goto_self s.kin p

theorem kin_setProc_update
    (hz : x.state = .sleeping ∧ (∃ a, s.pc q = .waitLock a) ↔ s.InWait q) :
    (s.setProc q x).kin = { s.kin with
      life := update s.kin.life q x.state.life
      parent := update s.kin.parent q x.parent } := by
  unfold kin
  simp only [setProc, Kinship.State.mk.injEq, true_and, and_true]
  refine ⟨?_, ?_, ?_⟩
  · funext r
    by_cases hr : r = q
    · subst hr; simp
    · simp [hr]
  · funext r
    by_cases hr : r = q
    · subst hr; simp
    · simp [hr]
  · funext r
    by_cases hr : r = q
    · subst hr; simpa [InWait] using hz
    · simp [InWait, hr]

/-- A change of a record that the protocol does not see. -/
theorem kin_setProc (hl : x.state.life = (s.proc q).state.life)
    (hpar : x.parent = (s.proc q).parent)
    (hz : x.state = .sleeping ∧ (∃ a, s.pc q = .waitLock a) ↔ s.InWait q) :
    (s.setProc q x).kin = s.kin := by
  rw [kin_setProc_update hz, show x.state.life = s.kin.life q from hl,
    show x.parent = s.kin.parent q from hpar, update_eq_self, update_eq_self]

/-- A change of a record that keeps its state and parent. -/
theorem kin_setProc_of_state (hl : x.state = (s.proc q).state) (hpar : x.parent = (s.proc q).parent) :
    (s.setProc q x).kin = s.kin :=
  kin_setProc (by rw [hl]) hpar (by rw [hl]; rfl)

theorem kin_clockintr : (s.clockintr h).kin = s.kin := by
  obtain ⟨t, a, i, f, -, e⟩ := s.clockintr_eq h
  rw [e]
  rfl

theorem zombie_of_life {x : ProcState} (hx : x.life = .zombie) : x = .zombie := by
  cases x <;> simp_all [life]

theorem wakeup_life (c : Option Chan) (x : Proc) : (x.wakeup c).state.life = x.state.life := by
  unfold wakeup
  split
  · simp_all [life]
  · rfl

theorem wakeup_parent (c : Option Chan) (x : Proc) : (x.wakeup c).parent = x.parent := by
  unfold wakeup
  split <;> rfl

theorem kin_wakeup (hc : Chans s) (c : Option Chan) :
    (s.setProc q ((s.proc q).wakeup c)).kin =
      { s.kin with asleep := fun r => s.InWait r ∧ (c = some (.proc r) → r ≠ q) } := by
  unfold kin
  simp only [setProc, Kinship.State.mk.injEq, true_and, and_true]
  refine ⟨?_, ?_, ?_⟩
  · funext r
    by_cases hr : r = q
    · subst hr; simp [wakeup_life]
    · simp [hr]
  · funext r
    by_cases hr : r = q
    · subst hr; simp [wakeup_parent]
    · simp [hr]
  · funext r
    by_cases hr : r = q
    · subst hr
      have hcr := hc r
      simp only [InWait, update_self, wakeup] at hcr ⊢
      grind
    · simp [InWait, hr]

/-- A call by pid wakes the process it finds, or does nothing to the protocol. -/
theorem kin_pidCall (c : PidCall) :
    Kinship.Move s.kin (s.setProc q (c.act (s.proc q))).kin := by
  cases c with
  | kkill =>
    convert Kinship.Move.wake s.kin q using 1
    unfold kin
    simp only [setProc, Kinship.State.mk.injEq, true_and, and_true]
    refine ⟨?_, ?_, ?_⟩
    · funext r
      by_cases hr : r = q
      · subst hr
        simp only [update_self, PidCall.act]
        split
        · simp_all [life]
        · rfl
      · simp [hr]
    · funext r
      by_cases hr : r = q
      · subst hr; simp [PidCall.act]
      · simp [hr]
    · funext r
      by_cases hr : r = q
      · subst hr
        simp only [InWait, update_self, PidCall.act]
        grind
      · simp [InWait, hr]
  | _ =>
    rw [kin_setProc_of_state (by rfl) (by rfl)]
    exact .stay _

/-- What holds of the machine beside the protocol. -/
structure Family (s : Machine) : Prop where
  placed : Placed s
  waits : Waits s
  chans : Chans s
  ok : Kinship.Ok s.kin

theorem Family.awake (hs : Family s) (hr : s.Runs h p) : (s.proc p).state ≠ .sleeping := by
  simp [hs.placed.running_of_runs hr]

theorem Family.live (hs : Family s) (hr : s.Runs h p) : s.kin.life p = .live := by
  simp [kin, hs.placed.running_of_runs hr, life]

theorem Family.not_inWait (hs : Family s) (hr : s.Runs h p) : ¬ s.kin.asleep p :=
  fun ha => hs.awake hr ha.1

theorem kin_stay (hk : s'.kin = s.kin) : Kinship.Move s.kin s'.kin := hk ▸ .stay _

variable {addr : ℕ} {st : ℤ} {now : ℕ}

/-- A thread leaves its hart, outside the protocol. -/
theorem kin_swtch {b : Bool} (hp : (s.proc p).state.life = .live)
    (hl : x.state.life = .live) (hpar : x.parent = (s.proc p).parent)
    (hz : x.state = .sleeping ∧ (∃ a, s.pc p = .waitLock a) ↔ s.InWait p) :
    (s.swtch h now p b x).kin = s.kin :=
  kin_setProc (s := s) (hl.trans hp.symm) hpar hz

/-- A step that changes the record of `q` and the place of the thread of `p`. -/
theorem kin_setProc_setPc (hp : (s.proc p).state ≠ .sleeping)
    (hx : x.state = .sleeping → (s.proc q).state = .sleeping) :
    ((s.setProc q x).setPc p k).kin = (s.setProc q x).kin.goto p k.stage := by
  refine kin_setPc ?_
  by_cases hpq : p = q
  · subst hpq
    simpa using mt hx hp
  · simpa [hpq] using hp

/-- A step that the protocol does not see. -/
theorem kin_quiet (hp : (s.proc p).state ≠ .sleeping) (hl : x.state = (s.proc q).state)
    (hpar : x.parent = (s.proc q).parent) (hk : k.stage = (s.pc p).stage) :
    ((s.setProc q x).setPc p k).kin = s.kin := by
  rw [kin_setProc_setPc hp (by rw [hl]; exact id), kin_setProc_of_state hl hpar, hk]
  exact goto_self s.kin p

/-- `kfork` takes a free slot. -/
theorem kin_claim (hs : Family s) (hr : s.Runs h p) (hp : s.pc p = .forkScan q)
    (hq : (s.proc q).state = .unused) (hx : x.state = .used)
    (hpar : x.parent = (s.proc q).parent) : Kinship.Move s.kin (s.claim h p q x).kin := by
  have hqp : p ≠ q := by
    rintro rfl
    simp [hs.placed.running_of_runs hr] at hq
  have hqi : s.kin.stage q = .idle := hs.ok.idle_of_not_live (by simp [kin, hq, life])
  have hm := Kinship.Move.claim s.kin p q (by simp [kin, hp, stage]) (hs.live hr)
    (hs.not_inWait hr) (by simp [kin, hq, life])
  convert hm using 1
  have h₁ : ((s.setProc q x).setPc q .prepareReturn).kin = (s.setProc q x).kin :=
    kin_setPc_of_eq (by simp [hx]) hqi.symm
  change (((s.setProc q x).setPc q .prepareReturn).setPc p (.forkCopy q)).kin = _
  rw [kin_setPc (by simpa [hqp] using hs.awake hr), h₁,
    kin_setProc_update (by simp [InWait, hq, hx]), hx,
    show x.parent = s.kin.parent q from hpar, update_eq_self]
  rfl

/-- The child of a `kfork` gets its parent. -/
theorem kin_link (hs : Family s) (hr : s.Runs h p) (hp : s.pc p = .forkParent q)
    (hl : s.waitLock = none) : Kinship.Move s.kin
      ((s.setProc q { s.proc q with parent := some p }).setPc p (.forkReady q)).kin := by
  have hm := Kinship.Move.link s.kin p q (by simp [kin, hp, stage]) (hs.waits.free hl)
  convert hm using 1
  rw [kin_setProc_setPc (hs.awake hr) (by exact id), kin_setProc_update (by exact Iff.rfl)]
  simp only [show (s.proc q).state.life = s.kin.life q from rfl, update_eq_self]
  rfl

/-- The child of a `kfork` becomes `RUNNABLE`. -/
theorem kin_publish (hs : Family s) (hr : s.Runs h p) (hp : s.pc p = .forkReady q) :
    Kinship.Move s.kin
      ((s.setProc q { s.proc q with state := .runnable }).setPc p .kernel).kin := by
  have hu := hs.placed.used_of_child (p := p) (q := q) (by rw [hp]; rfl)
  have hm := Kinship.Move.publish s.kin p q (by simp [kin, hp, stage])
  convert hm using 1
  rw [kin_setProc_setPc (hs.awake hr) (by simp),
    kin_setProc_update (by simp [InWait, hu])]
  simp only [show (s.proc q).parent = s.kin.parent q from rfl, update_eq_self]
  rfl

theorem kin_give (hs : Family s) (hr : s.Runs h p) (hp : s.pc p = .exitReparent st q)
    (hq : (s.proc q).parent = some p) : Kinship.Move s.kin
      ((s.setProc q { s.proc q with parent := some s.initproc }).setPc p
        (.exitWakeInit st q 0)).kin := by
  have hm := Kinship.Move.give s.kin p q (before q) (by simp [kin, hp, stage]) hq
  convert hm using 1
  rw [kin_setProc_setPc (hs.awake hr) (by exact id), kin_setProc_update (by exact Iff.rfl)]
  simp only [show (s.proc q).state.life = s.kin.life q from rfl, update_eq_self, stage,
    before_zero, before_succ]
  rfl

theorem kin_die (hs : Family s) (hsc : s.sched h = .away now p)
    (hp : s.pc p = .exitZombie st) : Kinship.Move s.kin
      (((s.swtch h now p false { s.proc p with xstate := st, state := .zombie }).setWait
        none).setPc p .exited).kin := by
  have hrun := hs.placed.running hsc
  have hm := Kinship.Move.die s.kin p (by simp [kin, hp, stage])
  convert hm using 1
  change ((s.setProc p { s.proc p with xstate := st, state := .zombie }).setPc p .exited).kin = _
  rw [kin_setProc_setPc (by simp [hrun]) (by simp),
    kin_setProc_update (by simp [InWait, hrun])]
  simp only [show (s.proc p).parent = s.kin.parent p from rfl, update_eq_self]
  rfl

/-- `kwait` removes a zombie. -/
theorem kin_reap {kids : Bool} (hs : Family s) (hr : s.Runs h p)
    (hp : s.pc p = .waitScan addr kids q) (hq : (s.proc q).parent = some p)
    (hz : (s.proc q).state = .zombie) : Kinship.Move s.kin
      (((s.setProc q (freeproc (s.proc q))).setWait none).setPc p .kernel).kin := by
  have hm := Kinship.Move.reap s.kin p q (before q) (by simp [kin, hp, stage]) hq
    (by simp [kin, hz, life])
  convert hm using 1
  change ((s.setProc q (freeproc (s.proc q))).setPc p .kernel).kin = _
  rw [kin_setProc_setPc (hs.awake hr) (by simp [freeproc, empty]),
    kin_setProc_update (by simp [InWait, hz, freeproc, empty])]
  rfl

/-- `kwait` goes to sleep. -/
theorem kin_rest (hs : Family s) (hsc : s.sched h = .away now p)
    (hp : s.pc p = .waitSleep addr) : Kinship.Move s.kin
      (((s.swtch h now p true { s.proc p with chan := some (.proc p), state := .sleeping
        }).setWait none).setPc p (.waitLock addr)).kin := by
  have hrun := hs.placed.running hsc
  have hm := Kinship.Move.rest s.kin p (by simp [kin, hp, stage])
  convert hm using 1
  unfold kin Kinship.State.goto
  simp only [setPc, setWait, swtch, setSched, setCtx,
    setLock, setProc, Kinship.State.mk.injEq, true_and]
  refine ⟨?_, ?_, ?_, ?_⟩ <;> funext r <;> by_cases hr : r = p
  all_goals simp [hr, hrun, hp, InWait, life, stage]

theorem kin_wakeInit {c : Slot} (hs : Family s) (hr : s.Runs h p)
    (hp : s.pc p = .exitWakeInit st c q) : Kinship.Move s.kin
      ((s.setProc q ((s.proc q).wakeup (some (.proc s.initproc)))).setPc p
        (.exitWakeInit st c (q + 1))).kin := by
  have hm := Kinship.Move.wakeRoot s.kin p q _ _ (congrArg stage hp)
  convert hm using 1
  rw [kin_setProc_setPc (hs.awake hr) fun hx => (wakeup_chans hx).1, kin_wakeup hs.chans]
  simp only [some.injEq, Chan.proc.injEq, stage, before_succ, eq_comm]
  rfl

theorem kin_wakeParent {o : Option Slot} (hs : Family s) (hr : s.Runs h p)
    (hp : s.pc p = .exitWakeParent st o q) : Kinship.Move s.kin
      ((s.setProc q ((s.proc q).wakeup (o.map .proc))).setPc p
        (.exitWakeParent st o (q + 1))).kin := by
  have hm := Kinship.Move.call s.kin p q _ _ (congrArg stage hp)
  convert hm using 1
  rw [kin_setProc_setPc (hs.awake hr) fun hx => (wakeup_chans hx).1, kin_wakeup hs.chans]
  simp only [map_eq_some_iff, Chan.proc.injEq, exists_eq_right, stage, before_succ]
  rfl

/-- The steps of a thread inside `kexit` and `kwait` that change only its place. -/
theorem kin_go {m : Kinship.State Slot} (hs : Family s) (hr : s.Runs h p)
    (hm : Kinship.Move s.kin m) (he : s.kin.goto p k.stage = m) :
    Kinship.Move s.kin (s.setPc p k).kin := by
  rw [kin_setPc (hs.awake hr), he]
  exact hm

theorem Step.kin (hs : Family s) (st : Step s es s') : Kinship.Move s.kin s'.kin := by
  cases st with
  | schedTop | schedEnd | schedBack => exact .stay _
  | schedSkip _ _ hv =>
    exact kin_stay (kin_setProc_of_state (s := s) (visited hv).state (visited hv).parent)
  | schedRun _ _ hv =>
    have hq := runnable_of_visit hv
    refine kin_stay (kin_setProc (s := s) (by simp [dispatch, hq, life]) ?_ ?_)
    · exact (visited hv).parent
    · simp [dispatch, InWait, hq]
  | resume => exact kin_stay (kin_setProc_of_state (s := s) (by rfl) (by rfl))
  | timerIdle | timerKernel => exact kin_stay kin_clockintr
  | @timerUser h p hr hp =>
    obtain ⟨t, a, i, f, -, e⟩ := s.clockintr_eq h
    rw [e]
    exact kin_stay (kin_setPc_of_eq (by exact hs.awake hr) (by simp [hp, stage]))
  | timerCharge hr hp _ | setkilled hr hp _ | forkInherit hr hp _ | exitClose hr hp
  | exitCwd hr hp => exact kin_stay (kin_quiet (hs.awake hr) (by rfl) (by rfl) (by rw [hp]; rfl))
  | yield hsc hc _ =>
    have hrun := hs.placed.running hsc
    exact kin_stay (kin_swtch (by simp [hrun, life]) (by rfl) (by rfl)
      (by simp [InWait, hrun]))
  | checkAlive hr hk _ _ =>
    exact kin_stay (kin_setPc_of_eq (hs.awake hr) (by simp [stage_of_alive hk]))
  | prepareReturn hr hk => exact kin_stay (kin_setPc_of_eq (hs.awake hr) (stage_of_returns hk).symm)
  | checkKilled hr hk _ _ hi =>
    exact kin_go hs hr (.exit s.kin _ (stage_of_alive hk).1 (hs.live hr) hi (hs.not_inWait hr)) rfl
  | @own _ _ u hr hp =>
    exact kin_stay (kin_setProc_of_state (own_state ..) (by cases u <;> rfl))
  | @sleep _ _ p _ hsc hc hp _ =>
    have hrun := hs.placed.running hsc
    refine kin_stay (kin_swtch (by simp [hrun, life]) (by rfl) (by rfl) ?_)
    cases hpc : s.pc p <;> simp_all [InWait, sleeps]
  | wakeup =>
    refine kin_stay ?_
    rw [kin_wakeup hs.chans]
    simp [kin]
  | @pidHit _ p q call pid hr hp _ _ =>
    have hk : ((s.setProc q (call.act (s.proc q))).setPc p .kernel).kin =
        (s.setProc q (call.act (s.proc q))).kin := by
      rw [kin_setProc_setPc (hs.awake hr) fun hx => (pidCall_chans hx).1,
        show kernel.stage = (s.setProc q (call.act (s.proc q))).kin.stage p by
          simp [kin, hp, stage], goto_self]
    rw [hk]
    exact kin_pidCall call
  | forkFail hr hp _ hq =>
    refine kin_stay (kin_quiet (s := { s with nextpid := _ }) (hs.awake hr) hq.symm ?_
      (by rw [hp]; rfl))
    exact (hs.ok.parent_vacant _ (by simp [kin, hq, life])).symm
  | forkClaim hr hp _ hq => exact kin_claim hs hr hp hq rfl rfl
  | forkRelease hr hp =>
    exact kin_stay (kin_setPc_of_eq (s := s.setLock _ none) (by exact hs.awake hr)
      (by simp [hp, stage]))
  | forkParent hr hp hl => exact kin_link hs hr hp hl
  | forkReady hr hp _ => exact kin_publish hs hr hp
  | callExit hr hp hi =>
    exact kin_go hs hr (.exit s.kin _ (congrArg stage hp) (hs.live hr) hi (hs.not_inWait hr)) rfl
  | exitLock hr hp hl =>
    exact kin_go hs hr (.lockExit s.kin _ (congrArg stage hp) (hs.waits.free hl))
      (by rw [stage, before_zero])
  | exitAdopt hr hp hq => exact kin_give hs hr hp hq
  | exitSkip hr hp hq =>
    exact kin_go hs hr (.skip s.kin _ _ _ (congrArg stage hp) hq) (by rw [stage, before_succ])
  | exitReparented hr hp =>
    exact kin_go hs hr (.given s.kin _ _ (congrArg stage hp) before_end)
      (by rw [stage, before_zero]; rfl)
  | @wakeInitSelf _ p _ _ hr hp =>
    have hpr := hs.ok.root_stays p (by simp [kin, hp, stage, Stage.Exits])
    refine kin_go hs hr (.wakeRoot s.kin p p _ _ (congrArg stage hp)) ?_
    have hq : (fun x => s.kin.asleep x ∧ (x = s.kin.root → x ≠ p)) = s.kin.asleep := by
      funext x
      simp only [eq_iff_iff, and_iff_left_iff_imp]
      rintro - rfl
      exact hpr.symm
    rw [hq, stage, before_succ p]
  | wakeInit hr hp _ _ => exact kin_wakeInit hs hr hp
  | wakeInitEnd hr hp =>
    exact kin_go hs hr (.wokenRoot s.kin _ _ _ (congrArg stage hp) before_end) rfl
  | @wakeParentSelf _ p o _ hr hp =>
    refine kin_go hs hr (.call s.kin p p _ _ (congrArg stage hp)) ?_
    have hq : (fun x => s.kin.asleep x ∧ (o = some x → x ≠ p)) = s.kin.asleep := by
      funext x
      simp only [eq_iff_iff, and_iff_left_iff_imp]
      rintro hx - rfl
      exact hs.not_inWait hr hx
    rw [hq, stage, before_succ]
  | wakeParent hr hp _ _ => exact kin_wakeParent hs hr hp
  | wakeParentEnd hr hp =>
    exact kin_go hs hr (.called s.kin _ _ _ (congrArg stage hp) before_end) rfl
  | exitZombie hsc _ hp _ => exact kin_die hs hsc hp
  | waitLock hr hp hl =>
    exact kin_go hs hr (.lockWait s.kin _ (congrArg stage hp) (hs.live hr) (hs.not_inWait hr)
      (hs.waits.free hl)) (by rw [stage, before_zero])
  | waitOther hr hp hq =>
    exact kin_go hs hr (.look s.kin _ _ _ (congrArg stage hp) fun h => absurd h hq)
      (by rw [stage, before_succ])
  | waitChild hr hp hq _ hz =>
    refine kin_go hs hr (.look s.kin _ _ _ (congrArg stage hp) fun _ hz' => hz ?_)
      (by rw [stage, before_succ])
    exact zombie_of_life hz'
  | waitReap hr hp hq _ hz => exact kin_reap hs hr hp hq hz
  | waitFault hr hp hq _ hz _ | waitNone hr hp | waitKilled hr hp _ _ =>
    exact kin_go hs hr (.giveUp s.kin _ _ (congrArg stage hp)) rfl
  | waitAlive hr hp _ _ =>
    exact kin_go hs hr (.commit s.kin _ _ (congrArg stage hp) before_end) rfl
  | waitSleep hsc _ hp _ => exact kin_rest hs hsc hp
  | _ hr hp => exact kin_stay (kin_setPc_of_eq (hs.awake hr) (by rw [hp]; rfl))

/-! ## The invariant along runs -/

theorem Step.family (hs : Family s) (st : Step s es s') : Family s' :=
  ⟨st.placed hs.placed, st.waits hs.placed hs.waits, st.chans hs.placed hs.chans, (st.kin hs).ok hs.ok⟩

theorem boot_stage (p : Slot) : (Machine.boot.pc p).stage = .idle := by
  by_cases h0 : p = 0 <;> simp [Machine.boot, h0, stage]

theorem boot_life (p : Slot) : Machine.boot.kin.life p = if p = 0 then .live else .vacant := by
  by_cases h0 : p = 0 <;> simp [kin, Machine.boot, h0, empty, life]

theorem family_boot : Family Machine.boot where
  placed := placed_boot
  waits p hp := by
    rw [boot_stage] at hp
    exact hp.elim
  chans p hp := by
    by_cases h0 : p = 0 <;> simp [InWait, Machine.boot, h0] at hp
  ok := by
    have hst : ∀ p, Machine.boot.kin.stage p = .idle := boot_stage
    have hpar : ∀ p, Machine.boot.kin.parent p = none := fun p => by
      by_cases h0 : p = 0 <;> simp [kin, Machine.boot, h0, empty, allocproc]
    have hna : ∀ p, ¬ Machine.boot.kin.asleep p := fun p hp => by
      by_cases h0 : p = 0 <;> simp [kin, InWait, Machine.boot, h0] at hp
    have hl := boot_life
    have hroot : Machine.boot.kin.root = 0 := rfl
    constructor
    case parent_live =>
      intro c hc hne
      simp [hl, show c ≠ 0 from hne] at hc
    all_goals simp [hst, hpar, hna, hl, hroot, Stage.Exits, Stage.Holds, Stage.child, Stage.Given,
      Stage.Seen]

theorem Runs.family {tr : List Event} (hr : Runs tr s) : Family s :=
  Trans.Run.invariant (I := fun _ s => Family s) family_boot (fun _ _ _ _ hs st => st.family hs) hr

end Xv6
