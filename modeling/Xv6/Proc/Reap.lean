import Xv6.Proc.Identity
import Xv6.Proc.Parents

/-!
# Exit and wait

Along every run, a process that calls `kexit` does so once and keeps the status it called it with
until its record is freed, and the `kwait` of its parent returns it at most once, with its pid and
that status.
-/

namespace Xv6

open Function List Machine ProcState

/-- The status that an exiting thread will leave. -/
def Pc.status : Pc → Option ℤ
  | exitClose v _ | exitLock v | exitReparent v _ | exitWakeInit v _ _ | exitWakeParent v _ _
  | exitZombie v => some v
  | _ => none

/-- Has the process called `kexit`? -/
def Pc.leaves (k : Pc) : Prop := k.status ≠ none ∨ k = .exited

/-- The processes that were returned by `kwait`. -/
def reaped (tr : List Event) : List ℕ :=
  tr.filterMap fun
    | .reap _ c _ _ => some c
    | _ => none

variable {s s' : Machine} {h : Hart} {p q : Slot} {k : Pc} {es : List Event} {n : ℕ} {v : ℤ}

/-! ## What a step does to a thread that exits -/

theorem pc_setPc {r : Slot} (hr : s.Runs h p) :
    (s.setPc p k).pc r = s.pc r ∨ (∃ h, s.Runs h r) ∨ (s.proc r).state = .unused := by
  by_cases hrp : r = p
  · subst hrp
    exact .inr (.inl ⟨h, hr⟩)
  · exact .inl (by simp [hrp])

/-- A thread changes place only while it runs, or when its slot is taken. -/
theorem Step.pc (st : Step s es s') (r : Slot) :
    s'.pc r = s.pc r ∨ (∃ h, s.Runs h r) ∨ (s.proc r).state = .unused := by
  cases st with
  | schedTop | schedEnd | schedSkip | schedRun | schedBack | resume | yield | own | sleep | wakeup =>
    exact .inl rfl
  | @timerIdle h _ | @timerKernel h _ _ _ =>
    obtain ⟨t, a, i, f, -, e⟩ := s.clockintr_eq h
    rw [e]
    exact .inl rfl
  | @timerUser h p hr _ =>
    obtain ⟨t, a, i, f, -, e⟩ := s.clockintr_eq h
    rw [e]
    exact pc_setPc hr
  | @forkClaim h p q hr _ _ hq =>
    by_cases hrq : r = q
    · subst hrq
      exact .inr (.inr hq)
    · have hpc : (s.claim h p q (forkCopy (s.proc p) (allocproc s.nextpid (s.proc q)))).pc r =
          (s.setPc p (.forkCopy q)).pc r := by
        simp [claim, update_apply, hrq]
      rw [hpc]
      exact pc_setPc hr
  | exitZombie hsc hc _ _ | waitSleep hsc hc _ _ => exact pc_setPc ⟨⟨_, hsc⟩, hc⟩
  | _ hr => exact pc_setPc hr

/-- The places of a thread that has not called `kexit`. -/
theorem status_of_alive {k k' : Pc} (hk : k.alive = some k') : k.status = none ∧ k'.status = none := by
  cases k <;> simp [Pc.alive] at hk <;> subst hk <;> exact ⟨rfl, rfl⟩

theorem status_setPc {r : Slot} (hk : k.status = none ∨ k.status = (s.pc p).status)
    (hr : ((s.setPc p k).pc r).status = some v) : (s.pc r).status = some v := by
  by_cases hrp : r = p
  · subst hrp
    rcases hk with hk | hk <;> simp_all
  · simpa [hrp] using hr

/-- A thread that exits did so before, or has just called `kexit`. -/
theorem Step.status (st : Step s es s') {r : Slot} (hr : (s'.pc r).status = some v) :
    (s.pc r).status = some v ∨ (∃ h, s.Runs h r) ∧ Event.exit (s.proc r).pid v ∈ es := by
  have call : ∀ {p h v'}, s.Runs h p → Event.exit (s.proc p).pid v' ∈ es →
      ((s.callExit p v').pc r).status = some v →
      (s.pc r).status = some v ∨ (∃ h, s.Runs h r) ∧ Event.exit (s.proc r).pid v ∈ es := by
    intro p h v' hrun he hst
    by_cases hrp : r = p
    · subst hrp
      obtain rfl : v' = v := by simpa [Machine.callExit, Pc.status] using hst
      exact .inr ⟨⟨h, hrun⟩, he⟩
    · exact .inl (by simpa [Machine.callExit, hrp] using hst)
  cases st with
  | schedTop | schedEnd | schedSkip | schedRun | schedBack | resume | yield | own | sleep | wakeup =>
    exact .inl hr
  | @timerIdle h _ | @timerKernel h _ _ _ =>
    obtain ⟨t, a, i, f, -, e⟩ := s.clockintr_eq h
    rw [e] at hr
    exact .inl hr
  | @timerUser h p hrun _ =>
    obtain ⟨t, a, i, f, -, e⟩ := s.clockintr_eq h
    rw [e] at hr
    exact .inl (status_setPc (s := s) (.inl rfl) hr)
  | checkAlive _ hk _ _ => exact .inl (status_setPc (.inl (status_of_alive hk).2) hr)
  | checkKilled hrun _ _ _ _ | callExit hrun _ _ => exact call hrun (by simp) hr
  | @forkClaim h p q _ _ _ _ =>
    exact .inl (status_setPc (s := s) (p := q) (k := .prepareReturn) (.inl rfl)
      (status_setPc (s := s.setPc q .prepareReturn) (.inl rfl) hr))
  | exitClose _ hp | exitCwd _ hp | exitLock _ hp _ | exitAdopt _ hp _ | exitSkip _ hp _
  | exitReparented _ hp | wakeInitSelf _ hp | wakeInit _ hp _ _ | wakeInitEnd _ hp
  | wakeParentSelf _ hp | wakeParent _ hp _ _ | wakeParentEnd _ hp =>
    exact .inl (status_setPc (s := s) (.inr (by rw [hp]; rfl)) hr)
  | _ => exact .inl (status_setPc (s := s) (.inl (by rfl)) hr)

theorem leaves_setPc {k' : Pc} {r : Slot} (hp : s.pc p = k') (hk : k'.leaves → k.leaves)
    (hr : (s.pc r).leaves) : ((s.setPc p k).pc r).leaves := by
  by_cases hrp : r = p
  · subst hrp
    simpa using hk (hp ▸ hr)
  · simpa [hrp] using hr

/-- `kexit` is not left. -/
theorem Step.leaves (st : Step s es s') {r : Slot} (hr : (s.pc r).leaves)
    (hu : (s.proc r).state ≠ .unused) : (s'.pc r).leaves := by
  cases st with
  | schedTop | schedEnd | schedSkip | schedRun | schedBack | resume | yield | own | sleep | wakeup =>
    exact hr
  | @timerIdle h _ | @timerKernel h _ _ _ =>
    obtain ⟨t, a, i, f, -, e⟩ := s.clockintr_eq h
    rw [e]
    exact hr
  | @timerUser h p _ hp =>
    obtain ⟨t, a, i, f, -, e⟩ := s.clockintr_eq h
    rw [e]
    exact leaves_setPc (s := s) hp (by simp [Pc.leaves, Pc.status]) hr
  | @checkAlive _ p _ _ hk _ _ =>
    refine leaves_setPc rfl (fun hl => ?_) hr
    rcases hl with hl | hl
    · exact absurd (status_of_alive hk).1 hl
    · simp [hl, Pc.alive] at hk
  | @prepareReturn _ p _ hk =>
    refine leaves_setPc rfl (fun hl => ?_) hr
    cases hp : s.pc p <;> simp [hp, Pc.returns, Pc.leaves, Pc.status] at hk hl
  | checkKilled | callExit =>
    exact leaves_setPc rfl (fun _ => by simp [Pc.leaves, Pc.status]) hr
  | @forkClaim h p q _ hp _ hq =>
    have hrq : r ≠ q := by
      rintro rfl
      exact hu hq
    have hrp : r ≠ p := by
      rintro rfl
      simp [hp, Pc.leaves, Pc.status] at hr
    simpa [Machine.claim, hrq, hrp] using hr
  | timerCharge _ hp _ | setkilled _ hp _ | callPid _ hp _ | pidHit _ hp _ _ | pidMiss _ hp _ _
  | pidEnd _ hp | callFork _ hp | forkBusy _ hp _ _ | forkFull _ hp | forkFail _ hp _ _
  | forkInherit _ hp _ | forkRelease _ hp | forkParent _ hp _ | forkReady _ hp _
  | callWait _ hp | waitLock _ hp _ | waitOther _ hp _ | waitChild _ hp _ _ _ | waitReap _ hp _ _ _
  | waitFault _ hp _ _ _ _ | waitNone _ hp | waitKilled _ hp _ _ | waitAlive _ hp _ _
  | waitSleep _ _ hp _ => exact leaves_setPc (s := s) hp (by simp [Pc.leaves, Pc.status]) hr
  | _ => exact leaves_setPc (s := s) rfl (fun _ => by simp [Pc.leaves, Pc.status]) hr

theorem zombie_stays_update {x : Proc} (hx : (s.proc q).state = .zombie →
      x.state = .zombie ∧ x.xstate = (s.proc q).xstate) (hz : (s.proc p).state = .zombie) :
    (update s.proc q x p).state = .zombie ∧
      (update s.proc q x p).xstate = (s.proc p).xstate := by
  by_cases hp : p = q
  · subst hp
    simpa using hx hz
  · simpa [hp] using hz

theorem wakeup_of_zombie {x : Proc} (c : Option Chan) (hx : x.state = .zombie) : x.wakeup c = x := by
  unfold Proc.wakeup
  simp [hx]

theorem pidCall_of_zombie {x : Proc} (c : PidCall) (hx : x.state = .zombie) :
    (c.act x).state = .zombie ∧ (c.act x).xstate = x.xstate := by
  cases c <;> simp [PidCall.act, hx]

/-- A zombie stays one, with its status, until it is returned by `kwait`. -/
theorem Step.zombie_stays (hs : Placed s) (st : Step s es s') (hz : (s.proc p).state = .zombie) :
    ((s'.proc p).state = .zombie ∧ (s'.proc p).xstate = (s.proc p).xstate) ∨
      (s.proc p).pid ∈ reaped es := by
  have run : ∀ {h q}, s.Runs h q → (s.proc q).state ≠ .zombie := fun hr => by
    simp [hs.running_of_runs hr]
  have own : ∀ {h q} {x : Proc}, s.Runs h q → (s.proc q).state = .zombie →
      x.state = .zombie ∧ x.xstate = (s.proc q).xstate := fun hr hq => absurd hq (run hr)
  have away : ∀ {h now q} {x : Proc}, s.sched h = .away now q → (s.proc q).state = .zombie →
      x.state = .zombie ∧ x.xstate = (s.proc q).xstate := fun hsc hq => by
    simp [hs.running hsc] at hq
  cases st with
  | @schedSkip _ now _ q x _ _ hv =>
    refine .inl (zombie_stays_update (fun hx => ?_) hz)
    obtain rfl : x = s.proc q := by simpa [Proc.visit, hx] using hv.symm
    exact ⟨hx, rfl⟩
  | schedRun _ _ hv =>
    exact .inl (zombie_stays_update (fun hx => by simp [runnable_of_visit hv] at hx) hz)
  | resume => exact .inl (zombie_stays_update (fun hx => ⟨by exact hx, by rfl⟩) hz)
  | @timerIdle h _ | @timerUser h _ _ _ | @timerKernel h _ _ _ =>
    obtain ⟨t, a, i, f, -, e⟩ := s.clockintr_eq h
    rw [e]
    exact .inl ⟨hz, rfl⟩
  | timerCharge hr _ _ | setkilled hr _ _ | own hr _ | exitClose hr _ | exitCwd hr _ =>
    exact .inl (zombie_stays_update (own hr) hz)
  | yield hsc _ _ | sleep hsc _ _ _ | exitZombie hsc _ _ _ | waitSleep hsc _ _ _ =>
    exact .inl (zombie_stays_update (away hsc) hz)
  | wakeup | wakeInit | wakeParent =>
    refine .inl (zombie_stays_update (fun hx => ?_) hz)
    rw [wakeup_of_zombie _ hx]
    exact ⟨hx, rfl⟩
  | pidHit => exact .inl (zombie_stays_update (pidCall_of_zombie _) hz)
  | forkFail _ _ _ hq | forkClaim _ _ _ hq =>
    exact .inl (zombie_stays_update (fun hx => by simp [hq] at hx) hz)
  | forkReady _ hp _ =>
    refine .inl (zombie_stays_update (fun hx => ?_) hz)
    simp [hs.used_of_child (show (s.pc _).child = _ by rw [hp]; rfl)] at hx
  | forkInherit | forkParent | exitAdopt =>
    exact .inl (zombie_stays_update (fun hx => ⟨by exact hx, by rfl⟩) hz)
  | @waitReap _ _ q =>
    by_cases hpq : p = q
    · subst hpq
      exact .inr (by simp [reaped, sect])
    · exact .inl (by simpa [hpq] using hz)
  | _ => exact .inl ⟨hz, rfl⟩

/-! ## The events -/

/-- A call of `kexit` is the first one of a running process. -/
theorem Step.exit_event (st : Step s es s') (he : Event.exit n v ∈ es) :
    ∃ p h, s.Runs h p ∧ n = (s.proc p).pid ∧ ¬ (s.pc p).leaves ∧ (s'.pc p).status = some v := by
  cases st with
  | @checkKilled h p k hr hk _ _ _ =>
    obtain ⟨rfl, rfl⟩ : n = _ ∧ v = -1 := by simpa [sect] using he
    refine ⟨p, h, hr, rfl, ?_, by simp [Machine.callExit, Pc.status]⟩
    rintro (hl | hl)
    · exact hl (status_of_alive hk).1
    · simp [hl, Pc.alive] at hk
  | @callExit h p v' hr hp _ =>
    obtain ⟨rfl, rfl⟩ : n = _ ∧ v = v' := by simpa using he
    exact ⟨p, h, hr, rfl, by simp [hp, Pc.leaves, Pc.status], by simp [Machine.callExit, Pc.status]⟩
  | @pidHit _ _ _ call => cases call <;> simp [sect, PidCall.events] at he
  | _ => simp [sect, windowEvents] at he

/-- `kwait` returns a zombie child of its process, whose record it frees. -/
theorem Step.reap_event (st : Step s es s') : reaped es = [] ∨ ∃ h p c, s.Runs h p ∧
    (s.proc c).parent = some p ∧ (s.proc c).state = .zombie ∧
    es = sect h c [.reap (s.proc p).pid (s.proc c).pid (int32 (s.proc c).pid) (s.proc c).xstate] ∧
    s'.ident = update s.ident c none := by
  cases st with
  | @waitReap h p c _ _ hr _ hq _ hz => exact .inr ⟨h, p, c, hr, hq, hz, rfl, ident_freeproc⟩
  | @pidHit _ _ _ call => cases call <;> exact .inl rfl
  | schedSkip | schedRun => exact .inl (by unfold windowEvents; split <;> rfl)
  | _ => exact .inl rfl

theorem mem_reaped {tr : List Event} {w : ℕ} {pid : ℤ} (he : Event.reap w n pid v ∈ tr) :
    n ∈ reaped tr :=
  mem_filterMap.2 ⟨_, he, rfl⟩

/-- A `kwait` that cannot copy out the status fails and changes nothing of the zombie. -/
theorem Step.fault_event {w : ℕ} {ret : ℤ} (st : Step s es s') (he : Event.fault w n ret ∈ es) :
    ret = -1 ∧ ∃ h p c, s.Runs h p ∧ w = (s.proc p).pid ∧ n = (s.proc c).pid ∧
      (s.proc c).parent = some p ∧ (s.proc c).state = .zombie ∧ s'.proc c = s.proc c ∧
      s'.waitLock = none ∧ s'.lock c = none := by
  cases st with
  | @waitFault h p c _ _ hr _ hq hl hz _ =>
    obtain ⟨rfl, rfl, rfl⟩ : w = _ ∧ n = _ ∧ ret = -1 := by simpa [sect] using he
    exact ⟨rfl, h, p, c, hr, rfl, rfl, hq, hz, rfl, rfl, hl⟩
  | @pidHit _ _ _ call => cases call <;> simp [sect, PidCall.events] at he
  | _ => simp [sect, windowEvents] at he

/-! ## The invariant along runs -/

/-- What the events of a run say about its last state. -/
structure Ends (tr : List Event) (s : Machine) : Prop where
  /-- An exiting thread has called `kexit` with the status it will leave. -/
  status : ∀ p v, (s.pc p).status = some v → ∃ n, s.ident p = some n ∧ Event.exit n v ∈ tr
  /-- So has a zombie. -/
  zombie : ∀ p, (s.proc p).state = .zombie →
    s.pc p = .exited ∧ Event.exit (s.proc p).pid (s.proc p).xstate ∈ tr
  /-- A process that has called `kexit` is still in it, or gone. -/
  leaves : ∀ n v, Event.exit n v ∈ tr →
    n < s.nextpid ∧ ∀ p, s.ident p = some n → (s.pc p).leaves
  once : ∀ n v v', Event.exit n v ∈ tr → Event.exit n v' ∈ tr → v = v'
  /-- What `kwait` returned. -/
  returned : ∀ w n pid v, Event.reap w n pid v ∈ tr → pid = int32 n ∧ Event.exit n v ∈ tr
  gone : ∀ n ∈ reaped tr, n < s.nextpid ∧ ∀ p, s.ident p ≠ some n
  nodup : (reaped tr).Nodup

variable {tr : List Event}

theorem ident_of_ne (hp : (s.proc p).state ≠ .unused) : s.ident p = some (s.proc p).pid := by
  simp [ident, hp]

theorem pid_of_ident (hp : s.ident p = some n) :
    (s.proc p).state ≠ .unused ∧ (s.proc p).pid = n := by
  unfold ident at hp
  split at hp
  · cases hp
  · exact ⟨‹_›, by simpa using hp⟩

theorem Ends.not_zombie (he : Ends tr s) (hp : (s.pc p).status = some v) :
    (s.proc p).state ≠ .zombie := by
  intro hz
  simp [(he.zombie p hz).1, Pc.status] at hp

theorem Step.ends_status (hs : Placed s) (he : Ends tr s) (st : Step s es s') (p : Slot) (v : ℤ)
    (hp : (s'.pc p).status = some v) : ∃ n, s'.ident p = some n ∧ Event.exit n v ∈ tr ++ es := by
  rcases st.status hp with hp' | ⟨⟨h, hr⟩, hm⟩
  · obtain ⟨n, hi, hm⟩ := he.status p v hp'
    exact ⟨n, (st.births hs).ident_of_ne hi (he.not_zombie hp'), mem_append_left _ hm⟩
  · have hrun := hs.running_of_runs hr
    exact ⟨_, (st.births hs).ident_of_ne (ident_of_ne (by simp [hrun])) (by simp [hrun]),
      mem_append_right _ hm⟩

theorem Step.ends_zombie (hs : Placed s) (he : Ends tr s) (st : Step s es s') (p : Slot)
    (hz : (s'.proc p).state = .zombie) : s'.pc p = .exited ∧
      Event.exit (s'.proc p).pid (s'.proc p).xstate ∈ tr ++ es := by
  have hi' : s'.ident p = some (s'.proc p).pid := ident_of_ne (by simp [hz])
  rcases st.zombie_cases hz with ⟨hz', hx⟩ | ⟨v, hpc, hpc', hx⟩
  · obtain ⟨hex, hm⟩ := he.zombie p hz'
    have hpc : s'.pc p = s.pc p := by
      rcases st.pc p with hpc | ⟨h, hr⟩ | hu
      · exact hpc
      · simp [hs.running_of_runs hr] at hz'
      · simp [hu] at hz'
    have hpid := (st.births hs).ident_eq (ident_of_ne (by simp [hz'])) hi'
    exact ⟨hpc.trans hex, mem_append_left _ (by rwa [hpid, hx])⟩
  · obtain ⟨n, hi, hm⟩ := he.status p v (by simp [hpc, Pc.status])
    exact ⟨hpc', mem_append_left _ (by rwa [(st.births hs).ident_eq hi hi', hx])⟩

theorem Step.ends_leaves (hs : Placed s) (hn : Numbered s) (he : Ends tr s) (st : Step s es s') (n : ℕ)
    (v : ℤ) (hm : Event.exit n v ∈ tr ++ es) :
    n < s'.nextpid ∧ ∀ p, s'.ident p = some n → (s'.pc p).leaves := by
  have hle := (st.births hs).nextpid_le
  rcases mem_append.1 hm with hm | hm
  · obtain ⟨hlt, hl⟩ := he.leaves n v hm
    refine ⟨Nat.lt_of_lt_of_le hlt hle, fun p hp => ?_⟩
    have hi := (st.births hs).ident_back hlt hp
    exact st.leaves (hl p hi) (pid_of_ident hi).1
  · obtain ⟨p, h, hr, rfl, -, hst⟩ := st.exit_event hm
    have hi : s.ident p = some (s.proc p).pid := ident_of_ne (by simp [hs.running_of_runs hr])
    have hlt := (hn.bound p _ hi).2
    refine ⟨Nat.lt_of_lt_of_le hlt hle, fun q hq => ?_⟩
    obtain rfl := hn.inj q p _ ((st.births hs).ident_back hlt hq) hi
    exact .inl (by simp [hst])

/-- A process calls `kexit` once. -/
theorem Step.ends_once (hs : Placed s) (hn : Numbered s) (he : Ends tr s) (st : Step s es s') (n : ℕ)
    (v v' : ℤ) (hm : Event.exit n v ∈ tr ++ es) (hm' : Event.exit n v' ∈ tr ++ es) : v = v' := by
  have new : ∀ {v v'}, Event.exit n v ∈ tr → Event.exit n v' ∈ es → v = v' := fun hm hm' => by
    obtain ⟨p, h, hr, rfl, hl, -⟩ := st.exit_event hm'
    exact absurd ((he.leaves _ _ hm).2 p (ident_of_ne (by simp [hs.running_of_runs hr]))) hl
  rcases mem_append.1 hm with hm | hm <;> rcases mem_append.1 hm' with hm' | hm'
  · exact he.once n v v' hm hm'
  · exact new hm hm'
  · exact (new hm' hm).symm
  · obtain ⟨p, h, hr, rfl, -, hst⟩ := st.exit_event hm
    obtain ⟨p', h', hr', hpp, -, hst'⟩ := st.exit_event hm'
    have hi := fun {h p} (hr : s.Runs h p) =>
      ident_of_ne (s := s) (p := p) (by simp [hs.running_of_runs hr])
    obtain rfl := hn.inj p p' _ (hi hr) (hpp ▸ hi hr')
    simpa [hst] using hst'

theorem reaped_append (es fs : List Event) : reaped (es ++ fs) = reaped es ++ reaped fs :=
  filterMap_append

theorem Step.ends_returned (he : Ends tr s) (st : Step s es s') (w n : ℕ) (pid v : ℤ)
    (hm : Event.reap w n pid v ∈ tr ++ es) : pid = int32 n ∧ Event.exit n v ∈ tr ++ es := by
  rcases mem_append.1 hm with hm | hm
  · obtain ⟨hp, hx⟩ := he.returned w n pid v hm
    exact ⟨hp, mem_append_left _ hx⟩
  · rcases st.reap_event with hn | ⟨h, p, c, -, -, hz, rfl, -⟩
    · have := mem_reaped hm
      simp [hn] at this
    · have hev : w = (s.proc p).pid ∧ n = (s.proc c).pid ∧ pid = int32 (s.proc c).pid ∧
          v = (s.proc c).xstate := by simpa [sect] using hm
      obtain ⟨-, hnc, hpid, hv⟩ := hev
      rw [hpid, hnc, hv]
      exact ⟨rfl, mem_append_left _ (he.zombie c hz).2⟩

/-- No process is returned twice. -/
theorem Step.ends_gone (hs : Placed s) (hn : Numbered s) (he : Ends tr s) (st : Step s es s') :
    (∀ n ∈ reaped (tr ++ es), n < s'.nextpid ∧ ∀ p, s'.ident p ≠ some n) ∧
      (reaped (tr ++ es)).Nodup := by
  have hle := (st.births hs).nextpid_le
  have old : ∀ n ∈ reaped tr, n < s'.nextpid ∧ ∀ p, s'.ident p ≠ some n := fun n hm => by
    obtain ⟨hlt, hne⟩ := he.gone n hm
    exact ⟨Nat.lt_of_lt_of_le hlt hle, fun p hp => hne p ((st.births hs).ident_back hlt hp)⟩
  rw [reaped_append]
  rcases st.reap_event with hr | ⟨h, p, c, -, -, hz, hes, hi⟩
  · rw [hr, append_nil]
    exact ⟨old, he.nodup⟩
  · have hc : s.ident c = some (s.proc c).pid := ident_of_ne (by simp [hz])
    have hes' : reaped es = [(s.proc c).pid] := by rw [hes]; rfl
    rw [hes']
    refine ⟨fun n hm => ?_, nodup_append.2 ⟨he.nodup, by simp, ?_⟩⟩
    · rcases mem_append.1 hm with hm | hm
      · exact old n hm
      · obtain rfl := mem_singleton.1 hm
        refine ⟨Nat.lt_of_lt_of_le (hn.bound c _ hc).2 hle, fun q hq => ?_⟩
        rw [hi, update_apply] at hq
        split at hq
        · cases hq
        · exact ‹q ≠ c› (hn.inj q c _ hq hc)
    · intro n hm m hm' hnm
      obtain rfl := mem_singleton.1 hm'
      exact (he.gone n hm).2 c (hnm ▸ hc)

theorem Step.ends (hs : Placed s) (hn : Numbered s) (he : Ends tr s) (st : Step s es s') :
    Ends (tr ++ es) s' :=
  ⟨st.ends_status hs he, st.ends_zombie hs he, st.ends_leaves hs hn he, st.ends_once hs hn he,
    st.ends_returned he, (st.ends_gone hs hn he).1, (st.ends_gone hs hn he).2⟩

theorem ends_boot : Ends [] Machine.boot where
  status p v hp := by
    by_cases h0 : p = 0 <;> simp [Machine.boot, h0, Pc.status] at hp
  zombie p hz := by
    by_cases h0 : p = 0 <;> simp [Machine.boot, h0, Proc.empty] at hz
  leaves := by simp
  once := by simp
  returned := by simp
  gone := by simp [reaped]
  nodup := by simp [reaped]

theorem Runs.ends (hr : Runs tr s) : Ends tr s := by
  have h : Placed s ∧ Numbered s ∧ Ends tr s :=
    Trans.Run.invariant (I := fun tr s => Placed s ∧ Numbered s ∧ Ends tr s)
      ⟨placed_boot, numbered_boot, ends_boot⟩ (fun _ _ _ _ ⟨hp, hn, he⟩ st =>
        ⟨st.placed hp, (st.births hp).numbered hn, st.ends hp hn he⟩) hr
  exact h.2.2

/-! ## Parentage and reaping -/

theorem life_of_state {x : ProcState} (hu : x ≠ .unused) (hd : x ≠ .used) :
    x.life = .live ∨ x.life = .zombie := by
  cases x <;> simp_all [life]

theorem state_of_live {x : ProcState} (hx : x.life = .live) : x ≠ .unused ∧ x ≠ .zombie := by
  cases x <;> simp_all [life]

theorem Family.parent (hs : Family s) (hu : (s.proc p).state ≠ .unused)
    (hd : (s.proc p).state ≠ .used) (hi : p ≠ s.initproc) :
    ∃ q, (s.proc p).parent = some q ∧ (s.proc q).state ≠ .unused ∧ (s.proc q).state ≠ .zombie := by
  obtain ⟨q, hq, hl⟩ := hs.ok.parent_live p (life_of_state hu hd) hi
  exact ⟨q, hq, state_of_live hl⟩

/-- No wakeup is lost: nobody sleeps in `kwait` beside a zombie while `wait_lock` is free. -/
theorem Family.no_zombie (hs : Family s) (hl : s.waitLock = none) (hw : s.InWait q)
    (hp : (s.proc p).parent = some q) : (s.proc p).state ≠ .zombie := by
  intro hz
  obtain ⟨-, r, seen, woken, hr, -⟩ :=
    hs.ok.no_lost_wakeup q p hw (by simp [kin, hz, life]) hp
  exact hs.waits.free hl r (by simp [hr, Kinship.Stage.Holds])

/-- **Parentage and reaping.** In every reachable state: while `wait_lock` is free, the parent of a
process other than `init` and other than one that `kfork` is still building is neither `UNUSED` nor
`ZOMBIE`, and nobody sleeps in `kwait` beside a zombie child. `kwait` returns no process twice; what it
returns is the pid and the one status with which the process called `kexit`; and it returns the
process to its parent at that time. A `kwait` that cannot copy out the status returns `-1` and leaves
the zombie as it is, a child of the same parent with its locks free; and a zombie stays one, with its
status, until it is returned. -/
theorem parentage_and_reaping {tr : List Event} {s : Machine} (hr : Runs tr s) :
    (s.waitLock = none →
      (∀ c, (s.proc c).state ≠ .unused → (s.proc c).state ≠ .used → c ≠ s.initproc →
        ∃ q, (s.proc c).parent = some q ∧ (s.proc q).state ≠ .unused ∧
          (s.proc q).state ≠ .zombie) ∧
      ∀ q c, s.InWait q → (s.proc c).parent = some q → (s.proc c).state ≠ .zombie) ∧
    (reaped tr).Nodup ∧
    (∀ w n pid v, Event.reap w n pid v ∈ tr →
      pid = int32 n ∧ Event.exit n v ∈ tr ∧ ∀ v', Event.exit n v' ∈ tr → v' = v) ∧
    ∀ es s', Step s es s' →
      (∀ w n pid v, Event.reap w n pid v ∈ es → ∃ p c, s.ident p = some w ∧ s.ident c = some n ∧
        (s.proc c).parent = some p ∧ (s.proc c).state = .zombie) ∧
      (∀ w n ret, Event.fault w n ret ∈ es → ret = -1 ∧ ∃ p c, s.ident p = some w ∧
        s.ident c = some n ∧ (s.proc c).parent = some p ∧ (s.proc c).state = .zombie ∧
        s'.proc c = s.proc c ∧ s'.waitLock = none ∧ s'.lock c = none) ∧
      ∀ c, (s.proc c).state = .zombie → (s.proc c).pid ∉ reaped es →
        (s'.proc c).state = .zombie ∧ (s'.proc c).xstate = (s.proc c).xstate := by
  have hf := hr.family
  have he := hr.ends
  have hid : ∀ {h p}, s.Runs h p → s.ident p = some (s.proc p).pid := fun hrun =>
    ident_of_ne (by simp [hf.placed.running_of_runs hrun])
  refine ⟨fun hl => ⟨fun c => hf.parent, fun q c => hf.no_zombie hl⟩, he.nodup, ?_, ?_⟩
  · intro w n pid v hm
    obtain ⟨hp, hx⟩ := he.returned w n pid v hm
    exact ⟨hp, hx, fun v' hx' => he.once n v' v hx' hx⟩
  · intro es s' st
    refine ⟨?_, ?_, fun c hz hn => (st.zombie_stays hf.placed hz).resolve_right hn⟩
    · intro w n pid v hm
      rcases st.reap_event with hn | ⟨h, p, c, hrun, hpar, hz, rfl, -⟩
      · have := mem_reaped hm
        simp [hn] at this
      · obtain ⟨hw, hc, -⟩ : w = (s.proc p).pid ∧ n = (s.proc c).pid ∧ _ := by
          simpa [sect] using hm
        exact ⟨p, c, hw ▸ hid hrun, hc ▸ ident_of_ne (by simp [hz]), hpar, hz⟩
    · intro w n ret hm
      obtain ⟨hret, h, p, c, hrun, hw, hc, hpar, hz, hrest⟩ := st.fault_event hm
      exact ⟨hret, p, c, hw ▸ hid hrun, hc ▸ ident_of_ne (by simp [hz]), hpar, hz, hrest⟩

/-- The first process forks: its child in slot 1 has a live parent. -/
theorem parentage_and_reaping_first_fork : ∃ tr s, Runs tr s ∧ s.waitLock = none ∧
    (s.proc 1).state = .runnable ∧ ∃ q, (s.proc 1).parent = some q ∧
      (s.proc q).state ≠ .unused ∧ (s.proc q).state ≠ .zombie := by
  have hr := (((((((((((Trans.Run.refl.tail (@Step.schedTop Machine.boot 0 rfl)).tail
    (@Step.schedRun _ 0 0 false 0 _ rfl rfl rfl)).tail (@Step.resume _ 0 0 0 false rfl rfl)).tail
    (@Step.prepareReturn _ 0 0 ⟨⟨0, rfl⟩, rfl⟩ rfl)).tail
    (@Step.checkAlive _ 0 0 .kernel ⟨⟨0, rfl⟩, rfl⟩ rfl rfl rfl)).tail
    (@Step.callFork _ 0 0 ⟨⟨0, rfl⟩, rfl⟩ rfl)).tail
    (@Step.forkBusy _ 0 0 0 ⟨⟨0, rfl⟩, rfl⟩ rfl rfl (by decide))).tail
    (@Step.forkClaim _ 0 0 1 ⟨⟨0, rfl⟩, rfl⟩ rfl rfl rfl)).tail
    (@Step.forkInherit _ 0 0 1 ⟨⟨0, rfl⟩, rfl⟩ rfl rfl)).tail
    (@Step.forkRelease _ 0 0 1 ⟨⟨0, rfl⟩, rfl⟩ rfl)).tail
    (@Step.forkParent _ 0 0 1 ⟨⟨0, rfl⟩, rfl⟩ rfl rfl)).tail
    (@Step.forkReady _ 0 0 1 ⟨⟨0, rfl⟩, rfl⟩ rfl rfl)
  exact ⟨_, _, hr, rfl, rfl, ((parentage_and_reaping hr).1 rfl).1 1 (by decide) (by decide)
    (by decide)⟩

end Xv6
