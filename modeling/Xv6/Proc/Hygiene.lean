import Xv6.Proc.Identity

/-!
# Free slots are clean

`allocproc` sets some fields of the slot it takes and relies on `freeproc` for the others. `Clean`
is what it relies on. A `kkill` whose pid is that of a free slot, 0, marks the first such slot as
killed, and the next child is born killed (`not_hygiene`). Every run in which `kkill` acts on slots in
use keeps the free slots clean (`hygiene_of_kill_used`).
-/

namespace Xv6

open Function Machine Proc Pc

/-- What `allocproc` relies on in a free slot. -/
structure Proc.Clean (x : Proc) : Prop where
  killed : x.killed = false
  xstate : x.xstate = 0
  chan : x.chan = none
  parent : x.parent = none
  sz : x.sz = 0
  pagetable : x.pagetable = false
  trapframe : x.trapframe = false
  ofile : ∀ fd, x.ofile fd = none

/-- The free slots are clean, and children are not born killed: from the moment
that `kfork` has taken a slot until it first lets go of its lock, the slot is not marked. -/
structure Hygiene (s : Machine) : Prop where
  clean : ∀ {p}, (s.proc p).state = .unused → (s.proc p).Clean
  born : ∀ {p q}, (s.pc p).building = some q → (s.proc q).killed = false

/-- The first process calls `kill(0)` and then `fork`. -/
theorem not_hygiene : ¬ ∀ tr s, Runs tr s → Hygiene s := by
  intro h
  have hr := ((((((((((Trans.Run.refl.tail (@Step.schedTop Machine.boot 0 rfl)).tail
    (@Step.schedRun _ 0 0 false 0 _ rfl rfl rfl)).tail (@Step.resume _ 0 0 0 false rfl rfl)).tail
    (@Step.prepareReturn _ 0 0 ⟨⟨0, rfl⟩, rfl⟩ rfl)).tail
    (@Step.checkAlive _ 0 0 .kernel ⟨⟨0, rfl⟩, rfl⟩ rfl rfl rfl)).tail
    (@Step.callPid _ 0 0 .kkill 0 ⟨⟨0, rfl⟩, rfl⟩ rfl trivial)).tail
    (@Step.pidMiss _ 0 0 0 .kkill 0 ⟨⟨0, rfl⟩, rfl⟩ rfl rfl (by decide +kernel))).tail
    (@Step.pidHit _ 0 0 1 .kkill 0 ⟨⟨0, rfl⟩, rfl⟩ rfl rfl (by decide +kernel))).tail
    (@Step.callFork _ 0 0 ⟨⟨0, rfl⟩, rfl⟩ rfl)).tail
    (@Step.forkBusy _ 0 0 0 ⟨⟨0, rfl⟩, rfl⟩ rfl rfl (by decide))).tail
    (@Step.forkClaim _ 0 0 1 ⟨⟨0, rfl⟩, rfl⟩ rfl rfl rfl)
  have hb := (h _ _ hr).born (p := 0) (q := 1) rfl
  revert hb
  decide

/-- Every `kkill` that the step completes acts on a slot in use. -/
def KillUsed (s : Machine) (es : List Event) : Prop :=
  ∀ p, Event.kill p ∈ es → (s.proc p).state ≠ .unused

/-- The steps whose `kkill` acts on slots in use. -/
def KillUsedStep (s : Machine) (es : List Event) (s' : Machine) : Prop := Step s es s' ∧ KillUsed s es

/-- The number of descriptors that `kexit` has closed at this place. -/
def Pc.closed : Pc → ℕ
  | exitClose _ fd => fd
  | exitLock _ | exitReparent .. | exitWakeInit .. | exitWakeParent .. | exitZombie _ => NOFILE
  | _ => 0

/-- The invariant behind hygiene. -/
structure Hygienic (s : Machine) : Prop where
  placed : Placed s
  clean : ∀ p, (s.proc p).state = .unused → (s.proc p).Clean
  closed : ∀ p (fd : Fin NOFILE), fd < (s.pc p).closed → (s.proc p).ofile fd = none
  zombie : ∀ p, (s.proc p).state = .zombie → ∀ fd, (s.proc p).ofile fd = none
  born : ∀ r q, (s.pc r).building = some q → (s.proc q).killed = false

variable {s s' : Machine} {h : Hart} {p q : Slot} {es : List Event}

theorem clean_update {x : Proc} (hc : ∀ p, (s.proc p).state = .unused → (s.proc p).Clean)
    (hx : x.state = .unused → x.Clean) (p : Slot)
    (hp : (update s.proc q x p).state = .unused) : (update s.proc q x p).Clean := by
  by_cases hpq : p = q
  · subst hpq
    rw [update_self] at hp ⊢
    exact hx hp
  · rw [update_of_ne hpq] at hp ⊢
    exact hc p hp

theorem clean_freeproc {x : Proc} (h : ∀ fd, x.ofile fd = none) : (freeproc x).Clean :=
  ⟨rfl, rfl, rfl, rfl, rfl, rfl, rfl, h⟩

theorem wakeup_of_unused {chan : Option Chan} {x : Proc} (h : (x.wakeup chan).state = .unused) :
    x.wakeup chan = x := by
  unfold wakeup at h ⊢
  grind

theorem clean_clockintr (hc : ∀ p, (s.proc p).state = .unused → (s.proc p).Clean) (p : Slot)
    (hp : ((s.clockintr h).proc p).state = .unused) : ((s.clockintr h).proc p).Clean := by
  obtain ⟨t, a, i, f, -, e⟩ := s.clockintr_eq h
  rw [e] at hp ⊢
  obtain ⟨h₁, h₂, h₃, h₄, h₅, h₆, h₇, h₈⟩ := hc p hp
  exact ⟨h₁, h₂, h₃, h₄, h₅, h₆, h₇, h₈⟩

theorem Step.clean (hs : Hygienic s) (hk : KillUsed s es) (st : Step s es s') (p : Slot)
    (hp : (s'.proc p).state = .unused) : (s'.proc p).Clean := by
  have hpl := hs.placed
  have hc := hs.clean
  have woken : ∀ chan q, ((s.proc q).wakeup chan).state = .unused →
      ((s.proc q).wakeup chan).Clean := fun chan q hw => by
    have he := wakeup_of_unused hw
    rw [he] at hw ⊢
    exact hc q hw
  cases st with
  | @schedSkip h now _ q x _ _ hv =>
    refine clean_update hc (fun hx => ?_) p hp
    have hu : (s.proc q).state = .unused := (visited hv).state.symm.trans hx
    rw [show x = s.proc q by simpa [visit, hu] using (congrArg Prod.fst hv).symm]
    exact hc q hu
  | schedRun _ _ hv => exact clean_update hc (fun h => by simp [dispatch] at h) p hp
  | resume hsc _ => exact clean_update hc (fun h => by simp [hpl.running hsc] at h) p hp
  | @timerIdle h _ | @timerUser h _ _ _ | @timerKernel h _ _ _ => exact clean_clockintr hc p hp
  | timerCharge hr _ _ =>
    exact clean_update hc (fun h => by simp [charge, hpl.running_of_runs hr] at h) p hp
  | yield _ _ _ | sleep _ _ _ _ | forkReady _ _ _ | exitZombie _ _ _ _ | waitSleep _ _ _ _ =>
    exact clean_update hc (fun h => by simp at h) p hp
  | setkilled hr _ _ | exitClose hr _ | exitCwd hr _ =>
    exact clean_update hc (fun h => by simp [hpl.running_of_runs hr] at h) p hp
  | own hr _ =>
    exact clean_update hc (fun h => by simp [own_state, hpl.running_of_runs hr] at h) p hp
  | wakeup _ | wakeInit _ _ _ _ | wakeParent _ _ _ _ => exact clean_update hc (woken _ _) p hp
  | @pidHit h r q call pid _ _ _ hh =>
    refine clean_update hc (fun hx => ?_) p hp
    have hu := (pidCall_unused call (s.proc q)).1 hx
    cases call with
    | kkill => exact absurd hu (hk q (by simp [sect, PidCall.events]))
    | setpowermode mode | setcpulimit limit now => simp [PidCall.hit, hu] at hh
    | setusagelimit max =>
      obtain ⟨h₁, h₂, h₃, h₄, h₅, h₆, h₇, h₈⟩ := hc q hu
      exact ⟨h₁, h₂, h₃, h₄, h₅, h₆, h₇, h₈⟩
  | forkFail _ _ _ hu => exact clean_update hc (fun _ => clean_freeproc (hc _ hu).ofile) p hp
  | forkClaim _ _ _ _ =>
    exact clean_update hc (fun h => by simp [forkCopy, allocproc] at h) p hp
  | @forkInherit h r q _ hpc _ | @forkParent h r q _ hpc _ =>
    refine clean_update hc (fun hx => ?_) p hp
    have hx' : (s.proc q).state = .unused := hx
    simp [hpl.used_of_child (show (s.pc r).child = some q by rw [hpc]; rfl)] at hx'
  | exitAdopt _ _ hq =>
    refine clean_update hc (fun h => ?_) p hp
    have := (hc _ h).parent
    simp [hq] at this
  | waitReap _ _ _ _ hz => exact clean_update hc (fun _ => clean_freeproc (hs.zombie _ hz)) p hp
  | _ => exact hc p hp

theorem wakeup_ofile (chan : Option Chan) (x : Proc) : (x.wakeup chan).ofile = x.ofile := by
  unfold wakeup
  split <;> rfl

theorem ofile_update {x : Proc} (hx : x.ofile = (s.proc q).ofile) (r : Slot) :
    (update s.proc q x r).ofile = (s.proc r).ofile := by
  by_cases hr : r = q
  · subst hr
    simpa using hx
  · simp [hr]

theorem closed_setPc {k k' : Pc} (hp : s.pc p = k') (hk : k.closed ≤ k'.closed) (r : Slot) :
    ((s.setPc p k).pc r).closed ≤ (s.pc r).closed := by
  by_cases hr : r = p
  · subst hr
    simpa [hp] using hk
  · simp [hr]

/-- What a step does to the files of a slot: nothing, unless the slot's own process is in kernel
code or in `kexit`, or the slot is taken by a `kfork`. -/
inductive Files (s s' : Machine) (r : Slot) : Prop
  | same : (s'.proc r).ofile = (s.proc r).ofile → (s'.pc r).closed ≤ (s.pc r).closed → Files s s' r
  | own {h : Hart} : s.Runs h r → (s.pc r).works = true → (s'.pc r).closed = 0 → Files s s' r
  | close {h : Hart} {status : ℤ} (fd : Fin NOFILE) : s.Runs h r → s.pc r = .exitClose status fd →
      s'.pc r = .exitClose status (fd + 1) →
      (s'.proc r).ofile = update (s.proc r).ofile fd none → Files s s' r
  | born : (s'.pc r).closed = 0 → (s'.proc r).state = .used → Files s s' r

theorem Step.files (st : Step s es s') (r : Slot) : Files s s' r := by
  cases st with
  | schedTop | schedEnd | schedBack => exact .same rfl (Nat.le_refl _)
  | schedSkip _ _ hv => exact .same (ofile_update (visited hv).ofile r) (Nat.le_refl _)
  | schedRun _ _ hv => exact .same (ofile_update (by exact (visited hv).ofile) r) (Nat.le_refl _)
  | resume | yield | sleep => exact .same (ofile_update (by rfl) r) (Nat.le_refl _)
  | @timerIdle h _ | @timerKernel h p _ _ =>
    obtain ⟨t, a, i, f, -, e⟩ := s.clockintr_eq h
    rw [e]
    exact .same rfl (Nat.le_refl _)
  | @timerUser h p _ _ =>
    obtain ⟨t, a, i, f, -, e⟩ := s.clockintr_eq h
    rw [e]
    exact .same rfl (closed_setPc rfl (Nat.zero_le _) r)
  | timerCharge | setkilled | forkFail | forkInherit | forkParent | forkReady | waitReap =>
    exact .same (ofile_update (by rfl) r) (closed_setPc rfl (Nat.zero_le _) r)
  | @checkAlive h p k _ hk _ _ =>
    refine .same rfl (closed_setPc rfl ?_ r)
    cases hpc : s.pc p <;> simp [hpc, alive] at hk <;> subst hk <;> exact Nat.zero_le _
  | @own h p u hr hp =>
    by_cases hrp : r = p
    · subst hrp
      exact .own hr hp (by cases hpc : s.pc r <;> simp_all [works, closed])
    · exact .same (by simp [hrp]) (Nat.le_refl _)
  | wakeup => exact .same (ofile_update (wakeup_ofile ..) r) (Nat.le_refl _)
  | @pidHit _ _ _ call _ _ _ _ _ =>
    exact .same (ofile_update (by cases call <;> rfl) r) (closed_setPc rfl (Nat.zero_le _) r)
  | @forkClaim h p q _ hp _ _ =>
    by_cases hrq : r = q
    · subst hrq
      refine .born ?_ (by simp [claim, forkCopy, allocproc])
      by_cases hrp : r = p <;> simp [claim, hrp, closed]
    · refine .same (by simp [claim, hrq]) ?_
      by_cases hrp : r = p
      · simp [claim, hrp, closed]
      · simp [claim, hrp, hrq]
  | @exitClose h p status fd hr hp =>
    by_cases hrp : r = p
    · subst hrp
      exact .close fd hr hp (by simp) (by simp)
    · exact .same (by simp [hrp]) (by simp [hrp])
  | exitCwd _ hp | exitAdopt _ hp _ =>
    exact .same (ofile_update (by rfl) r) (closed_setPc hp (by exact Nat.le_refl _) r)
  | exitLock _ hp _ | exitSkip _ hp _ | exitReparented _ hp | wakeInitSelf _ hp | wakeInitEnd _ hp
  | wakeParentSelf _ hp | wakeParentEnd _ hp =>
    exact .same rfl (closed_setPc hp (by exact Nat.le_refl _) r)
  | wakeInit _ hp _ _ | wakeParent _ hp _ _ =>
    exact .same (ofile_update (wakeup_ofile ..) r) (closed_setPc hp (by exact Nat.le_refl _) r)
  | exitZombie | waitSleep =>
    exact .same (ofile_update (by rfl) r) (closed_setPc rfl (Nat.zero_le _) r)
  | _ => exact .same rfl (closed_setPc rfl (Nat.zero_le _) r)

theorem Step.closed (hs : Hygienic s) (st : Step s es s') (p : Slot) (fd : Fin NOFILE)
    (hfd : fd < (s'.pc p).closed) : (s'.proc p).ofile fd = none := by
  cases st.files p with
  | same ho hc =>
    rw [ho]
    exact hs.closed p fd (Nat.lt_of_lt_of_le hfd hc)
  | own _ _ hc | born hc _ => simp [hc] at hfd
  | close fd' _ hp hp' ho =>
    rw [ho, update_apply]
    split
    · rfl
    · refine hs.closed p fd ?_
      simp only [hp', Pc.closed] at hfd
      simp only [hp, Pc.closed]
      omega

theorem Step.zombie (hs : Hygienic s) (st : Step s es s') (p : Slot)
    (hz : (s'.proc p).state = .zombie) (fd : Fin NOFILE) : (s'.proc p).ofile fd = none := by
  have hpl := hs.placed
  rcases st.zombie_cases hz with ⟨hz', -⟩ | ⟨status, hp, -⟩
  · cases st.files p with
    | same ho _ =>
      rw [ho]
      exact hs.zombie p hz' fd
    | own hr _ _ | close _ hr _ _ _ => simp [hpl.running_of_runs hr] at hz'
    | born _ hu => simp [hu] at hz
  · cases st.files p with
    | same ho _ =>
      rw [ho]
      exact hs.closed p fd (by rw [hp]; exact fd.isLt)
    | own _ hp' _ => simp [hp, works] at hp'
    | close _ _ hp' _ _ => simp [hp'] at hp
    | born _ hu => simp [hu] at hz

theorem killed_update {x : Proc} {r : Slot} (hl : s.lock q ≠ none)
    (hx : x.killed = (s.proc r).killed ∨ s.lock r = none) :
    (update s.proc r x q).killed = (s.proc q).killed := by
  by_cases hqr : q = r
  · subst hqr
    rcases hx with hx | hx
    · simpa using hx
    · exact absurd hx hl
  · simp [hqr]

/-- Only the holder of its lock marks a slot as killed. -/
theorem Step.killed_of_lock (st : Step s es s') (hl : s.lock q ≠ none) :
    (s'.proc q).killed = (s.proc q).killed := by
  cases st with
  | schedSkip _ h _ | schedRun _ h _ | timerCharge _ _ h | setkilled _ _ h | wakeup h
  | pidHit _ _ h _ | forkFail _ _ h _ | forkClaim _ _ h _ | wakeInit _ _ _ h | wakeParent _ _ _ h
  | waitReap _ _ _ h _ => exact killed_update hl (.inr h)
  | resume | yield | sleep | forkInherit | forkParent | forkReady | exitClose | exitCwd
  | exitAdopt | exitZombie | waitSleep => exact killed_update hl (.inl (by rfl))
  | @timerIdle h _ =>
    obtain ⟨t, a, i, f, -, e⟩ := s.clockintr_eq h
    rw [e]
  | @timerUser h _ _ _ | @timerKernel h _ _ _ =>
    obtain ⟨t, a, i, f, -, e⟩ := s.clockintr_eq h
    rw [e]
    rfl
  | @own _ _ u _ _ => exact killed_update hl (.inl (by cases u <;> rfl))
  | _ => rfl

/-- A slot in construction is not marked as killed while its lock is held. -/
theorem Step.born (hs : Hygienic s) (st : Step s es s') (r q : Slot)
    (hr : (s'.pc r).building = some q) : (s'.proc q).killed = false := by
  have held : (s.pc r).building = some q → (s'.proc q).killed = false := fun hb => by
    obtain ⟨h, -, hl⟩ := hs.placed.ok.builder (show s.core.building r = some q from hb)
    have hl' : s.lock q ≠ none := by
      rw [show s.lock q = some h from hl]
      simp
    rw [st.killed_of_lock hl']
    exact hs.born r q hb
  rcases st.building hr with he | ⟨he, -⟩ | ⟨hu, he⟩
  · exact held (he ▸ hr)
  · exact held (by rw [he]; rfl)
  · rw [he]
    exact (hs.clean q hu).killed

theorem hygienic_boot : Hygienic Machine.boot where
  placed := placed_boot
  clean p hp := by
    by_cases h0 : p = 0
    · simp [Machine.boot, h0] at hp
    · simp only [Machine.boot, h0, if_false]
      exact ⟨rfl, rfl, rfl, rfl, rfl, rfl, rfl, fun _ => rfl⟩
  closed p fd hfd := by
    by_cases h0 : p = 0 <;> simp [Machine.boot, h0, closed] at hfd
  zombie p hz := by
    by_cases h0 : p = 0 <;> simp [Machine.boot, h0, empty] at hz
  born r q hb := by
    by_cases h0 : r = 0 <;> simp [Machine.boot, h0, building] at hb

/-- **Slot hygiene**, in every run in which `kkill` acts on slots in use. -/
theorem hygiene_of_kill_used {tr : List Event} {s : Machine}
    (hr : Trans.Run KillUsedStep Machine.boot tr s) : Hygiene s := by
  have hs : Hygienic s := by
    refine Trans.Run.invariant (I := fun _ s => Hygienic s) hygienic_boot (fun _ _ _ _ hs st => ?_) hr
    exact ⟨st.1.placed hs.placed, st.1.clean hs st.2, st.1.closed hs, st.1.zombie hs, st.1.born hs⟩
  exact ⟨fun hu => hs.clean _ hu, fun hb => hs.born _ _ hb⟩

/-- The first process calls `kill(1)` on itself. -/
theorem hygiene_of_kill_used_kill_init : ∃ tr s, Trans.Run KillUsedStep Machine.boot tr s ∧
    Event.kill 0 ∈ tr ∧ (s.proc 0).killed = true ∧ Hygiene s := by
  have quiet : ∀ s e, KillUsed s [.lock e] := fun s e p => by simp
  have start : (Trans.Run KillUsedStep Machine.boot [] Machine.boot) := .refl
  have hr := ((((((start.tail ⟨@Step.schedTop _ 0 rfl, by simp [KillUsed]⟩).tail
    ⟨@Step.schedRun _ 0 0 false 0 _ rfl rfl rfl, quiet _ _⟩).tail
    ⟨@Step.resume _ 0 0 0 false rfl rfl, quiet _ _⟩).tail
    ⟨@Step.prepareReturn _ 0 0 ⟨⟨0, rfl⟩, rfl⟩ rfl, by simp [KillUsed]⟩).tail
    ⟨@Step.checkAlive _ 0 0 .kernel ⟨⟨0, rfl⟩, rfl⟩ rfl rfl rfl, by simp [KillUsed, sect]⟩).tail
    ⟨@Step.callPid _ 0 0 .kkill 1 ⟨⟨0, rfl⟩, rfl⟩ rfl trivial, by simp [KillUsed]⟩).tail
    ⟨@Step.pidHit _ 0 0 0 .kkill 1 ⟨⟨0, rfl⟩, rfl⟩ rfl rfl (by decide +kernel), fun p hm => by
      obtain rfl : p = 0 := by simpa [sect, PidCall.events] using hm
      exact ProcState.noConfusion⟩
  exact ⟨_, _, hr, by decide, rfl, hygiene_of_kill_used hr⟩

end Xv6
