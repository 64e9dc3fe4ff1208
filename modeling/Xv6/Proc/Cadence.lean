import Mathlib.Algebra.BigOperators.Group.List.Basic
import Xv6.Proc.Meters

/-!
# The cadence of ECO mode

A visit that finds a process in ECO mode runnable and within its budget advances its counter, and the
visit that would make it `ECO_SKIP_INTERVAL` runs the process and starts again from zero. Along a
stretch of a run in which the process stays in ECO mode and is not the target of `setpowermode`, the
counter and the turns account for the visits: `counter + 3 * turns = counter at the start + visits`,
whichever harts the visits come from.
-/

namespace Xv6

open Proc

/-- The step completes the visit of a hart that finds `p` runnable and within its budget. -/
def FindsReady (p : Slot) (s s' : Machine) : Prop :=
  ∃ h now found, s.sched h = .scan now found p ∧ s'.sched h ≠ s.sched h ∧
    (s.proc p).state = .runnable ∧ ((s.proc p).budget now).2 = true

/-- In the step a hart switches to `p`. -/
def GivesTurn (p : Slot) (s s' : Machine) : Prop :=
  ∃ h now, s.sched h ≠ .away now p ∧ s'.sched h = .away now p

/-- A call of `setpowermode_pid` finds `p` in the step. -/
def SetsMode (p : Slot) (s s' : Machine) : Prop :=
  ∃ r mode pid, s.pc r = .pidScan (.setpowermode mode) pid p ∧
    (PidCall.setpowermode mode).hit pid (s.proc p) = true ∧ s'.pc r = .kernel

open Classical in
/-- The visits and the turns of `p` in a step. -/
noncomputable def visitsAndTurns (p : Slot) (s s' : Machine) : ℕ × ℕ :=
  (if FindsReady p s s' then 1 else 0, if GivesTurn p s s' then 1 else 0)

/-- A step during which `p` stays in ECO mode and is not the target of `setpowermode`. It records the
visits that find `p` ready and the turns it gets. -/
def EcoStep (p : Slot) (s : Machine) (ns : List (ℕ × ℕ)) (s' : Machine) : Prop :=
  (∃ es, Step s es s') ∧ (s.proc p).powerMode = .eco ∧ (s'.proc p).powerMode = .eco ∧
    ¬ SetsMode p s s' ∧ ns = [visitsAndTurns p s s']

/-- The visits of a stretch. -/
def visits (ns : List (ℕ × ℕ)) : ℕ := (ns.map Prod.fst).sum

/-- The turns of a stretch. -/
def turns (ns : List (ℕ × ℕ)) : ℕ := (ns.map Prod.snd).sum

theorem visits_append (ns ns' : List (ℕ × ℕ)) : visits (ns ++ ns') = visits ns + visits ns' := by
  simp [visits]

theorem turns_append (ns ns' : List (ℕ × ℕ)) : turns (ns ++ ns') = turns ns + turns ns' := by
  simp [turns]

/-- The counter of every process stays below the interval. -/
def Paced (s : Machine) : Prop :=
  ∀ p, 0 ≤ (s.proc p).ecoSkipCounter ∧ (s.proc p).ecoSkipCounter < ECO_SKIP_INTERVAL

variable {s s' : Machine} {es : List Event} {h : Hart} {p q : Slot} {now : ℕ} {x : Proc}

/-! ## One visit -/

theorem budget_eco (now : ℕ) (x : Proc) : (x.budget now).1.powerMode = x.powerMode ∧
    (x.budget now).1.ecoSkipCounter = x.ecoSkipCounter := by
  unfold budget
  grind

theorem visit_of_exhausted (hb : (x.budget now).2 = false) :
    (x.visit now).2 = false ∧ (x.visit now).1.ecoSkipCounter = x.ecoSkipCounter := by
  have he := (budget_eco now x).2
  unfold visit
  split
  · rcases hx : x.budget now with ⟨y, b⟩
    rw [hx] at hb he
    obtain rfl : b = false := hb
    exact ⟨rfl, he⟩
  · exact ⟨rfl, rfl⟩

/-- A visit that finds the process ready advances the counter, or runs the process and clears it. -/
theorem visit_of_ready (hr : x.state = .runnable) (hb : (x.budget now).2 = true)
    (hm : x.powerMode = .eco) (hc : 0 ≤ x.ecoSkipCounter ∧ x.ecoSkipCounter < ECO_SKIP_INTERVAL) :
    (x.visit now).1.ecoSkipCounter + ECO_SKIP_INTERVAL * (if (x.visit now).2 then 1 else 0) =
      x.ecoSkipCounter + 1 := by
  obtain ⟨hm', hc'⟩ := budget_eco now x
  rcases hx : x.budget now with ⟨y, b⟩
  rw [hx] at hb hm' hc'
  obtain rfl : b = true := hb
  have hy : y.powerMode = .eco := hm'.trans hm
  have hv : x.visit now = y.eco := by simp [visit, hr, hx]
  rw [hv, ← hc']
  rw [← hc'] at hc
  simp only [eco, hy, if_true, ECO_SKIP_INTERVAL] at hc ⊢
  split
  · simp
  · simp
    omega

theorem visit_paced (now : ℕ) (hc : 0 ≤ x.ecoSkipCounter ∧ x.ecoSkipCounter < ECO_SKIP_INTERVAL) :
    0 ≤ (x.visit now).1.ecoSkipCounter ∧ (x.visit now).1.ecoSkipCounter < ECO_SKIP_INTERVAL := by
  unfold visit budget eco ECO_SKIP_INTERVAL at *
  grind

/-! ## Every run keeps the counters below the interval -/

theorem paced_boot : Paced Machine.boot := fun p => by
  by_cases h0 : p = 0 <;> simp [Machine.boot, h0, allocproc, empty, ECO_SKIP_INTERVAL]

theorem Step.paced (hs : Placed s) (hc : Paced s) (st : Step s es s') : Paced s' := fun p => by
  have zero : (s'.proc p).ecoSkipCounter = 0 →
      0 ≤ (s'.proc p).ecoSkipCounter ∧ (s'.proc p).ecoSkipCounter < ECO_SKIP_INTERVAL := fun h0 => by
    simp [h0, ECO_SKIP_INTERVAL]
  cases st.metered hs p with
  | keep hk => rw [hk.counter]; exact hc p
  | @skip _ now _ _ hv =>
    have h := visit_paced now (hc p)
    rwa [hv] at h
  | @run _ now _ _ _ hv e =>
    have h := visit_paced now (hc p)
    rw [hv] at h
    rw [e]
    exact h
  | tickUser _ _ _ e | tickKernel _ _ _ e | charge _ _ _ e => rw [e]; exact hc p
  | @call _ c _ _ _ _ e =>
    cases c with
    | setpowermode => exact zero (by rw [e]; rfl)
    | kkill | setcpulimit | setusagelimit => rw [e]; exact hc p
  | claim _ e | inherit _ e | free e => exact zero (by rw [e]; rfl)

theorem Runs.paced {tr : List Event} (hr : Runs tr s) : Paced s := by
  have h : Placed s ∧ Paced s :=
    Trans.Run.invariant (I := fun _ s => Placed s ∧ Paced s) ⟨placed_boot, paced_boot⟩
      (fun _ _ _ _ hs st => ⟨st.placed hs.1, st.paced hs.1 hs.2⟩) hr
  exact h.2

/-! ## One step of a stretch -/

theorem ready_of_visit (now : ℕ) (x : Proc) (hv : (x.visit now).2 = true) :
    x.state = .runnable ∧ (x.budget now).2 = true := by
  have hst : x.state = .runnable := runnable_of_visit (Prod.ext rfl hv)
  refine ⟨hst, ?_⟩
  by_contra hb
  simp [visit_of_exhausted (Bool.eq_false_iff.2 hb)] at hv

theorem Step.turn_visit (st : Step s es s') (hg : GivesTurn p s s') :
    FindsReady p s s' ∧ (s'.proc p).state = .running := by
  obtain ⟨h, now, hs, hs'⟩ := hg
  cases st.scheduled h with
  | same e => exact absurd (e ▸ hs') hs
  | skip _ _ _ e => simp [e] at hs'
  | @run now' found q x hsc hv hp e _ =>
    obtain ⟨rfl, rfl⟩ : now' = now ∧ q = p := by simpa [e] using hs'
    have hready := ready_of_visit now' (s.proc q) (by rw [hv])
    exact ⟨⟨h, now', found, hsc, by simp [e, hsc], hready⟩, by simp [hp, dispatch]⟩
  | other _ hn => exact absurd hs' (hn now p)

theorem Step.ready_balance (st : Step s es s') (hc : Paced s) (hm : (s.proc p).powerMode = .eco)
    (hv : FindsReady p s s') : (s'.proc p).ecoSkipCounter +
      ECO_SKIP_INTERVAL * (visitsAndTurns p s s').2 = (s.proc p).ecoSkipCounter + 1 := by
  obtain ⟨h, now, found, hsc, hne, hr, hb⟩ := hv
  have hcount := visit_of_ready hr hb hm (hc p)
  cases st.scheduled h with
  | same e => exact absurd e hne
  | @skip now' found' q x hsc' hv hp _ _ =>
    obtain ⟨rfl, rfl, hq⟩ : now' = now ∧ found' = found ∧ (q : ℕ) = p := by simpa [hsc'] using hsc
    obtain rfl : q = p := Fin.ext hq
    have hst : (s'.proc q).state = .runnable := by
      rw [hp, Function.update_self, (visited hv).state, hr]
    have hno : ¬ GivesTurn q s s' := fun hg => by simp [(st.turn_visit hg).2] at hst
    simpa [visitsAndTurns, hno, hp, hv] using hcount
  | @run now' found' q x hsc' hv hp e _ =>
    obtain ⟨rfl, rfl, hq⟩ : now' = now ∧ found' = found ∧ (q : ℕ) = p := by simpa [hsc'] using hsc
    obtain rfl : q = p := Fin.ext hq
    have hg : GivesTurn q s s' := ⟨h, now', by simp [hsc'], by simp [e]⟩
    simpa [visitsAndTurns, hg, hp, hv, dispatch] using hcount
  | other hn _ => exact absurd hsc (hn now found p)

/-- Any other step of a stretch leaves the counter alone. -/
theorem Step.idle_balance (st : Step s es s') (hs : Placed s) (hf : FreshMeters s)
    (hm' : (s'.proc p).powerMode = .eco) (hset : ¬ SetsMode p s s')
    (hv : ¬ FindsReady p s s') : (s'.proc p).ecoSkipCounter = (s.proc p).ecoSkipCounter := by
  cases st.metered hs p with
  | keep hk => exact hk.counter
  | @skip h now found hsc hvis hsc' _ =>
    -- the visit found the process not runnable or its budget used up
    by_cases hst : (s.proc p).state = .runnable
    · have hb : ((s.proc p).budget now).2 = false := by
        by_contra hb
        exact hv ⟨h, now, found, hsc, by simp [hsc, hsc'], hst, by simpa using hb⟩
      have hx := (visit_of_exhausted hb).2
      rwa [hvis] at hx
    · rw [visit_of_ne hst, Prod.mk.injEq] at hvis
      rw [← hvis.1]
  | @run h now found x hsc hvis _ hsc' _ =>
    have hready := ready_of_visit now (s.proc p) (by rw [hvis])
    exact absurd ⟨h, now, found, hsc, by simp [hsc, hsc'], hready⟩ hv
  | tickUser _ _ _ e | tickKernel _ _ _ e => rw [e]
  | charge _ _ _ e => rw [e]; rfl
  | @call r c pid hpc hhit hk e _ =>
    cases c with
    | setpowermode mode => exact absurd ⟨r, mode, pid, hpc, hhit, hk⟩ hset
    | kkill | setcpulimit | setusagelimit => rw [e]; rfl
  | claim _ e => simp [e, forkCopy, allocproc] at hm'
  | inherit hpc e => rw [e, (hf _ _ hpc).2.2]; rfl
  | free e => simp [e, freeproc, empty] at hm'

theorem EcoStep.balance {ns : List (ℕ × ℕ)} (st : EcoStep p s ns s') (hs : Placed s)
    (hf : FreshMeters s) (hc : Paced s) : (s'.proc p).ecoSkipCounter + ECO_SKIP_INTERVAL * turns ns =
      (s.proc p).ecoSkipCounter + visits ns := by
  obtain ⟨⟨es, st⟩, hm, hm', hset, rfl⟩ := st
  by_cases hv : FindsReady p s s'
  · simpa [turns, visits, visitsAndTurns, hv] using st.ready_balance hc hm hv
  · have hno : ¬ GivesTurn p s s' := fun hg => hv (st.turn_visit hg).1
    simpa [turns, visits, visitsAndTurns, hv, hno] using st.idle_balance hs hf hm' hset hv

/-! ## A stretch -/

/-- The count law of a stretch. -/
theorem eco_balance {ns : List (ℕ × ℕ)} (hs : Placed s) (hf : FreshMeters s) (hc : Paced s)
    (hr : Trans.Run (EcoStep p) s ns s') : Paced s' ∧
      (s'.proc p).ecoSkipCounter + ECO_SKIP_INTERVAL * turns ns =
        (s.proc p).ecoSkipCounter + visits ns := by
  have h : (Placed s' ∧ FreshMeters s' ∧ Paced s') ∧
      (s'.proc p).ecoSkipCounter + ECO_SKIP_INTERVAL * turns ns =
        (s.proc p).ecoSkipCounter + visits ns := by
    refine Trans.Run.invariant (I := fun ns s' => (Placed s' ∧ FreshMeters s' ∧ Paced s') ∧
      (s'.proc p).ecoSkipCounter + ECO_SKIP_INTERVAL * turns ns =
        (s.proc p).ecoSkipCounter + visits ns) ⟨⟨hs, hf, hc⟩, by simp [turns, visits]⟩ ?_ hr
    rintro ns₁ ns₂ s₁ s₂ ⟨⟨hs, hf, hc⟩, hsum⟩ st
    have hone := st.balance hs hf hc
    obtain ⟨es, st⟩ := st.1
    refine ⟨⟨st.placed hs, st.freshMeters hs hf, st.paced hs hc⟩, ?_⟩
    rw [turns_append, visits_append]
    simp only [ECO_SKIP_INTERVAL] at hsum hone ⊢
    omega
  exact ⟨h.1.2.2, h.2⟩

/-- **The ECO cadence is exact**: over a stretch of a run in which `p` stays in ECO mode and is not
the target of `setpowermode`, the number of its turns is the number of visits that find it runnable and
within its budget, with the counter at the start added, divided by the interval. Visits that find the
budget used up neither run the process nor advance its counter. -/
theorem eco_cadence {tr : List Event} {ns : List (ℕ × ℕ)} (hr : Runs tr s)
    (hseg : Trans.Run (EcoStep p) s ns s') :
    (turns ns : ℤ) = ((s.proc p).ecoSkipCounter + visits ns) / ECO_SKIP_INTERVAL ∧
    ∀ now, ((s.proc p).budget now).2 = false → ((s.proc p).visit now).2 = false ∧
      ((s.proc p).visit now).1.ecoSkipCounter = (s.proc p).ecoSkipCounter := by
  refine ⟨?_, fun now hb => visit_of_exhausted hb⟩
  obtain ⟨hpaced, hsum⟩ := eco_balance hr.placed hr.freshMeters hr.paced hseg
  have hp := hpaced p
  simp only [ECO_SKIP_INTERVAL] at hp hsum ⊢
  omega

theorem EcoStep.turn {b : Bool} (hsc : s.sched h = .scan now b p) (hl : s.lock p = none)
    (hv : (s.proc p).visit now = (x, true)) (hm : (s.proc p).powerMode = .eco)
    (hx : x.powerMode = .eco) : ∃ s', EcoStep p s [(1, 1)] s' := by
  refine ⟨_, ⟨_, Step.schedRun hsc hl hv⟩, hm, by simpa [dispatch] using hx, ?_, ?_⟩
  · rintro ⟨r, mode, pid, hpc, -, hpc'⟩
    exact absurd (hpc.symm.trans hpc') (by simp)
  · have hready := ready_of_visit now (s.proc p) (by rw [hv])
    rw [visitsAndTurns, if_pos ⟨h, now, b, hsc, by simp [hsc], hready⟩,
      if_pos ⟨h, now, by simp [hsc], by simp⟩]

/-- The first process puts itself into ECO mode and yields; two harts skip it and a third runs it. -/
theorem eco_cadence_third_visit : ∃ tr s ns s', Runs tr s ∧ Trans.Run (EcoStep 0) s ns s' ∧
    (s.proc 0).ecoSkipCounter = 2 ∧ visits ns = 1 ∧
    (turns ns : ℤ) = ((s.proc 0).ecoSkipCounter + visits ns) / ECO_SKIP_INTERVAL := by
  have hr := ((((((((((((((Trans.Run.refl.tail
    (@Step.schedTop Machine.boot 0 rfl)).tail
    (@Step.schedRun _ 0 0 false 0 _ rfl rfl rfl)).tail
    (@Step.resume _ 0 0 0 false rfl rfl)).tail
    (@Step.prepareReturn _ 0 0 ⟨⟨0, rfl⟩, rfl⟩ rfl)).tail
    (@Step.checkAlive _ 0 0 .kernel ⟨⟨0, rfl⟩, rfl⟩ rfl rfl rfl)).tail
    (@Step.callPid _ 0 0 (.setpowermode .eco) 1 ⟨⟨0, rfl⟩, rfl⟩ rfl trivial)).tail
    (@Step.pidHit _ 0 0 0 (.setpowermode .eco) 1 ⟨⟨0, rfl⟩, rfl⟩ rfl rfl (by decide +kernel))).tail
    (@Step.timerKernel _ 0 0 ⟨⟨0, rfl⟩, rfl⟩ rfl)).tail
    (@Step.yield _ 0 0 0 rfl rfl rfl)).tail
    (@Step.schedBack _ 0 0 0 rfl)).tail
    (@Step.schedTop _ 1 rfl)).tail
    (@Step.schedSkip _ 1 1 false 0 _ rfl rfl rfl)).tail
    (@Step.schedTop _ 2 rfl)).tail
    (@Step.schedSkip _ 2 1 false 0 _ rfl rfl rfl)).tail
    (@Step.schedTop _ 3 rfl)
  have turn : ∀ {tr s}, Runs tr s → s.sched 3 = .scan 1 false (0 : Slot) → s.lock 0 = none →
      (s.proc 0).visit 1 = ({ s.proc 0 with ecoSkipCounter := 0 }, true) →
      (s.proc 0).powerMode = .eco → (s.proc 0).ecoSkipCounter = 2 → ∃ tr s ns s', Runs tr s ∧
        Trans.Run (EcoStep 0) s ns s' ∧ (s.proc 0).ecoSkipCounter = 2 ∧ visits ns = 1 ∧
        (turns ns : ℤ) = ((s.proc 0).ecoSkipCounter + visits ns) / ECO_SKIP_INTERVAL := by
    intro tr s hr hsc hl hv hm hc
    obtain ⟨s', st⟩ := EcoStep.turn hsc hl hv hm hm
    exact ⟨tr, s, _, s', hr, .single st, hc, rfl, (eco_cadence hr (.single st)).1⟩
  exact turn hr rfl rfl rfl rfl rfl

end Xv6
