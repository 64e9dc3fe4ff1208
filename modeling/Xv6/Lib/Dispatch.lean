import Mathlib.Logic.Function.Basic
import Mathlib.Tactic.Common
import Xv6.Lib.Trans

/-!
# Hand-over of task locks between schedulers and tasks

Workers run tasks. Every task has a lock. A worker that picks a task takes its lock; the task
releases it once it runs, takes it again to leave, and the worker releases it after the switch
back. A running task can build another one: it claims it with its lock held, lets go of the lock and
later publishes it. `Move` is one step of this protocol with the lock events it makes, and `Ok` the
invariant that makes it exclusive: a task runs on one worker, a draft has one builder, and the holder
of every lock is known.
-/

namespace Dispatch

open Function Option List

variable {H P : Type} [DecidableEq H] [DecidableEq P]

/-- Where a worker is: choosing a task, away in a task, or just switched back from one. -/
inductive Place (P : Type)
  | idle
  | away (p : P)
  | back (p : P)
  deriving DecidableEq

/-- The task of a worker that is not idle. -/
def Place.task : Place P → Option P
  | idle => none
  | away p => some p
  | back p => some p

attribute [grind =] update_apply Place.task

inductive LockEvent (H P : Type)
  | acquire (h : H) (q : P)
  | release (h : H) (q : P)
  deriving DecidableEq

/-- The mark of a task: running, being built, or neither. -/
inductive Status
  | rest
  | draft
  | running
  deriving DecidableEq

/-- `saved`: the context of the task is saved, so that it has not released the lock it was switched
to with. `child`: the task it is building. `building`: the task whose lock it holds for that. -/
structure State (H P : Type) where
  status : P → Status
  saved : P → Bool
  child : P → Option P
  building : P → Option P
  lock : P → Option H
  place : H → Place P

/-- Task `p` executes on worker `h`, past the release of its own lock. -/
def State.Runs (s : State H P) (h : H) (p : P) : Prop := s.place h = .away p ∧ s.saved p = false

/-- One step of the protocol. -/
inductive Move : State H P → List (LockEvent H P) → State H P → Prop
  | stay (s : State H P) : Move s [] s
  | section (s : State H P) (h : H) (q : P) : s.lock q = none →
      Move s [.acquire h q, .release h q] s
  | pick (s : State H P) (h : H) (q : P) : s.place h = .idle → s.lock q = none →
      s.status q = .rest →
      Move s [.acquire h q] { s with
        status := update s.status q .running
        lock := update s.lock q (some h)
        place := update s.place h (.away q) }
  | resume (s : State H P) (h : H) (q : P) : s.place h = .away q → s.saved q = true →
      Move s [.release h q] { s with
        saved := update s.saved q false
        lock := update s.lock q none }
  | leave (s : State H P) (h : H) (q : P) : s.Runs h q → s.building q = none → s.lock q = none →
      Move s [.acquire h q] { s with
        status := update s.status q .rest
        saved := update s.saved q true
        lock := update s.lock q (some h)
        place := update s.place h (.back q) }
  | back (s : State H P) (h : H) (q : P) : s.place h = .back q →
      Move s [.release h q] { s with
        lock := update s.lock q none
        place := update s.place h .idle }
  | claim (s : State H P) (h : H) (p q : P) : s.Runs h p → s.child p = none →
      s.lock q = none → s.status q = .rest →
      Move s [.acquire h q] { s with
        status := update s.status q .draft
        child := update (update s.child q none) p (some q)
        building := update s.building p (some q)
        lock := update s.lock q (some h) }
  | unclaim (s : State H P) (h : H) (p q : P) : s.Runs h p → s.building p = some q →
      Move s [.release h q] { s with
        building := update s.building p none
        lock := update s.lock q none }
  | publish (s : State H P) (h : H) (p q : P) : s.Runs h p → s.child p = some q →
      s.building p = none → s.lock q = none →
      Move s [.acquire h q, .release h q] { s with
        status := update s.status q .rest
        child := update s.child p none }

/-- The three ways to hold the lock of `q`. -/
def Holds (s : State H P) (h : H) (q : P) : Prop :=
  s.place h = .back q ∨ (s.place h = .away q ∧ s.saved q = true) ∨
    ∃ p, s.Runs h p ∧ s.building p = some q

/-- The invariant of the protocol. -/
structure Ok (s : State H P) : Prop where
  /-- No task is on two workers. -/
  unique : ∀ h h' p, (s.place h).task = some p → (s.place h').task = some p → h = h'
  /-- A task that a worker is in is marked as running. -/
  running_of_away : ∀ h p, s.place h = .away p → s.status p = .running
  /-- A task marked as running is on a worker. -/
  away_of_running : ∀ p, s.status p = .running → ∃ h, s.place h = .away p
  saved_of_not_running : ∀ p, s.status p ≠ .running → s.saved p = true
  rest_of_back : ∀ h p, s.place h = .back p → s.status p = .rest
  /-- Only a task past the release of its own lock holds that of a draft. -/
  not_building : ∀ p, s.saved p = true → s.building p = none
  child_of_building : ∀ p q, s.building p = some q → s.child p = some q
  draft_of_child : ∀ p q, s.child p = some q → s.status q = .draft
  /-- A draft has one builder. -/
  builder_unique : ∀ p p' q, s.child p = some q → s.child p' = some q → p = p'
  /-- The holder of a lock, in both directions. -/
  lock_iff : ∀ h q, s.lock q = some h ↔ Holds s h q

variable {s s' : State H P} {es : List (LockEvent H P)} {h h' : H} {p q : P}

omit [DecidableEq H] [DecidableEq P] in
theorem Ok.not_saved_of_building (hs : Ok s) (hb : s.building p = some q) : s.saved p = false := by
  by_contra hc
  have := hs.not_building p (by simpa using hc)
  simp_all

omit [DecidableEq H] [DecidableEq P] in
theorem Ok.lock_of_back (hs : Ok s) (hp : s.place h = .back p) : s.lock p = some h :=
  (hs.lock_iff h p).2 (.inl hp)

omit [DecidableEq H] [DecidableEq P] in
/-- A task at rest or in draft whose lock is free is on no worker. -/
theorem Ok.not_task (hs : Ok s) (hr : s.status q ≠ .running) (hl : s.lock q = none) :
    (s.place h).task ≠ some q := by
  intro ht
  match hp : s.place h with
  | .idle => simp [hp, Place.task] at ht
  | .away p =>
    obtain rfl : p = q := by simpa [hp, Place.task] using ht
    exact hr (hs.running_of_away h p hp)
  | .back p =>
    obtain rfl : p = q := by simpa [hp, Place.task] using ht
    simp [hs.lock_of_back hp] at hl

omit [DecidableEq H] [DecidableEq P] in
/-- The thread that holds the lock of a draft runs. -/
theorem Ok.builder (hs : Ok s) (hb : s.building p = some q) :
    ∃ h, s.Runs h p ∧ s.lock q = some h := by
  have hsv := hs.not_saved_of_building hb
  have hrun : s.status p = .running := by
    by_contra hc
    simp [hs.saved_of_not_running p hc] at hsv
  obtain ⟨h, hp⟩ := hs.away_of_running p hrun
  exact ⟨h, ⟨hp, hsv⟩, (hs.lock_iff h q).2 (.inr (.inr ⟨p, ⟨hp, hsv⟩, hb⟩))⟩

omit [DecidableEq H] [DecidableEq P] in
theorem Ok.not_building_of_lock (hs : Ok s) (hl : s.lock q = none) : s.building p ≠ some q := by
  intro hb
  obtain ⟨h, -, h'⟩ := hs.builder hb
  simp [hl] at h'

omit [DecidableEq H] [DecidableEq P] in
theorem Ok.not_child (hs : Ok s) (hq : s.status q ≠ .draft) : s.child p ≠ some q :=
  fun hc => hq (hs.draft_of_child p q hc)

theorem ok_pick (hs : Ok s) (hp : s.place h = .idle) (hl : s.lock q = none)
    (hr : s.status q = .rest) :
    Ok { s with
      status := update s.status q .running
      lock := update s.lock q (some h)
      place := update s.place h (.away q) } := by
  have hnt := fun h' => hs.not_task (q := q) (h := h') (by simp [hr]) hl
  have hsv := hs.saved_of_not_running q (by simp [hr])
  have hnb := fun p => hs.not_building_of_lock (p := p) hl
  have hnc := fun p => hs.not_child (p := p) (q := q) (by simp [hr])
  obtain ⟨h₁, h₂, h₃, h₄, h₅, h₆, h₇, h₈, h₉, h₀⟩ := hs
  refine ⟨?_, ?_, fun p hpr => ?_, ?_, ?_, h₆, h₇, ?_, h₉, ?_⟩
  · grind
  · grind
  · by_cases hpq : p = q
    · exact ⟨h, by simp [hpq]⟩
    · obtain ⟨w, hw⟩ := h₃ p (by simpa [hpq] using hpr)
      exact ⟨w, by grind⟩
  · grind
  · grind
  · grind
  · grind [Holds, State.Runs]

omit [DecidableEq H] in
theorem ok_resume (hs : Ok s) (hp : s.place h = .away q) (hsv : s.saved q = true) :
    Ok { s with
      saved := update s.saved q false
      lock := update s.lock q none } := by
  have hlk : s.lock q = some h := (hs.lock_iff h q).2 (.inr (.inl ⟨hp, hsv⟩))
  have hrun := hs.running_of_away h q hp
  have hb := hs.not_building q hsv
  have hnb : ∀ p, s.building p ≠ some q := fun p hb' =>
    hs.not_child (by simp [hrun]) (hs.child_of_building p q hb')
  obtain ⟨h₁, h₂, h₃, h₄, h₅, h₆, h₇, h₈, h₉, h₀⟩ := hs
  refine ⟨h₁, h₂, h₃, ?_, h₅, ?_, h₇, h₈, h₉, ?_⟩
  · grind
  · grind
  · grind [Holds, State.Runs]

theorem ok_leave (hs : Ok s) (hr : s.Runs h q) (hb : s.building q = none) (hl : s.lock q = none) :
    Ok { s with
      status := update s.status q .rest
      saved := update s.saved q true
      lock := update s.lock q (some h)
      place := update s.place h (.back q) } := by
  have hnb := fun p => hs.not_building_of_lock (p := p) hl
  have hu := fun h' => hs.unique h' h q
  have hnc := fun p => hs.not_child (p := p) (q := q) (by simp [hs.running_of_away h q hr.1])
  obtain ⟨h₁, h₂, h₃, h₄, h₅, h₆, h₇, h₈, h₉, h₀⟩ := hs
  obtain ⟨hp, hsv⟩ := hr
  refine ⟨?_, ?_, fun p hpr => ?_, ?_, ?_, ?_, h₇, ?_, h₉, ?_⟩
  · grind
  · grind
  · have hpq : p ≠ q := by rintro rfl; simp at hpr
    obtain ⟨w, hw⟩ := h₃ p (by simpa [hpq] using hpr)
    exact ⟨w, by grind⟩
  · grind
  · grind
  · grind
  · grind
  · grind [Holds, State.Runs]

theorem ok_back (hs : Ok s) (hp : s.place h = .back q) :
    Ok { s with
      lock := update s.lock q none
      place := update s.place h .idle } := by
  have hlk := hs.lock_of_back hp
  have hrun := hs.rest_of_back h q hp
  have hu := fun h' => hs.unique h' h q
  have hnb : ∀ p, s.building p ≠ some q := fun p hb =>
    hs.not_child (by simp [hrun]) (hs.child_of_building p q hb)
  obtain ⟨h₁, h₂, h₃, h₄, h₅, h₆, h₇, h₈, h₉, h₀⟩ := hs
  refine ⟨?_, ?_, fun p hpr => ?_, h₄, ?_, h₆, h₇, h₈, h₉, ?_⟩
  · grind
  · grind
  · obtain ⟨w, hw⟩ := h₃ p hpr
    exact ⟨w, by grind⟩
  · grind
  · grind [Holds, State.Runs]

omit [DecidableEq H] in
theorem ok_claim (hs : Ok s) (hr : s.Runs h p) (hb : s.child p = none) (hl : s.lock q = none)
    (hrq : s.status q = .rest) :
    Ok { s with
      status := update s.status q .draft
      child := update (update s.child q none) p (some q)
      building := update s.building p (some q)
      lock := update s.lock q (some h) } := by
  have hnb := fun p => hs.not_building_of_lock (p := p) hl
  have hnt := fun h' => hs.not_task (q := q) (h := h') (by simp [hrq]) hl
  have hnc := fun p => hs.not_child (p := p) (q := q) (by simp [hrq])
  have hbp : s.building p = none := by
    by_contra hc
    obtain ⟨r, hr'⟩ := ne_none_iff_exists'.1 hc
    simp [hs.child_of_building p r hr'] at hb
  have hu := fun h' => hs.unique h' h p
  have hrun := hs.running_of_away h p hr.1
  have hqb := hs.not_building q (hs.saved_of_not_running q (by simp [hrq]))
  obtain ⟨h₁, h₂, h₃, h₄, h₅, h₆, h₇, h₈, h₉, h₀⟩ := hs
  refine ⟨h₁, ?_, fun r hrr => ?_, ?_, ?_, ?_, ?_, ?_, ?_, fun w q' => ?_⟩
  · grind
  · have hrq' : r ≠ q := by rintro rfl; simp at hrr
    exact h₃ r (by simpa [hrq'] using hrr)
  · grind
  · grind
  · grind [State.Runs]
  · grind
  · grind
  · grind
  · by_cases hq : q' = q
    · -- the lock just taken: its only holder is the builder
      subst hq
      simp only [update_self, some.injEq, Holds, State.Runs]
      constructor
      · rintro rfl
        exact .inr (.inr ⟨p, hr, by simp⟩)
      · rintro (hw | ⟨hw, -⟩ | ⟨p', ⟨hw, -⟩, hp'⟩)
        · exact absurd (by simp [hw, Place.task]) (hnt w)
        · exact absurd (by simp [hw, Place.task]) (hnt w)
        · obtain rfl : p' = p := by
            by_contra hne
            exact hnb p' (by simpa [hne] using hp')
          exact (hu w (by simp [hw, Place.task]) (by simp [hr.1, Place.task])).symm
    · simp only [update_of_ne hq]
      rw [h₀ w q']
      simp only [Holds, State.Runs]
      grind

omit [DecidableEq H] in
theorem ok_unclaim (hs : Ok s) (hr : s.Runs h p) (hb : s.building p = some q) :
    Ok { s with
      building := update s.building p none
      lock := update s.lock q none } := by
  have hlk : s.lock q = some h := (hs.lock_iff h q).2 (.inr (.inr ⟨p, hr, hb⟩))
  have hdr := hs.draft_of_child p q (hs.child_of_building p q hb)
  have hb' : ∀ p', s.building p' = some q → p' = p := fun p' hb' =>
    hs.builder_unique p' p q (hs.child_of_building p' q hb') (hs.child_of_building p q hb)
  obtain ⟨h₁, h₂, h₃, h₄, h₅, h₆, h₇, h₈, h₉, h₀⟩ := hs
  refine ⟨h₁, h₂, h₃, h₄, h₅, ?_, ?_, h₈, h₉, fun w q' => ?_⟩
  · grind
  · grind
  · by_cases hq : q' = q
    · -- the lock just released: nobody holds it
      subst hq
      simp only [update_self, Holds, State.Runs]
      have hb'' : ∀ p', ¬ update s.building p none p' = some q' := fun p' => by
        grind
      have hold := h₀ w q'
      rw [hlk, some.injEq] at hold
      grind [Holds, State.Runs]
    · simp only [update_of_ne hq]
      rw [h₀ w q']
      simp only [Holds, State.Runs]
      grind

omit [DecidableEq H] in
theorem ok_publish (hs : Ok s) (hc : s.child p = some q) (hb : s.building p = none) :
    Ok { s with
      status := update s.status q .rest
      child := update s.child p none } := by
  have hdr := hs.draft_of_child p q hc
  have hu := fun p' => hs.builder_unique p' p q
  obtain ⟨h₁, h₂, h₃, h₄, h₅, h₆, h₇, h₈, h₉, h₀⟩ := hs
  refine ⟨h₁, ?_, fun r hrr => ?_, ?_, ?_, h₆, ?_, ?_, ?_, h₀⟩
  · grind
  · have hrq' : r ≠ q := by rintro rfl; simp at hrr
    exact h₃ r (by simpa [hrq'] using hrr)
  · grind
  · grind
  · grind
  · grind
  · grind

/-- Every step keeps the invariant. -/
theorem Move.ok (hs : Ok s) (hm : Move s es s') : Ok s' := by
  cases hm with
  | stay | «section» => exact hs
  | pick h q hp hl hr => exact ok_pick hs hp hl hr
  | resume h q hp hsv => exact ok_resume hs hp hsv
  | leave h q hr hb hl => exact ok_leave hs hr hb hl
  | back h q hp => exact ok_back hs hp
  | claim h p q hr hb hl hrq => exact ok_claim hs hr hb hl hrq
  | unclaim h p q hr hb => exact ok_unclaim hs hr hb
  | publish h p q hr hc hb hl => exact ok_publish hs hc hb

/-! ## The lock events of a run -/

/-- The task of a lock event. -/
def LockEvent.task : LockEvent H P → P
  | acquire _ q => q
  | release _ q => q

/-- The events `es` take the holder of the lock of `q` from the first argument to the last: it is
acquired only while free, and released only by the worker that acquired it. -/
inductive Holder (q : P) : Option H → List (LockEvent H P) → Option H → Prop
  | nil (o : Option H) : Holder q o [] o
  | acquire {h : H} {es : List (LockEvent H P)} {o : Option H} :
      Holder q (some h) es o → Holder q none (.acquire h q :: es) o
  | release {h : H} {es : List (LockEvent H P)} {o : Option H} :
      Holder q none es o → Holder q (some h) (.release h q :: es) o
  | other {e : LockEvent H P} {es : List (LockEvent H P)} {o o' : Option H} :
      e.task ≠ q → Holder q o es o' → Holder q o (e :: es) o'

omit [DecidableEq H] [DecidableEq P] in
theorem Holder.append {fs : List (LockEvent H P)} {o o' o'' : Option H} (h : Holder q o es o')
    (h' : Holder q o' fs o'') : Holder q o (es ++ fs) o'' := by
  induction h with
  | nil => exact h'
  | acquire _ ih => exact .acquire (ih h')
  | release _ ih => exact .release (ih h')
  | other he _ ih => exact .other he (ih h')

/-- A worker that does not hold the lock of `q` at either end has released it as often as it
acquired it. -/
theorem Holder.count_eq {o o' : Option H} (hh : Holder q o es o') :
    es.count (.acquire h q) + (if o = some h then 1 else 0) =
      es.count (.release h q) + if o' = some h then 1 else 0 := by
  induction hh with
  | nil => rfl
  | acquire _ ih | release _ ih =>
    rename_i h₁ _ _ _
    by_cases e : h₁ = h
    · subst e
      simp at ih ⊢
      omega
    · simpa [e] using ih
  | other he _ ih =>
    rename_i e _ _ _ _
    have h₁ : e ≠ .acquire h q := fun e' => he (by rw [e']; rfl)
    have h₂ : e ≠ .release h q := fun e' => he (by rw [e']; rfl)
    rwa [count_cons_of_ne h₁, count_cons_of_ne h₂]

omit [DecidableEq H] in
/-- An event on the lock of another task. -/
theorem holder_update {e : LockEvent H P} {p : P} {o : Option H} (hq : q ≠ p) (he : e.task = p) :
    Holder q (s.lock q) [e] (update s.lock p o q) := by
  rw [update_of_ne hq]
  exact .other (he ▸ Ne.symm hq) (.nil _)

/-- Every step moves every lock along its events. -/
theorem Move.holder (hs : Ok s) (hm : Move s es s') (q : P) :
    Holder q (s.lock q) es (s'.lock q) := by
  have acq : ∀ h p, s.lock p = none →
      Holder q (s.lock q) [.acquire h p] (update s.lock p (some h) q) := fun h p hl => by
    by_cases hq : q = p
    · subst hq
      rw [hl, update_self]
      exact .acquire (.nil _)
    · exact holder_update hq rfl
  have rel : ∀ h p, s.lock p = some h →
      Holder q (s.lock q) [.release h p] (update s.lock p none q) := fun h p hl => by
    by_cases hq : q = p
    · subst hq
      rw [hl, update_self]
      exact .release (.nil _)
    · exact holder_update hq rfl
  have sct : ∀ h p, s.lock p = none →
      Holder q (s.lock q) [.acquire h p, .release h p] (s.lock q) := fun h p hl => by
    by_cases hq : q = p
    · subst hq
      rw [hl]
      exact .acquire (.release (.nil _))
    · exact .other (Ne.symm hq) (.other (Ne.symm hq) (.nil _))
  cases hm with
  | stay => exact .nil _
  | «section» h p hl | publish h _ p _ _ _ hl => exact sct h p hl
  | pick h p _ hl _ | leave h p _ _ hl | claim h _ p _ _ hl _ => exact acq h p hl
  | resume h p hp hsv => exact rel h p ((hs.lock_iff h p).2 (.inr (.inl ⟨hp, hsv⟩)))
  | back h p hp => exact rel h p (hs.lock_of_back hp)
  | unclaim h p₀ p hr hb => exact rel h p ((hs.lock_iff h p).2 (.inr (.inr ⟨p₀, hr, hb⟩)))

omit [DecidableEq H] [DecidableEq P] in
/-- An idle worker holds no lock. -/
theorem Ok.lock_ne_of_idle (hs : Ok s) (hp : s.place h = .idle) : s.lock q ≠ some h := by
  intro hl
  rcases (hs.lock_iff h q).1 hl with h' | ⟨h', -⟩ | ⟨p, ⟨h', -⟩, -⟩ <;> simp [hp] at h'

end Dispatch
