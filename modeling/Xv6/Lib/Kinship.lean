import Mathlib.Logic.Function.Basic
import Mathlib.Tactic.Simps.Basic

/-!
# Parents, orphans and waiting

Processes create children, exit and wait for children to exit, under one lock for the parent links.
A process that exits gives its children to a root process and wakes it, wakes its own parent and
becomes a zombie; a process that waits looks at its children one after another, removes a zombie if
it finds one and goes to sleep if it has seen none. `Move` is one step of this protocol, with the
loops taken slot by slot, and `Ok` its invariant: parents are alive, and nobody sleeps while it has a
zombie child, unless the process that gave it the child is about to wake it.
-/

namespace Kinship

open Function

variable {P : Type}

inductive Life
  | vacant
  | draft
  | live
  | zombie
  deriving DecidableEq

/-- Where a process is in its own protocol: creating a child without or with a parent link, exiting
(before it takes the lock, giving away children, waking the root for one of them, waking the parent,
about to become a zombie), or waiting (looking at children, about to sleep). The predicates say which processes its
loop has passed. -/
inductive Stage (P : Type)
  | idle
  | making (c : P)
  | ready (c : P)
  | leaving
  | adopting (seen : P → Prop)
  | waking (seen woken : P → Prop)
  | calling (parent : Option P) (woken : P → Prop)
  | dying
  | scanning (seen : P → Prop)
  | resting

/-- The stages in which a process holds the lock. -/
def Stage.Holds : Stage P → Prop
  | adopting _ | waking _ _ | calling _ _ | dying | scanning _ | resting => True
  | _ => False

/-- The stages of an exit. -/
def Stage.Exits : Stage P → Prop
  | leaving | adopting _ | waking _ _ | calling _ _ | dying => True
  | _ => False

/-- The child that a process is creating. -/
def Stage.child : Stage P → Option P
  | making c => some c
  | ready c => some c
  | _ => none

/-- The processes that are known not to be children of an exiting process. -/
def Stage.Given : Stage P → P → Prop
  | adopting seen, c => seen c
  | waking seen _, c => seen c
  | calling _ _, _ => True
  | dying, _ => True
  | _, _ => False

/-- The processes that are known not to be zombie children of a waiting process. -/
def Stage.Seen : Stage P → P → Prop
  | scanning seen, c => seen c
  | resting, _ => True
  | _, _ => False

open Stage

attribute [grind =] update_apply Holds Exits child Given Seen

structure State (P : Type) where
  root : P
  life : P → Life
  parent : P → Option P
  asleep : P → Prop
  stage : P → Stage P

/-- Nobody is in a section of the lock. -/
def State.Free (s : State P) : Prop := ∀ p, ¬ (s.stage p).Holds

/-- Add a process to those that a loop has passed. -/
def add (seen : P → Prop) (c : P) : P → Prop := fun x => seen x ∨ x = c

section

variable [DecidableEq P]

/-- Change the stage of `p`. -/
@[simps] def State.goto (s : State P) (p : P) (k : Stage P) : State P :=
  { s with stage := update s.stage p k }

/-- One step of the protocol. -/
inductive Move : State P → State P → Prop
  | stay (s : State P) : Move s s
  | wake (s : State P) (q : P) : Move s { s with asleep := fun x => s.asleep x ∧ x ≠ q }
  -- creation
  | claim (s : State P) (p c : P) : s.stage p = .idle → s.life p = .live → ¬ s.asleep p →
      s.life c = .vacant →
      Move s ({ s with life := update s.life c .draft }.goto p (.making c))
  | link (s : State P) (p c : P) : s.stage p = .making c → s.Free →
      Move s ({ s with parent := update s.parent c (some p) }.goto p (.ready c))
  | publish (s : State P) (p c : P) : s.stage p = .ready c →
      Move s ({ s with life := update s.life c .live }.goto p .idle)
  -- exit
  | exit (s : State P) (p : P) : s.stage p = .idle → s.life p = .live → p ≠ s.root →
      ¬ s.asleep p → Move s (s.goto p .leaving)
  | lockExit (s : State P) (p : P) : s.stage p = .leaving → s.Free →
      Move s (s.goto p (.adopting fun _ => False))
  | skip (s : State P) (p c : P) (seen : P → Prop) : s.stage p = .adopting seen →
      s.parent c ≠ some p → Move s (s.goto p (.adopting (add seen c)))
  | give (s : State P) (p c : P) (seen : P → Prop) : s.stage p = .adopting seen →
      s.parent c = some p →
      Move s ({ s with parent := update s.parent c (some s.root) }.goto p
        (.waking (add seen c) fun _ => False))
  | wakeRoot (s : State P) (p q : P) (seen woken : P → Prop) : s.stage p = .waking seen woken →
      Move s ({ s with asleep := fun x => s.asleep x ∧ (x = s.root → x ≠ q) }.goto p
        (.waking seen (add woken q)))
  | wokenRoot (s : State P) (p : P) (seen woken : P → Prop) : s.stage p = .waking seen woken →
      (∀ q, woken q) → Move s (s.goto p (.adopting seen))
  | given (s : State P) (p : P) (seen : P → Prop) : s.stage p = .adopting seen → (∀ c, seen c) →
      Move s (s.goto p (.calling (s.parent p) fun _ => False))
  | call (s : State P) (p q : P) (o : Option P) (woken : P → Prop) : s.stage p = .calling o woken →
      Move s ({ s with asleep := fun x => s.asleep x ∧ (o = some x → x ≠ q) }.goto p
        (.calling o (add woken q)))
  | called (s : State P) (p : P) (o : Option P) (woken : P → Prop) :
      s.stage p = .calling o woken → (∀ q, woken q) → Move s (s.goto p .dying)
  | die (s : State P) (p : P) : s.stage p = .dying →
      Move s ({ s with life := update s.life p .zombie }.goto p .idle)
  -- wait
  | lockWait (s : State P) (p : P) : s.stage p = .idle → s.life p = .live → ¬ s.asleep p →
      s.Free → Move s (s.goto p (.scanning fun _ => False))
  | look (s : State P) (p c : P) (seen : P → Prop) : s.stage p = .scanning seen →
      (s.parent c = some p → s.life c ≠ .zombie) → Move s (s.goto p (.scanning (add seen c)))
  | reap (s : State P) (p c : P) (seen : P → Prop) : s.stage p = .scanning seen →
      s.parent c = some p → s.life c = .zombie →
      Move s ({ s with
        life := update s.life c .vacant
        parent := update s.parent c none }.goto p .idle)
  | giveUp (s : State P) (p : P) (seen : P → Prop) : s.stage p = .scanning seen →
      Move s (s.goto p .idle)
  | commit (s : State P) (p : P) (seen : P → Prop) : s.stage p = .scanning seen → (∀ c, seen c) →
      Move s (s.goto p .resting)
  | rest (s : State P) (p : P) : s.stage p = .resting →
      Move s ({ s with asleep := fun x => s.asleep x ∨ x = p }.goto p .idle)

end

/-- The invariant of the protocol. -/
structure Ok (s : State P) : Prop where
  root_live : s.life s.root = .live
  root_stays : ∀ p, (s.stage p).Exits → p ≠ s.root
  live_of_stage : ∀ p, s.stage p ≠ .idle → s.life p = .live
  /-- The lock has one holder. -/
  unique : ∀ p q, (s.stage p).Holds → (s.stage q).Holds → p = q
  parent_vacant : ∀ c, s.life c = .vacant → s.parent c = none
  parent_making : ∀ p c, s.stage p = .making c → s.parent c = none
  parent_ready : ∀ p c, s.stage p = .ready c → s.parent c = some p
  parent_draft : ∀ c q, s.life c = .draft → s.parent c = some q → s.stage q = .ready c
  draft_of_child : ∀ p c, (s.stage p).child = some c → s.life c = .draft
  child_unique : ∀ p p' c, (s.stage p).child = some c → (s.stage p').child = some c → p = p'
  /-- Parents are alive. -/
  parent_live : ∀ c, s.life c = .live ∨ s.life c = .zombie → c ≠ s.root →
    ∃ q, s.parent c = some q ∧ s.life q = .live
  given : ∀ p c, (s.stage p).Given c → s.parent c ≠ some p
  seen : ∀ p c, (s.stage p).Seen c → s.parent c = some p → s.life c ≠ .zombie
  asleep : ∀ q, s.asleep q → s.life q = .live ∧ s.stage q = .idle
  calling : ∀ p o woken, s.stage p = .calling o woken →
    o = s.parent p ∧ ∀ q, o = some q → woken q → ¬ s.asleep q
  dying : ∀ p q, s.stage p = .dying → s.parent p = some q → ¬ s.asleep q
  /-- Nobody sleeps beside a zombie child, unless it is the root and about to be woken. -/
  no_lost_wakeup : ∀ q c, s.asleep q → s.life c = .zombie → s.parent c = some q →
    q = s.root ∧ ∃ p seen woken, s.stage p = .waking seen woken ∧ ¬ woken q

variable {s s' : State P} {p q c : P} {k : Stage P}

theorem Ok.idle_of_not_live (hs : Ok s) (hp : s.life p ≠ .live) : s.stage p = .idle := by
  by_contra hc
  exact hp (hs.live_of_stage p hc)

/-- Waking processes keeps the invariant. -/
theorem Ok.wake (hs : Ok s) {A : P → Prop} (hA : ∀ q, A q → s.asleep q) :
    Ok { s with asleep := A } :=
  { hs with
    asleep := fun q hq => hs.asleep q (hA q hq)
    calling := fun p o woken hp =>
      ⟨(hs.calling p o woken hp).1, fun q hq hw ha => (hs.calling p o woken hp).2 q hq hw (hA q ha)⟩
    dying := fun p q hp hq ha => hs.dying p q hp hq (hA q ha)
    no_lost_wakeup := fun q c hq => hs.no_lost_wakeup q c (hA q hq) }

/-- A process without zombie children can go to sleep when nobody holds the lock. -/
theorem Ok.setAsleep (hs : Ok s) (hn : s.Free) (hp : s.stage p = .idle)
    (hl : s.life p = .live) (hz : ∀ c, s.parent c = some p → s.life c ≠ .zombie) :
    Ok { s with asleep := fun x => s.asleep x ∨ x = p } := by
  exact { hs with
    asleep := by grind [hs.asleep]
    calling := fun q o woken (hq : s.stage q = _) => absurd (by simp [hq, Holds]) (hn q)
    dying := fun q r (hq : s.stage q = _) => absurd (by simp [hq, Holds]) (hn q)
    no_lost_wakeup := by grind [hs.no_lost_wakeup] }

/-- What a process must know to go on to the stage `k`. -/
structure Enters (s : State P) (p : P) (k : Stage P) : Prop where
  stays : k.Exits → p ≠ s.root
  live : k ≠ .idle → s.life p = .live
  alone : k.Holds → ∀ q, (s.stage q).Holds → q = p
  making : ∀ c, k = .making c →
    s.life c = .draft ∧ s.parent c = none ∧ ∀ q, (s.stage q).child ≠ some c
  not_ready : ∀ c, k ≠ .ready c
  given : ∀ c, k.Given c → s.parent c ≠ some p
  seen : ∀ c, k.Seen c → s.parent c = some p → s.life c ≠ .zombie
  calling : ∀ o woken, k = .calling o woken →
    o = s.parent p ∧ ∀ q, o = some q → woken q → ¬ s.asleep q
  dying : ∀ q, k = .dying → s.parent p = some q → ¬ s.asleep q

/-- The idle stage can always be entered by a process that owes nothing. -/
theorem enters_idle (s : State P) (p : P) : Enters s p .idle where
  stays := by simp [Exits]
  live := by simp
  alone := by simp [Holds]
  making := by simp
  not_ready := by simp
  given := by simp [Given]
  seen := by simp [Seen]
  calling := by simp
  dying := by simp

variable [DecidableEq P]

/-- A process that has no child in the making and owes the root no wakeup can go on. -/
theorem Ok.goto (hs : Ok s) (hk : Enters s p k) (hc : (s.stage p).child = none)
    (ha : s.asleep p → k = .idle)
    (hw : ∀ seen woken, s.stage p = .waking seen woken → s.asleep s.root → ¬ woken s.root →
      ∃ seen' woken', k = .waking seen' woken' ∧ ¬ woken' s.root) : Ok (s.goto p k) := by
  have hpr : ∀ c, s.stage p ≠ .ready c := fun c hp => by simp [hp, child] at hc
  have hkc : ∀ c, k.child = some c → k = .making c := by
    intro c hkc
    cases k with
    | making c' => simpa [child] using hkc
    | ready c' => exact absurd rfl (hk.not_ready c')
    | _ => simp [child] at hkc
  obtain ⟨k₁, k₂, k₃, k₄, k₅, k₆, k₇, k₈, k₉⟩ := hk
  obtain ⟨h₁, h₂, h₃, h₄, h₅, h₆, h₇, h₈, h₉, h₁₀, h₁₁, h₁₂, h₁₃, h₁₄, h₁₅, h₁₆, h₁₇⟩ := hs
  constructor
  all_goals simp only [State.goto_life, State.goto_parent, State.goto_asleep, State.goto_stage,
    State.goto_root, update_apply]
  case root_live => exact h₁
  case root_stays => grind
  case live_of_stage => grind
  case unique => grind
  case parent_vacant => exact h₅
  case parent_making => grind
  case parent_ready => grind
  case parent_draft => grind
  case draft_of_child => grind
  case child_unique => grind
  case parent_live => exact h₁₁
  case given => grind
  case seen => grind
  case asleep => grind
  case calling => grind
  case dying => grind
  case no_lost_wakeup => grind

/-! ## The steps that change more than a stage -/

theorem Ok.setDraft (hs : Ok s) (hc : s.life c = .vacant) :
    Ok { s with life := update s.life c .draft } := by
  have hpc := hs.parent_vacant c hc
  have hci := hs.idle_of_not_live (p := c) (by simp [hc])
  have hna : ¬ s.asleep c := fun ha => by simp [(hs.asleep c ha).1] at hc
  exact { hs with
    root_live := by grind [hs.root_live]
    live_of_stage := by grind [hs.live_of_stage]
    parent_vacant := by grind [hs.parent_vacant]
    parent_draft := by grind [hs.parent_draft]
    draft_of_child := by grind [hs.draft_of_child]
    parent_live := by
      intro d hd hdr
      obtain ⟨q, hq, hl⟩ := hs.parent_live d (by grind) hdr
      exact ⟨q, hq, by grind⟩
    seen := by grind [hs.seen]
    asleep := by grind [hs.asleep]
    no_lost_wakeup := by grind [hs.no_lost_wakeup] }

theorem ok_link (hs : Ok s) (hp : s.stage p = .making c) (hn : s.Free) :
    Ok ({ s with parent := update s.parent c (some p) }.goto p (.ready c)) := by
  have hd := hs.draft_of_child p c (by simp [hp, child])
  have hu : ∀ q, (s.stage q).child = some c → q = p := fun q hq =>
    hs.child_unique q p c hq (by simp [hp, child])
  have hlp := hs.live_of_stage p (by simp [hp])
  have hcp : c ≠ p := by rintro rfl; simp [hlp] at hd
  have hna : ¬ s.asleep p := fun ha => by simp [(hs.asleep p ha).2] at hp
  -- nobody holds the lock, so only creators and idle processes are left
  have hcase : ∀ q, s.stage q = .idle ∨ s.stage q = .leaving ∨ (∃ c, s.stage q = .making c) ∨
      ∃ c, s.stage q = .ready c := by
    intro q
    have := hn q
    cases hq : s.stage q <;> simp [hq, Holds] at this ⊢
  obtain ⟨h₁, h₂, h₃, h₄, h₅, h₆, h₇, h₈, h₉, h₁₀, h₁₁, h₁₂, h₁₃, h₁₄, h₁₅, h₁₆, h₁₇⟩ := hs
  constructor
  all_goals simp only [State.goto_life, State.goto_parent, State.goto_asleep, State.goto_stage,
    State.goto_root, update_apply]
  case root_live => exact h₁
  case root_stays => grind
  case live_of_stage => grind
  case unique => grind
  case parent_vacant => grind
  case parent_making => grind
  case parent_ready => grind
  case parent_draft => grind
  case draft_of_child => grind
  case child_unique => grind
  case parent_live => grind
  case given => grind
  case seen => grind
  case asleep => grind
  case calling => grind
  case dying => grind
  case no_lost_wakeup => grind

theorem ok_publish (hs : Ok s) (hp : s.stage p = .ready c) :
    Ok ({ s with life := update s.life c .live }.goto p .idle) := by
  have hd := hs.draft_of_child p c (by simp [hp, child])
  have hlp := hs.live_of_stage p (by simp [hp])
  have hcp : c ≠ p := by rintro rfl; simp [hlp] at hd
  have hpc := hs.parent_ready p c hp
  have hu : ∀ q, (s.stage q).child = some c → q = p := fun q hq =>
    hs.child_unique q p c hq (by simp [hp, child])
  obtain ⟨h₁, h₂, h₃, h₄, h₅, h₆, h₇, h₈, h₉, h₁₀, h₁₁, h₁₂, h₁₃, h₁₄, h₁₅, h₁₆, h₁₇⟩ := hs
  constructor
  all_goals simp only [State.goto_life, State.goto_parent, State.goto_asleep, State.goto_stage,
    State.goto_root, update_apply] at *
  case root_live => grind
  case root_stays => grind
  case live_of_stage => grind
  case unique => grind
  case parent_vacant => grind
  case parent_making => grind
  case parent_ready => grind
  case parent_draft => grind
  case draft_of_child => grind
  case child_unique => grind
  case parent_live => grind
  case given => grind
  case seen => grind
  case asleep => grind
  case calling => grind
  case dying => grind
  case no_lost_wakeup => grind

theorem ok_give {seen : P → Prop} (hs : Ok s) (hp : s.stage p = .adopting seen)
    (hc : s.parent c = some p) :
    Ok ({ s with parent := update s.parent c (some s.root) }.goto p
      (.waking (add seen c) fun _ => False)) := by
  have hpr := hs.root_stays p (by simp [hp, Exits])
  have hlp := hs.live_of_stage p (by simp [hp])
  have hna : ¬ s.asleep p := fun ha => by simp [(hs.asleep p ha).2] at hp
  have hg := fun c => hs.given p c
  have hu : ∀ q, (s.stage q).Holds → q = p := fun q hq =>
    hs.unique q p hq (by simp [hp, Holds])
  -- the other processes are idle or create a child
  have hcase : ∀ q, q ≠ p → s.stage q = .idle ∨ s.stage q = .leaving ∨
      (∃ c, s.stage q = .making c) ∨ ∃ c, s.stage q = .ready c := by
    intro q hq
    have := mt (hu q) hq
    cases hq : s.stage q <;> simp [hq, Holds] at this ⊢
  rw [hp] at hg
  obtain ⟨h₁, h₂, h₃, h₄, h₅, h₆, h₇, h₈, h₉, h₁₀, h₁₁, h₁₂, h₁₃, h₁₄, h₁₅, h₁₆, h₁₇⟩ := hs
  constructor
  all_goals simp only [State.goto_life, State.goto_parent, State.goto_asleep, State.goto_stage,
    State.goto_root, update_apply] at *
  case root_live => exact h₁
  case root_stays => grind
  case live_of_stage => grind
  case unique => grind
  case parent_vacant => grind
  case parent_making => grind
  case parent_ready => grind
  case parent_draft => grind
  case draft_of_child => grind
  case child_unique => grind
  case parent_live => grind
  case given => grind [add]
  case seen => grind
  case asleep => grind
  case calling => grind
  case dying => grind
  case no_lost_wakeup =>
    intro q d hq hd hqd
    exact ⟨by grind, p, add seen c, fun _ => False, by simp, by simp⟩

/-- A process without children whose parent is awake can become a zombie. -/
theorem Ok.setZombie (hs : Ok s) (hn : s.Free) (hp : s.stage p = .idle)
    (hl : s.life p = .live) (hr : p ≠ s.root) (ha : ¬ s.asleep p)
    (hch : ∀ c, s.parent c ≠ some p) (hpar : ∀ q, s.parent p = some q → ¬ s.asleep q) :
    Ok { s with life := update s.life p .zombie } := by
  have hseen : ∀ q c, ¬ (s.stage q).Seen c := fun q c hq => by
    have := hn q
    cases hst : s.stage q <;> simp_all [Seen, Holds]
  exact { hs with
    root_live := by grind [hs.root_live]
    live_of_stage := by grind [hs.live_of_stage]
    parent_vacant := by grind [hs.parent_vacant]
    parent_draft := by grind [hs.parent_draft]
    draft_of_child := by grind [hs.draft_of_child]
    parent_live := by
      intro d hd hdr
      obtain ⟨q, hq, hl⟩ := hs.parent_live d (by grind) hdr
      exact ⟨q, hq, by grind⟩
    seen := fun q c hq => absurd hq (hseen q c)
    asleep := by grind [hs.asleep]
    no_lost_wakeup := by grind [hs.no_lost_wakeup] }

/-- A zombie can be removed. -/
theorem Ok.setVacant (hs : Ok s) (hc : s.life c = .zombie) :
    Ok { s with
      life := update s.life c .vacant
      parent := update s.parent c none } := by
  have hci := hs.idle_of_not_live (p := c) (by simp [hc])
  have hna : ¬ s.asleep c := fun ha => by simp [(hs.asleep c ha).1] at hc
  have hnc : ∀ p, (s.stage p).child ≠ some c := fun p hp => by
    simp [hs.draft_of_child p c hp] at hc
  exact { hs with
    root_live := by grind [hs.root_live]
    live_of_stage := by grind [hs.live_of_stage]
    parent_vacant := by grind [hs.parent_vacant]
    parent_making := by grind [hs.parent_making]
    parent_ready := by
      intro p d (hp : s.stage p = .ready d)
      have hdc : d ≠ c := by rintro rfl; exact hnc p (by simp [hp, child])
      simpa [hdc] using hs.parent_ready p d hp
    parent_draft := by grind [hs.parent_draft]
    draft_of_child := by grind [hs.draft_of_child]
    parent_live := by
      intro d hd hdr
      have hdc : d ≠ c := by rintro rfl; simp at hd
      obtain ⟨q, hq, hl⟩ := hs.parent_live d (by simpa [hdc] using hd) hdr
      exact ⟨q, by simpa [hdc] using hq, by grind⟩
    given := by grind [hs.given]
    seen := by grind [hs.seen]
    asleep := by grind [hs.asleep]
    calling := by grind [hs.calling]
    dying := by grind [hs.dying]
    no_lost_wakeup := by grind [hs.no_lost_wakeup] }

/-- The end of a section: nobody holds the lock any more. -/
theorem Ok.leave (hs : Ok s) (hp : (s.stage p).Holds)
    (hw : ∀ seen woken, s.stage p ≠ .waking seen woken) :
    Ok (s.goto p .idle) ∧ (s.goto p .idle).Free := by
  have hc : (s.stage p).child = none := by
    cases hst : s.stage p <;> simp_all [child, Holds]
  refine ⟨hs.goto (enters_idle s p) hc (fun _ => rfl) fun seen woken h => absurd h (hw _ _), ?_⟩
  intro q hq
  by_cases hqp : q = p
  · simp [hqp, Holds] at hq
  · simp only [State.goto_stage, update_of_ne hqp] at hq
    exact hqp (hs.unique q p hq hp)

theorem ok_die (hs : Ok s) (hp : s.stage p = .dying) :
    Ok ({ s with life := update s.life p .zombie }.goto p .idle) := by
  have hna : ¬ s.asleep p := fun ha => by simp [(hs.asleep p ha).2] at hp
  obtain ⟨hok, hn⟩ := hs.leave (p := p) (by simp [hp, Holds]) (by simp [hp])
  exact hok.setZombie hn (by simp) (hs.live_of_stage p (by simp [hp]))
    (hs.root_stays p (by simp [hp, Exits])) hna
    (fun c => hs.given p c (by simp [hp, Given])) (fun q => hs.dying p q hp)

theorem ok_rest (hs : Ok s) (hp : s.stage p = .resting) :
    Ok ({ s with asleep := fun x => s.asleep x ∨ x = p }.goto p .idle) := by
  obtain ⟨hok, hn⟩ := hs.leave (p := p) (by simp [hp, Holds]) (by simp [hp])
  exact hok.setAsleep hn (by simp) (hs.live_of_stage p (by simp [hp]))
    fun c => hs.seen p c (by simp [hp, Seen])

/-- Going on inside a section of the lock. -/
theorem Ok.go (hs : Ok s) (hp : (s.stage p).Holds) (hk : k.Holds)
    (hr : k.Exits → (s.stage p).Exits) (hg : ∀ c, k.Given c → s.parent c ≠ some p)
    (hz : ∀ c, k.Seen c → s.parent c = some p → s.life c ≠ .zombie)
    (hc : ∀ o woken, k = .calling o woken →
      o = s.parent p ∧ ∀ q, o = some q → woken q → ¬ s.asleep q)
    (hd : ∀ q, k = .dying → s.parent p = some q → ¬ s.asleep q)
    (hw : ∀ seen woken, s.stage p = .waking seen woken → s.asleep s.root → ¬ woken s.root →
      ∃ seen' woken', k = .waking seen' woken' ∧ ¬ woken' s.root) : Ok (s.goto p k) := by
  have hpi : s.stage p ≠ .idle := fun h => by simp [h, Holds] at hp
  refine hs.goto ⟨fun h => hs.root_stays p (hr h), fun _ => hs.live_of_stage p hpi,
    fun _ q hq => hs.unique q p hq hp, ?_, ?_, hg, hz, hc, hd⟩ ?_ ?_ hw
  · rintro c rfl
    exact hk.elim
  · rintro c rfl
    exact hk.elim
  · cases hst : s.stage p <;> simp_all [child, Holds]
  · exact fun ha => absurd (hs.asleep p ha).2 hpi

/-- Beginning an exit or a wait. -/
theorem Ok.enter (hs : Ok s) (hp : s.stage p = .idle ∨ s.stage p = .leaving)
    (hl : s.life p = .live) (ha : ¬ s.asleep p) (hn : k.Holds → s.Free)
    (hr : k.Exits → p ≠ s.root)
    (hk : k = .leaving ∨ k = .adopting (fun _ => False) ∨ k = .scanning fun _ => False) :
    Ok (s.goto p k) := by
  refine hs.goto ⟨hr, fun _ => hl, fun h q hq => absurd hq (hn h q), ?_, ?_, ?_, ?_, ?_, ?_⟩ ?_
    (fun h => absurd h ha) ?_
  · rintro c rfl
    simp at hk
  · rintro c rfl
    simp at hk
  · rcases hk with rfl | rfl | rfl <;> simp [Given]
  · rcases hk with rfl | rfl | rfl <;> simp [Seen]
  · rintro o woken rfl
    simp at hk
  · rintro q rfl
    simp at hk
  · rcases hp with hp | hp <;> simp [hp, child]
  · rcases hp with hp | hp <;> simp [hp]

/-- **One step keeps the invariant.** -/
theorem Move.ok (m : Move s s') (hs : Ok s) : Ok s' := by
  cases m with
  | stay => exact hs
  | wake q => exact hs.wake fun x hx => hx.1
  | claim p c hp hl ha hc =>
    have hcp : c ≠ p := by rintro rfl; simp [hl] at hc
    have hnc : ∀ q, (s.stage q).child ≠ some c := fun q hq => by
      simp [hs.draft_of_child q c hq] at hc
    refine (hs.setDraft hc).goto ⟨by simp [Exits], fun _ => ?_, by simp [Holds], ?_,
      by simp, by simp [Given], by simp [Seen], by simp, by simp⟩
      (by simp [hp, child]) (fun h => absurd h ha) (by simp [hp])
    · simpa [hcp.symm] using hl
    · rintro _ ⟨⟩
      exact ⟨by simp, hs.parent_vacant c hc, hnc⟩
  | link p c hp hh => exact ok_link hs hp hh
  | publish p c hp => exact ok_publish hs hp
  | exit p hp hl hr ha =>
    exact hs.enter (.inl hp) hl ha (by simp [Holds]) (fun _ => hr) (.inl rfl)
  | lockExit p hp hn =>
    have ha : ¬ s.asleep p := fun ha => by simp [(hs.asleep p ha).2] at hp
    exact hs.enter (.inr hp) (hs.live_of_stage p (by simp [hp])) ha (fun _ => hn)
      (fun _ => hs.root_stays p (by simp [hp, Exits])) (.inr (.inl rfl))
  | skip p c seen hp hc =>
    refine hs.go (by simp [hp, Holds]) trivial (by simp [hp, Exits]) ?_
      (by simp [Seen]) (by simp) (by simp) (by simp [hp])
    rintro d (hd | rfl)
    · exact hs.given p d (by simpa [hp, Given] using hd)
    · exact hc
  | give p c seen hp hc => exact ok_give hs hp hc
  | wakeRoot p q seen woken hp =>
    refine (hs.wake fun x hx => hx.1).go (by simp [hp, Holds]) trivial
      (by simp [hp, Exits]) ?_ (by simp [Seen]) (by simp) (by simp) ?_
    · exact fun d hd => hs.given p d (by simpa [hp, Given] using hd)
    · rintro seen' woken' h hroot hw
      obtain ⟨rfl, rfl⟩ : seen = seen' ∧ woken = woken' := by simpa using hp.symm.trans h
      exact ⟨_, _, rfl, not_or.2 ⟨hw, hroot.2 rfl⟩⟩
  | wokenRoot p seen woken hp hw =>
    refine hs.go (by simp [hp, Holds]) trivial (by simp [hp, Exits]) ?_
      (by simp [Seen]) (by simp) (by simp) ?_
    · exact fun d hd => hs.given p d (by simpa [hp, Given] using hd)
    · rintro seen' woken' h - hw'
      obtain ⟨rfl, rfl⟩ : seen = seen' ∧ woken = woken' := by simpa using hp.symm.trans h
      exact absurd (hw _) hw'
  | given p seen hp hc =>
    refine hs.go (by simp [hp, Holds]) trivial (by simp [hp, Exits]) ?_
      (by simp [Seen]) ?_ (by simp) (by simp [hp])
    · exact fun d _ => hs.given p d (by simpa [hp, Given] using hc d)
    · rintro o woken ⟨⟩
      exact ⟨rfl, fun _ _ h => h.elim⟩
  | call p q o woken hp =>
    obtain ⟨ho, hw⟩ := hs.calling p o woken hp
    refine (hs.wake fun x hx => hx.1).go (by simp [hp, Holds]) trivial
      (by simp [hp, Exits]) ?_ (by simp [Seen]) ?_ (by simp) (by simp [hp])
    · exact fun d _ => hs.given p d (by simp [hp, Given])
    · rintro _ _ ⟨⟩
      refine ⟨ho, ?_⟩
      rintro r hr (hwr | rfl) ⟨har, hrq⟩
      · exact hw r hr hwr har
      · exact hrq hr rfl
  | called p o woken hp hw =>
    obtain ⟨ho, hwo⟩ := hs.calling p o woken hp
    refine hs.go (by simp [hp, Holds]) trivial (by simp [hp, Exits]) ?_
      (by simp [Seen]) (by simp) ?_ (by simp [hp])
    · exact fun d _ => hs.given p d (by simp [hp, Given])
    · exact fun q _ hq => hwo q (ho.trans hq) (hw q)
  | die p hp => exact ok_die hs hp
  | lockWait p hp hl ha hn =>
    exact hs.enter (.inl hp) hl ha (fun _ => hn) (by simp [Exits]) (.inr (.inr rfl))
  | look p c seen hp hc =>
    refine hs.go (by simp [hp, Holds]) trivial (by simp [Exits])
      (by simp [Given]) ?_ (by simp) (by simp) (by simp [hp])
    rintro d (hd | rfl)
    · exact hs.seen p d (by simpa [hp, Seen] using hd)
    · exact hc
  | reap p c seen hp hc hz =>
    exact (hs.leave (by simp [hp, Holds]) (by simp [hp])).1.setVacant hz
  | giveUp p seen hp => exact (hs.leave (by simp [hp, Holds]) (by simp [hp])).1
  | commit p seen hp hc =>
    refine hs.go (by simp [hp, Holds]) trivial (by simp [Exits])
      (by simp [Given]) ?_ (by simp) (by simp) (by simp [hp])
    exact fun d _ => hs.seen p d (by simpa [hp, Seen] using hc d)
  | rest p hp => exact ok_rest hs hp

end Kinship
