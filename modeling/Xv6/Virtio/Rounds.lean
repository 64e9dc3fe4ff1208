import Xv6.Virtio.Protocol

/-!
# Rounds of a request

For each head the events of a run are rounds of `start`, `publish`, `report`, `clear` and `finish`, all
for one buffer: each request is reported once after its publication, and the handler clears the flag of
its buffer once, for this report.
-/

namespace Xv6

open DiskSys Function VirtqRing Option

variable {β : Type} [DecidableEq β] {s s' : DiskSys β} {es : List (DiskEvent β)}

/-- How far the request with a given head has come. -/
inductive Phase (β : Type)
  | idle
  | started (b : β)
  | published (b : β)
  | reported (b : β)
  | cleared (b : β)

def DiskEvent.head : DiskEvent β → ℕ
  | .start _ h => h
  | .publish _ h => h
  | .report h => h
  | .clear _ h => h
  | .finish _ h => h

/-- The events of one head come in rounds, each for one buffer. -/
def Phase.next : Phase β → DiskEvent β → Option (Phase β)
  | .idle, .start b _ => some (.started b)
  | .started b, .publish b' _ => if b' = b then some (.published b) else none
  | .published b, .report _ => some (.reported b)
  | .reported b, .clear b' _ => if b' = b then some (.cleared b) else none
  | .cleared b, .finish b' _ => if b' = b then some .idle else none
  | _, _ => none

/-- The phase of the head `h` after the events of a run; `none` if they do not come in rounds. -/
def rounds (h : ℕ) (tr : List (DiskEvent β)) : Option (Phase β) :=
  (tr.filter (·.head = h)).foldlM Phase.next .idle

/-- The phase that belongs to a state. -/
def DiskSys.Stage (s : DiskSys β) (h : ℕ) : Phase β → Prop
  | .idle => ∀ b t, s.chains b = some t → t.i0 ≠ h
  | .started b => ∃ t, s.chains b = some t ∧ t.i0 = h ∧ (s.pc b).posted = false
  | .published b => ∃ t, s.chains b = some t ∧ t.i0 = h ∧ (s.pc b).posted = true ∧ s.disk b = true ∧
      h ∈ s.toRead ++ s.busy
  | .reported b => ∃ t, s.chains b = some t ∧ t.i0 = h ∧ (s.pc b).posted = true ∧ s.disk b = true ∧
      h ∈ s.toClear
  | .cleared b => ∃ t, s.chains b = some t ∧ t.i0 = h ∧ (s.pc b).posted = true ∧ s.disk b = false

namespace DiskSys.Stage

variable {h : ℕ} {φ : Phase β} {b : β} {t : DescChain}

omit [DecidableEq β] in
/-- A change that does not concern the head `h`. -/
theorem frame (hs : s.Stage h φ)
    (hc : ∀ b t, t.i0 = h → (s'.chains b = some t ↔ s.chains b = some t))
    (hp : ∀ b t, s.chains b = some t → t.i0 = h →
      (s'.pc b).posted = (s.pc b).posted ∧ s'.disk b = s.disk b)
    (hr : h ∈ s.toRead ++ s.busy → h ∈ s'.toRead ++ s'.busy)
    (hu : h ∈ s.toClear → h ∈ s'.toClear) : s'.Stage h φ := by
  cases φ with
  | idle => exact fun b t hb e => hs b t ((hc b t e).1 hb) e
  | started b =>
    obtain ⟨t, hb, e, h₁⟩ := hs
    exact ⟨t, (hc b t e).2 hb, e, (hp b t hb e).1.trans h₁⟩
  | published b =>
    obtain ⟨t, hb, e, h₁, h₂, h₃⟩ := hs
    exact ⟨t, (hc b t e).2 hb, e, (hp b t hb e).1.trans h₁, (hp b t hb e).2.trans h₂, hr h₃⟩
  | reported b =>
    obtain ⟨t, hb, e, h₁, h₂, h₃⟩ := hs
    exact ⟨t, (hc b t e).2 hb, e, (hp b t hb e).1.trans h₁, (hp b t hb e).2.trans h₂, hu h₃⟩
  | cleared b =>
    obtain ⟨t, hb, e, h₁, h₂⟩ := hs
    exact ⟨t, (hc b t e).2 hb, e, (hp b t hb e).1.trans h₁, (hp b t hb e).2.trans h₂⟩

omit [DecidableEq β] in
/-- The phase of the head of a request in flight. -/
theorem of_chain (hs : s.Stage h φ) (g : s.Good) (hb : s.chains b = some t) (he : t.i0 = h) :
    (φ = .started b ∧ (s.pc b).posted = false) ∨
    (φ = .published b ∧ (s.pc b).posted = true ∧ s.disk b = true ∧ h ∈ s.toRead ++ s.busy) ∨
    (φ = .reported b ∧ (s.pc b).posted = true ∧ s.disk b = true ∧ h ∈ s.toClear) ∨
    (φ = .cleared b ∧ (s.pc b).posted = true ∧ s.disk b = false) := by
  have inj : ∀ b' t', s.chains b' = some t' → t'.i0 = h → b' = b := fun b' t' hb' he' =>
    g.held.head_inj hb' hb (he'.trans he.symm)
  cases φ with
  | idle => exact absurd he (hs b t hb)
  | started b' =>
    obtain ⟨t', hb', he', h₁⟩ := hs
    obtain rfl := inj b' t' hb' he'
    exact Or.inl ⟨rfl, h₁⟩
  | published b' =>
    obtain ⟨t', hb', he', h₁⟩ := hs
    obtain rfl := inj b' t' hb' he'
    exact Or.inr (Or.inl ⟨rfl, h₁⟩)
  | reported b' =>
    obtain ⟨t', hb', he', h₁⟩ := hs
    obtain rfl := inj b' t' hb' he'
    exact Or.inr (Or.inr (Or.inl ⟨rfl, h₁⟩))
  | cleared b' =>
    obtain ⟨t', hb', he', h₁⟩ := hs
    obtain rfl := inj b' t' hb' he'
    exact Or.inr (Or.inr (Or.inr ⟨rfl, h₁⟩))

/-- A process moves with its chain. -/
theorem walk (hs : s.Stage h φ) {k k' : RwPc} (hb : s.pc b = k) (hpc : s'.pc = update s.pc b k')
    (hc : k'.chain = k.chain) (hp : k'.posted = k.posted) (hd : s'.disk = s.disk)
    (hr : h ∈ s.toRead ++ s.busy → h ∈ s'.toRead ++ s'.busy) (hu : h ∈ s.toClear → h ∈ s'.toClear) :
    s'.Stage h φ := by
  subst hb
  refine hs.frame (fun b' t _ => ?_) (fun b' _ _ _ => ⟨?_, by rw [hd]⟩) hr hu
  · rw [← chains_update hc b', chains, hpc]
  · rw [hpc, posted_update hp b']

omit [DecidableEq β] in
/-- Another head belongs to another process. -/
theorem ne_of_head {b' : β} {t' : DescChain} (hb : s.chains b = some t) (he : t.i0 ≠ h)
    (hb' : s.chains b' = some t') (e' : t'.i0 = h) : b' ≠ b := by
  rintro rfl
  rw [hb] at hb'
  exact he (some.inj hb' ▸ e')

omit [DecidableEq β] in
/-- A head without a request is idle. -/
theorem eq_idle (hs : s.Stage h φ) (hn : ∀ b t, s.chains b = some t → t.i0 ≠ h) : φ = .idle := by
  cases φ with
  | idle => rfl
  | started b | published b | reported b | cleared b =>
    obtain ⟨t, hb, he, -⟩ := hs
    exact absurd he (hn b t hb)

end DiskSys.Stage

/-- A step whose events are not about the head `h`. -/
theorem Phase.skip {h : ℕ} {φ : Phase β} {e : DiskEvent β} (he : e.head ≠ h) :
    ([e].filter (·.head = h)).foldlM Phase.next φ = some φ := by
  simp [he]

theorem Phase.one {h : ℕ} {φ φ' : Phase β} {e : DiskEvent β} (he : e.head = h)
    (hn : φ.next e = some φ') : ([e].filter (·.head = h)).foldlM Phase.next φ = some φ' := by
  simp [he, hn]

/-- **One step** moves the phase of a head as its events say. -/
theorem DiskStep.stage (st : DiskStep s es s') (g : s.Good) {h : ℕ} {φ : Phase β} (hs : s.Stage h φ) :
    ∃ φ', (es.filter (·.head = h)).foldlM Phase.next φ = some φ' ∧ s'.Stage h φ' := by
  cases st with
  | call _ _ hb | sleep hb _ | wake hb _ => exact ⟨φ, rfl, hs.walk hb rfl rfl rfl rfl id id⟩
  | full _ _ ha =>
    rcases s.d.alloc3Desc_spec with ⟨t, e, -⟩ | ⟨d', e, -, -, h₃, h₄, h₅, -⟩
    · rw [e] at ha
      simp at ha
    · rw [e] at ha
      simp only [Except.ok.injEq, Prod.mk.injEq, true_and] at ha
      subst ha
      refine ⟨φ, rfl, hs.frame (fun _ _ _ => Iff.rfl) (fun _ _ _ _ => ⟨rfl, rfl⟩) ?_ ?_⟩
      · simp only [toRead, h₃]
        exact id
      · simp only [toClear, h₄, h₅]
        exact id
  | allocPanic _ _ _ | finishPanic _ _ _ | intrStatus _ _ _ | intrNull _ _ _ => exact ⟨φ, rfl, hs⟩
  | @start b write t d hb _ ha =>
    rcases s.d.alloc3Desc_spec with ⟨t', e, ht, hf⟩ | ⟨d', e, -⟩
    · rw [e] at ha
      simp only [Except.ok.injEq, Prod.mk.injEq, some.injEq] at ha
      obtain ⟨rfl, rfl⟩ := ha
      have hcb : s.chains b = none := by
        rw [chains, hb]
        rfl
      -- no request in flight has the head of the new one
      have hnew : ∀ b' t₁, s.chains b' = some t₁ → t₁.i0 ≠ t'.i0 := fun b' t₁ hb' e' => by
        have := (g.held.free t'.i0).2 ⟨b', t₁, hb', e' ▸ t₁.head_mem⟩
        rw [hf _ t'.head_mem] at this
        exact absurd this (by decide)
      by_cases he : t'.i0 = h
      · subst he
        obtain rfl := hs.eq_idle hnew
        exact ⟨.started b, Phase.one rfl rfl, t', by simp [chains, RwPc.chain], rfl,
          by simp [RwPc.posted]⟩
      · refine ⟨φ, Phase.skip he, hs.frame (fun b' t₁ e₁ => ?_) (fun b' t₁ hb' _ => ?_) id id⟩
        · by_cases eb : b' = b
          · subst eb
            rw [hcb]
            simp only [chains, update_self, RwPc.chain, some.injEq, reduceCtorEq,
              iff_false]
            exact fun e₂ => he (e₂ ▸ e₁)
          · simp [chains, eb]
        · have eb : b' ≠ b := fun eb => by
            rw [eb, hcb] at hb'
            exact absurd hb' (by simp)
          simp [eb]
    · rw [e] at ha
      simp at ha
  | @ring b t hb =>
    have hroom := g.toRead_room (b := b) (t := t) (by rw [chains, hb]; rfl) (by rw [hb]; rfl)
    have hw : (s.d.avail.put t.i0).window s.seen = s.d.avail.window s.seen :=
      window_put g.flow.seen g.flow.avail hroom
    refine ⟨φ, rfl, hs.walk hb rfl rfl rfl rfl ?_ id⟩
    simp only [toRead, hw]
    exact id
  | @publish b t hb =>
    have hcb : s.chains b = some t := by
      rw [chains, hb]
      rfl
    have hc : (RwPc.test t).chain = (s.pc b).chain := by
      rw [hb]
      rfl
    have hn : (s.pc b).posted = false := by
      rw [hb]
      rfl
    have hw : s.d.avail.bump.window s.seen = s.d.avail.window s.seen ++ [t.i0] := by
      rw [window_bump g.flow.seen g.flow.avail (g.toRead_room hcb hn), g.ringed b t hb]
    by_cases he : t.i0 = h
    · obtain ⟨rfl, -⟩ | ⟨-, hp, -⟩ | ⟨-, hp, -⟩ | ⟨-, hp, -⟩ := hs.of_chain g hcb he
      · refine ⟨.published b, Phase.one he (by simp [Phase.next]), t,
          (chains_update hc b).trans hcb, he, by simp [RwPc.posted], g.fresh b t hcb hn, ?_⟩
        simp only [toRead, hw, he]
        simp
      · exact absurd (hn.symm.trans hp) (by decide)
      · exact absurd (hn.symm.trans hp) (by decide)
      · exact absurd (hn.symm.trans hp) (by decide)
    · refine ⟨φ, Phase.skip he, hs.frame (fun b' t' _ => by rw [← chains_update hc b']; rfl)
        (fun b' t' hb' e' => ?_) (fun hm => ?_) id⟩
      · simp [Stage.ne_of_head hcb he hb' e']
      · simp only [toRead, hw]
        rcases List.mem_append.1 hm with hm | hm
        · exact List.mem_append_left _ (List.mem_append_left _ hm)
        · exact List.mem_append_right _ hm
  | @finish b t d hb hd ha =>
    obtain ⟨d', e, hf⟩ := g.freeChain hb
    obtain rfl := Except.ok.inj (e.symm.trans ha)
    have hcb : s.chains b = some t := by
      rw [chains, hb]
      rfl
    by_cases he : t.i0 = h
    · obtain ⟨-, hp⟩ | ⟨-, -, hp, -⟩ | ⟨-, -, hp, -⟩ | ⟨rfl, -⟩ := hs.of_chain g hcb he
      · rw [hb] at hp
        exact absurd hp (by simp [RwPc.posted])
      · exact absurd (hd.symm.trans hp) (by decide)
      · exact absurd (hd.symm.trans hp) (by decide)
      · refine ⟨.idle, Phase.one he (by simp [Phase.next]), fun b' t' hb' e' => ?_⟩
        by_cases eb : b' = b
        · subst eb
          simp [chains, RwPc.chain] at hb'
        · exact eb (g.held.head_inj (by simpa [chains, eb] using hb') hcb (e'.trans he.symm))
    · refine ⟨φ, Phase.skip he, hs.frame (fun b' t' e' => ?_) (fun b' t' hb' e' => ?_) ?_ ?_⟩
      · by_cases eb : b' = b
        · subst eb
          rw [hcb]
          simp only [chains, update_self, RwPc.chain, reduceCtorEq, some.injEq,
            false_iff]
          exact fun e₂ => he (e₂ ▸ e')
        · simp [chains, eb]
      · simp [Stage.ne_of_head hcb he hb' e']
      · simp only [toRead, hf.avail]
        exact id
      · simp only [toClear, hf.used, hf.usedIdx]
        exact id
  | intrEnter _ | intrLeave _ _ =>
    exact ⟨φ, rfl, hs.frame (fun _ _ _ => Iff.rfl) (fun _ _ _ _ => ⟨rfl, rfl⟩) id id⟩
  | @intrNext b _ hne _ hb =>
    obtain ⟨b₀, t, hcb, hp, hd, he, hb₀, -, hw⟩ := g.usedId_spec hne
    obtain rfl : b₀ = b := some.inj (hb₀.symm.trans hb)
    by_cases hh : s.d.usedId = h
    · have hm : h ∈ s.toClear := by
        rw [hw, hh]
        exact List.mem_cons_self
      obtain ⟨-, hp'⟩ | ⟨-, -, -, hr⟩ | ⟨rfl, -⟩ | ⟨-, -, hd'⟩ := hs.of_chain g hcb (he.trans hh)
      · exact absurd (hp'.symm.trans hp) (by decide)
      · -- a head is underway once
        have hn := g.flow.nodup
        rw [underway, ← List.append_assoc] at hn
        exact absurd rfl ((List.nodup_append.1 hn).2.2 h hr h hm)
      · exact ⟨.cleared b₀, Phase.one hh (by simp [Phase.next]), t, hcb, he.trans hh, hp, by simp⟩
      · exact absurd (hd'.symm.trans hd) (by decide)
    · refine ⟨φ, Phase.skip hh, hs.frame (fun _ _ _ => Iff.rfl) (fun b' t' hb' e' => ?_) id
        fun hm => ?_⟩
      · simp [Stage.ne_of_head hcb (he ▸ hh) hb' e']
      · rw [hw] at hm
        rcases List.mem_cons.1 hm with hm | hm
        · exact absurd hm.symm hh
        · exact hm
  | fetch hne =>
    have hw : s.toRead = s.d.avail.get s.seen :: s.d.avail.window ((s.seen + 1) % IDXS) :=
      window_cons g.flow.seen g.flow.avail hne
    refine ⟨φ, rfl, hs.frame (fun _ _ _ => Iff.rfl) (fun _ _ _ _ => ⟨rfl, rfl⟩) (fun hm => ?_) id⟩
    rw [hw, List.cons_append] at hm
    exact (List.perm_middle.mem_iff).2 hm
  | @complete h' i hh ha =>
    rw [g.statusAddr hh] at ha
    obtain rfl := DescAddr.status.inj ha
    have hroom := g.toClear_room hh
    have hput : (s.d.used.put h').window s.d.usedIdx = s.d.used.window s.d.usedIdx :=
      window_put g.flow.usedIdx g.flow.used hroom
    have hw : (s.d.used.put h').bump.window s.d.usedIdx = s.toClear ++ [h'] := by
      have hb := window_bump (r := s.d.used.put h') g.flow.usedIdx g.flow.used
        (by rw [hput]; exact hroom)
      rw [hb, hput]
      exact congrArg (s.toClear ++ [·]) (get_put _ _)
    have hm : ∀ j, j ∈ s.toClear ++ [h'] → j ∈ ({ s with
        d := { s.d.setStatus h' with used := (s.d.used.put h').bump }
        busy := s.busy.erase h' } : DiskSys β).toClear := fun j hj => by
      rw [← hw] at hj
      exact hj
    by_cases he : h' = h
    · subst he
      obtain ⟨b, t, hcb, hp, hd, e'⟩ := (g.flow.mem h').1
        (List.mem_append_right _ (List.mem_append_left _ hh))
      have hn := (List.nodup_append.1 (List.nodup_append.1 g.flow.nodup).2.1).2.2
      obtain ⟨-, hp'⟩ | ⟨rfl, -⟩ | ⟨-, -, -, hc⟩ | ⟨-, -, hd'⟩ := hs.of_chain g hcb e'
      · exact absurd (hp'.symm.trans hp) (by decide)
      · exact ⟨.reported b, Phase.one rfl rfl, t, hcb, e', hp, hd, hm h' (by simp)⟩
      · exact absurd rfl (hn h' hh h' hc)
      · exact absurd (hd'.symm.trans hd) (by decide)
    · refine ⟨φ, Phase.skip he, hs.frame (fun _ _ _ => Iff.rfl) (fun _ _ _ _ => ⟨rfl, rfl⟩)
        (fun hm' => ?_) fun hc => hm h (List.mem_append_left _ hc)⟩
      rcases List.mem_append.1 hm' with hm' | hm'
      · exact List.mem_append_left _ hm'
      · exact List.mem_append_right _ ((List.mem_erase_of_ne (Ne.symm he)).2 hm')

/-- `b->disk` goes from 1 to 0 only in the handler, for the head of the request on `b`. -/
theorem DiskStep.clears (st : DiskStep s es s') (g : s.Good) {b : β} (h₁ : s.disk b = true)
    (h₂ : s'.disk b = false) : ∃ t, s.chains b = some t ∧ es = [.clear b t.i0] := by
  have same : s'.disk = s.disk → ∃ t, s.chains b = some t ∧ es = [.clear b t.i0] := fun e => by
    rw [e] at h₂
    exact absurd (h₁.symm.trans h₂) (by decide)
  cases st with
  | @start b' write t d _ _ _ =>
    by_cases e : b = b'
    · subst e
      simp at h₂
    · exact absurd (h₁.symm.trans (by simpa [e] using h₂)) (by decide)
  | @intrNext b' _ hne _ hb =>
    obtain ⟨b₀, t, hcb, -, -, he, hb₀, -⟩ := g.usedId_spec hne
    obtain rfl : b₀ = b' := some.inj (hb₀.symm.trans hb)
    by_cases e : b = b₀
    · subst e
      exact ⟨t, hcb, by rw [he]⟩
    · exact absurd (h₁.symm.trans (by simpa [e] using h₂)) (by decide)
  | _ => exact same rfl

/-- The invariant of a run: the state is good, and the events of every head come in rounds. -/
theorem DiskSys.run_good {tr : List (DiskEvent β)} (hr : Trans.Run DiskStep .init tr s) :
    s.Good ∧ ∀ h, ∃ φ, rounds h tr = some φ ∧ s.Stage h φ := by
  refine hr.invariant (I := fun tr s => s.Good ∧ ∀ h, ∃ φ, rounds h tr = some φ ∧ s.Stage h φ)
    ⟨good_init, fun h => ⟨.idle, rfl, fun b t hb => absurd hb (by simp [chains_init])⟩⟩
    fun tr s es s' hi st => ⟨st.good hi.1, fun h => ?_⟩
  obtain ⟨φ, hφ, hs⟩ := hi.2 h
  obtain ⟨φ', hφ', hs'⟩ := st.stage hi.1 hs
  refine ⟨φ', ?_, hs'⟩
  rw [rounds, List.filter_append, List.foldlM_append]
  rw [rounds] at hφ
  rw [hφ]
  exact hφ'

/-- **The request protocol.** In every reachable state the descriptors are divided into the free ones and
disjoint chains of three for the requests in flight; a failure of `alloc3_desc` leaves the same
descriptors free; the driver has met no panic, null pointer or endless loop; the flag of a buffer goes
from 1 to 0 only for the head of its own request; and for each head the events have come in rounds, so
that a request is cleared once, after its report. -/
theorem virtio_protocol {tr : List (DiskEvent β)} (hr : Trans.Run DiskStep .init tr s) :
    (∀ i, s.d.free i = false ↔ ∃ b t, (s.pc b).chain = some t ∧ i ∈ t.members) ∧
    (∀ b t, (s.pc b).chain = some t → t.Proper ∧ s.d.Linked t) ∧
    (∀ b b' t t', (s.pc b).chain = some t → (s.pc b').chain = some t' → b ≠ b' →
      t.members.Disjoint t'.members) ∧
    (∀ d, s.d.alloc3Desc = .ok (none, d) → d.free = s.d.free) ∧
    s.dead = none ∧
    (∀ es s' b, DiskStep s es s' → s.disk b = true → s'.disk b = false →
      ∃ t, (s.pc b).chain = some t ∧ es = [.clear b t.i0]) ∧
    ∀ h, (rounds h tr).isSome = true := by
  obtain ⟨g, hrounds⟩ := run_good hr
  refine ⟨g.held.free, fun b t hb => ⟨g.held.proper b t hb, g.held.linked b t hb⟩, g.held.disjoint,
    fun d hd => ?_, g.dead, fun es s' b st h₁ h₂ => st.clears g h₁ h₂, fun h => ?_⟩
  · rcases s.d.alloc3Desc_spec with ⟨t, e, -⟩ | ⟨d', e, hf, -⟩
    · rw [e] at hd
      simp at hd
    · rw [e] at hd
      simp only [Except.ok.injEq, Prod.mk.injEq, true_and] at hd
      exact hd ▸ hf
  · obtain ⟨φ, hφ, -⟩ := hrounds h
    rw [hφ]
    rfl

/-- A request is filled in, published, reported by the device, cleared by the handler and returns. -/
theorem virtio_protocol_one_request :
    let tr : List (DiskEvent ℕ) := [.start 7 0, .publish 7 0, .report 0, .clear 7 0, .finish 7 0]
    ∃ s, Trans.Run DiskStep .init tr s ∧ s.disk 7 = false ∧ s.d.usedIdx = 1 ∧ s.dead = none ∧
      ∀ h, (rounds h tr).isSome = true := by
  intro tr
  have hr := (Trans.Run.refl : Trans.Run DiskStep (.init : DiskSys ℕ) [] _)
    |>.tail (@DiskStep.call _ _ _ 7 false rfl)
    |>.tail (@DiskStep.start _ _ _ 7 false ⟨0, 1, 2⟩ _ rfl rfl rfl)
    |>.tail (@DiskStep.ring _ _ _ 7 ⟨0, 1, 2⟩ rfl)
    |>.tail (@DiskStep.publish _ _ _ 7 ⟨0, 1, 2⟩ rfl)
    |>.tail (@DiskStep.sleep _ _ _ 7 ⟨0, 1, 2⟩ rfl rfl)
    |>.tail (@DiskStep.fetch _ _ _ (by decide))
    |>.tail (@DiskStep.complete _ _ _ 0 0 (by decide) rfl)
    |>.tail (@DiskStep.intrEnter _ _ _ rfl)
    |>.tail (@DiskStep.intrNext _ _ _ 7 rfl (by decide) rfl rfl)
    |>.tail (@DiskStep.intrLeave _ _ _ rfl rfl)
    |>.tail (@DiskStep.wake _ _ _ 7 ⟨0, 1, 2⟩ rfl rfl)
    |>.tail (@DiskStep.finish _ _ _ 7 ⟨0, 1, 2⟩ _ rfl rfl rfl)
  obtain ⟨-, -, -, -, hd, -, ht⟩ := @virtio_protocol ℕ _ _ tr hr
  exact ⟨_, hr, rfl, rfl, hd, ht⟩

end Xv6
