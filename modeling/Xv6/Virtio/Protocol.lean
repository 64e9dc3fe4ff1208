import Xv6.Virtio.Chains

/-!
# Requests and completions

The descriptors are divided into the free ones and the chains of the requests in flight (`Held`). The
heads of the requests that are published and not yet cleared are those in the part of the avail ring that
the device has not read, those the device works on, and those in the part of the used ring that the
handler has not read, each once (`Flow`). There are fewer of them than cells, so no entry of a ring is
overwritten before it is read.
-/

namespace Xv6

open Function VirtqRing Nat Option

/-! ### Windows of a ring -/

namespace VirtqRing

/-- The entries from `lo` to the index. -/
def window (r : VirtqRing) (lo : ℕ) : List ℕ := Ring.cells r.ring lo (Ring.gap IDXS lo r.idx)

variable {r : VirtqRing} {lo : ℕ} {x : ℕ}

theorem num_dvd : NUM ∣ IDXS := ⟨8192, rfl⟩

theorem length_window : (r.window lo).length = Ring.gap IDXS lo r.idx := Ring.length_cells _ _

theorem window_self (h : lo = r.idx) : r.window lo = [] := by
  rw [window, h, Ring.gap_self, Ring.cells_zero]

/-- The cell of the index, seen from `lo`. -/
theorem ofNat_idx (hl : lo < IDXS) (hi : r.idx < IDXS) :
    Fin.ofNat NUM r.idx = Fin.ofNat NUM (lo + Ring.gap IDXS lo r.idx) := by
  refine Fin.ext ?_
  have h := Ring.add_gap hl hi
  change r.idx ≡ lo + Ring.gap IDXS lo r.idx [MOD NUM]
  have h' : (lo + Ring.gap IDXS lo r.idx) % IDXS ≡ lo + Ring.gap IDXS lo r.idx [MOD NUM] :=
    mod_mod_of_dvd _ num_dvd
  rwa [h] at h'

/-- An entry that is written past a window with room does not change it. -/
theorem window_put (hl : lo < IDXS) (hi : r.idx < IDXS) (hr : (r.window lo).length < NUM) :
    (r.put x).window lo = r.window lo := by
  rw [length_window] at hr
  rw [window, put, ofNat_idx hl hi]
  exact Ring.cells_update r.ring lo x le_rfl hr

@[simp] theorem get_put (r : VirtqRing) (x : ℕ) : (r.put x).get r.idx = x := by
  simp [get, put]

/-- When the index moves, the entry at it is added to the window. -/
theorem window_bump (hl : lo < IDXS) (hi : r.idx < IDXS) (hr : (r.window lo).length < NUM) :
    r.bump.window lo = r.window lo ++ [r.get r.idx] := by
  rw [length_window] at hr
  have hg := Ring.gap_succ hl hi (lt_of_lt_of_le (succ_lt_succ hr) (by decide))
  change Ring.cells r.ring lo (Ring.gap IDXS lo ((r.idx + 1) % IDXS)) = _
  rw [hg, Ring.cells_succ, ← ofNat_idx hl hi]
  rfl

/-- The first entry is read. -/
theorem window_cons (hl : lo < IDXS) (hi : r.idx < IDXS) (hne : lo ≠ r.idx) :
    r.window lo = r.get lo :: r.window ((lo + 1) % IDXS) := by
  have hg := Ring.gap_succ_left hl hi hne
  rw [window, ← hg, Ring.cells_cons, window, Ring.cells_mod _ _ num_dvd]
  rfl

theorem bump_idx_lt (r : VirtqRing) : r.bump.idx < IDXS := mod_lt _ (by decide)

end VirtqRing

/-- A list of different descriptors that lacks one has room for it. -/
theorem length_lt_of_fresh {l : List ℕ} {h : ℕ} (hn : l.Nodup) (hl : ∀ i ∈ l, i < NUM)
    (hh : h < NUM) (hf : h ∉ l) : l.length < NUM := by
  have hc : (h :: l).Nodup := List.nodup_cons.2 ⟨hf, hn⟩
  have hs : h :: l ⊆ List.range NUM := fun i hi => by
    rcases List.mem_cons.1 hi with rfl | hi
    · exact List.mem_range.2 hh
    · exact List.mem_range.2 (hl i hi)
  have := hc.length_le_of_subset hs
  rw [List.length_cons, List.length_range] at this
  omega

/-! ### The requests -/

/-- The chain of a request. -/
def RwPc.chain : RwPc → Option DescChain
  | .idle => none
  | .enter _ => none
  | .ready t => some t
  | .ringed t => some t
  | .test t => some t
  | .asleep t => some t

/-- The request has been published. -/
def RwPc.posted : RwPc → Bool
  | .test _ => true
  | .asleep _ => true
  | _ => false

/-- The call holds `vdisk_lock`. -/
def RwPc.hasLock : RwPc → Bool
  | .ready _ => true
  | .ringed _ => true
  | .test _ => true
  | _ => false

variable {β : Type}

/-- The descriptors are divided into the free ones and the chains `cm` of the requests in flight. -/
structure Held (cm : β → Option DescChain) (d : VDisk β) : Prop where
  proper : ∀ b t, cm b = some t → t.Proper
  disjoint : ∀ b b' t t', cm b = some t → cm b' = some t' → b ≠ b' → t.members.Disjoint t'.members
  free : ∀ i, d.free i = false ↔ ∃ b t, cm b = some t ∧ i ∈ t.members
  linked : ∀ b t, cm b = some t → d.Linked t
  owner : ∀ b t, cm b = some t → (d.info t.i0).b = some b

namespace Held

variable {cm : β → Option DescChain} {d d' : VDisk β}

/-- Changes that leave the requests alone. -/
theorem congr (h : Held cm d) (hf : d'.free = d.free)
    (hd : ∀ i, d.free i = false → d'.desc i = d.desc i)
    (hi : ∀ i, (d'.info i).b = (d.info i).b) : Held cm d' where
  proper := h.proper
  disjoint := h.disjoint
  free i := by
    rw [hf]
    exact h.free i
  linked b t hb := (h.linked b t hb).congr fun i hm => hd i ((h.free i).2 ⟨b, t, hb, hm⟩)
  owner b t hb := (hi t.i0).trans (h.owner b t hb)

theorem head_inj (h : Held cm d) {b b' : β} {t t' : DescChain} (hb : cm b = some t)
    (hb' : cm b' = some t') (he : t.i0 = t'.i0) : b = b' := by
  by_contra hne
  exact h.disjoint b b' t t' hb hb' hne t.head_mem (he ▸ t'.head_mem)

variable [DecidableEq β] {b : β} {t : DescChain}

/-- A request takes free descriptors. -/
theorem start (h : Held cm d) (write : Bool) (hb : cm b = none) (ht : t.Proper)
    (hf : ∀ i ∈ t.members, d.free i = true) :
    Held (update cm b (some t)) ((d.grab t.members).format b write t) := by
  -- the other requests have other descriptors
  have hd : ∀ b' t', cm b' = some t' → t.members.Disjoint t'.members := fun b' t' hb' i hi hi' => by
    have := (h.free i).2 ⟨b', t', hb', hi'⟩
    rw [hf i hi] at this
    exact absurd this (by decide)
  have hne : ∀ b' t', cm b' = some t' → b' ≠ b := fun b' t' hb' e => by
    rw [e, hb] at hb'
    exact absurd hb' (by simp)
  refine ⟨fun b' t' hb' => ?_, fun b₁ b₂ t₁ t₂ h₁ h₂ hn => ?_, fun i => ?_, fun b' t' hb' => ?_,
    fun b' t' hb' => ?_⟩
  · by_cases e : b' = b
    · subst e
      obtain rfl : t = t' := by simpa using hb'
      exact ht
    · exact h.proper b' t' (by simpa [e] using hb')
  · by_cases e₁ : b₁ = b
    · subst e₁
      obtain rfl : t = t₁ := by simpa using h₁
      exact hd b₂ t₂ (by simpa [Ne.symm hn] using h₂)
    · rw [update_of_ne e₁] at h₁
      by_cases e₂ : b₂ = b
      · subst e₂
        obtain rfl : t = t₂ := by simpa using h₂
        exact fun i hi hi' => hd b₁ t₁ h₁ hi' hi
      · rw [update_of_ne e₂] at h₂
        exact h.disjoint b₁ b₂ t₁ t₂ h₁ h₂ hn
  · have hfree : ((d.grab t.members).format b write t).free i = (d.free i && decide (i ∉ t.members)) :=
      rfl
    rw [hfree]
    constructor
    · intro hi
      by_cases hm : i ∈ t.members
      · exact ⟨b, t, by simp, hm⟩
      · obtain ⟨b', t', hb', hm'⟩ := (h.free i).1 (by simpa [hm] using hi)
        exact ⟨b', t', by simpa [hne b' t' hb'] using hb', hm'⟩
    · rintro ⟨b', t', hb', hm⟩
      by_cases e : b' = b
      · subst e
        obtain rfl : t = t' := by simpa using hb'
        simp [hm]
      · rw [(h.free i).2 ⟨b', t', by simpa [e] using hb', hm⟩]
        rfl
  · by_cases e : b' = b
    · subst e
      obtain rfl : t = t' := by simpa using hb'
      exact VDisk.linked_format _ _ _ ht
    · have hb'' : cm b' = some t' := by simpa [e] using hb'
      exact (h.linked b' t' hb'').congr fun i hi =>
        VDisk.desc_format _ _ _ fun hm => hd b' t' hb'' hm hi
  · by_cases e : b' = b
    · subst e
      obtain rfl : t = t' := by simpa using hb'
      simp [VDisk.format]
    · have hb'' : cm b' = some t' := by simpa [e] using hb'
      have hi : t'.i0 ≠ t.i0 := fun ei => hd b' t' hb'' (ei ▸ t.head_mem) t'.head_mem
      simpa [VDisk.format, VDisk.grab, hi] using h.owner b' t' hb''

/-- A request gives its descriptors back. -/
theorem finish (h : Held cm d) (hb : cm b = some t)
    (hf : VDisk.Freed t.members (d.clearInfo t.i0) d') : Held (update cm b none) d' := by
  have hcm : ∀ b' t', update cm b none b' = some t' → b' ≠ b ∧ cm b' = some t' :=
    fun b' t' hb' => by
      by_cases e : b' = b
      · subst e
        simp at hb'
      · exact ⟨e, by simpa [e] using hb'⟩
  refine ⟨fun b' t' hb' => h.proper b' t' (hcm b' t' hb').2, fun b₁ b₂ t₁ t₂ h₁ h₂ hn =>
    h.disjoint b₁ b₂ t₁ t₂ (hcm b₁ t₁ h₁).2 (hcm b₂ t₂ h₂).2 hn, fun i => ?_, fun b' t' hb' => ?_,
    fun b' t' hb' => ?_⟩
  · rw [hf.free]
    change (d.free i || decide (i ∈ t.members)) = false ↔ _
    rw [Bool.or_eq_false_iff, decide_eq_false_iff_not, h.free]
    constructor
    · rintro ⟨⟨b', t', hb', hm⟩, hn⟩
      have e : b' ≠ b := fun e => by
        subst e
        rw [hb] at hb'
        exact hn (some.inj hb' ▸ hm)
      exact ⟨b', t', by simpa [e] using hb', hm⟩
    · rintro ⟨b', t', hb', hm⟩
      obtain ⟨e, hb''⟩ := hcm b' t' hb'
      exact ⟨⟨b', t', hb'', hm⟩, fun hm' => h.disjoint b' b t' t hb'' hb e hm hm'⟩
  · obtain ⟨e, hb''⟩ := hcm b' t' hb'
    refine (h.linked b' t' hb'').congr fun i hi => ?_
    exact hf.desc i fun hm => h.disjoint b' b t' t hb'' hb e hi hm
  · obtain ⟨e, hb''⟩ := hcm b' t' hb'
    have hi : t'.i0 ≠ t.i0 := fun ei => e (h.head_inj hb'' hb ei)
    rw [hf.info]
    simpa [VDisk.clearInfo, hi] using h.owner b' t' hb''

end Held

/-! ### The system -/

namespace DiskSys

variable (s : DiskSys β)

/-- The chains of the requests in flight. -/
def chains (b : β) : Option DescChain := (s.pc b).chain

/-- The heads that the device has not read. -/
def toRead : List ℕ := s.d.avail.window s.seen

/-- The heads that the handler has not read. -/
def toClear : List ℕ := s.d.used.window s.d.usedIdx

/-- The heads on their way from the publication to the handler. -/
def underway : List ℕ := s.toRead ++ (s.busy ++ s.toClear)

/-- A published request with the head `h` waits for its completion. -/
def Waits (h : ℕ) : Prop := ∃ b t, s.chains b = some t ∧ (s.pc b).posted = true ∧ s.disk b = true ∧ t.i0 = h

/-- The heads underway are those of the waiting requests. -/
structure Flow : Prop where
  seen : s.seen < IDXS
  avail : s.d.avail.idx < IDXS
  used : s.d.used.idx < IDXS
  usedIdx : s.d.usedIdx < IDXS
  nodup : s.underway.Nodup
  mem : ∀ h, h ∈ s.underway ↔ s.Waits h
  status : ∀ h ∈ s.toClear, (s.d.info h).status = 0

structure Good : Prop where
  held : Held s.chains s.d
  flow : s.Flow
  lock : ∀ b, (s.pc b).hasLock = true → s.lock = some (.rw b)
  inFlight : ∀ b, s.disk b = true → ∃ t, s.chains b = some t
  fresh : ∀ b t, s.chains b = some t → (s.pc b).posted = false → s.disk b = true
  ringed : ∀ b t, s.pc b = .ringed t → s.d.avail.get s.d.avail.idx = t.i0
  dead : s.dead = none

variable {s}

namespace Good

variable (g : s.Good)

include g

theorem head_lt {h : ℕ} (hh : h ∈ s.underway) : h < NUM := by
  obtain ⟨b, t, hb, -, -, rfl⟩ := (g.flow.mem h).1 hh
  exact (g.held.proper b t hb).lt _ t.head_mem

/-- The head of a request that is not waiting is not underway. -/
theorem not_underway {b : β} {t : DescChain} (hb : s.chains b = some t)
    (hn : (s.pc b).posted = false ∨ s.disk b = false) : t.i0 ∉ s.underway := fun hm => by
  obtain ⟨b', t', hb', hp, hd, he⟩ := (g.flow.mem _).1 hm
  obtain rfl := g.held.head_inj hb hb' he.symm
  rcases hn with hn | hn
  · exact absurd (hn.symm.trans hp) (by decide)
  · exact absurd (hn.symm.trans hd) (by decide)

/-- There is room in the avail ring for the head of a request that is not published. -/
theorem toRead_room {b : β} {t : DescChain} (hb : s.chains b = some t)
    (hn : (s.pc b).posted = false) : (s.d.avail.window s.seen).length < NUM := by
  have h₁ : (s.toRead ++ (s.busy ++ s.toClear)).length < NUM :=
    length_lt_of_fresh g.flow.nodup (fun i hi => g.head_lt hi)
      ((g.held.proper b t hb).lt _ t.head_mem) (g.not_underway hb (Or.inl hn))
  rw [List.length_append] at h₁
  exact lt_of_le_of_lt (Nat.le_add_right _ _) h₁

/-- There is room in the used ring for a head that the device works on. -/
theorem toClear_room {h : ℕ} (hh : h ∈ s.busy) : (s.d.used.window s.d.usedIdx).length < NUM := by
  have hn := (List.nodup_append.1 g.flow.nodup).2.1
  have hm : ∀ i ∈ s.busy ++ s.toClear, i ∈ s.underway := fun i hi => List.mem_append_right _ hi
  refine length_lt_of_fresh (h := h) (List.nodup_append.1 hn).2.1
    (fun i hi => g.head_lt (hm i (List.mem_append_right _ hi)))
    (g.head_lt (hm h (List.mem_append_left _ hh))) fun hc => ?_
  exact (List.nodup_append.1 hn).2.2 h hh h hc rfl

/-- The entry that the handler reads is that of a waiting request, with its buffer and status. -/
theorem usedId_spec (hne : s.d.usedIdx ≠ s.d.used.idx) :
    ∃ b t, s.chains b = some t ∧ (s.pc b).posted = true ∧ s.disk b = true ∧ t.i0 = s.d.usedId ∧
      (s.d.info s.d.usedId).b = some b ∧ (s.d.info s.d.usedId).status = 0 ∧
      s.toClear = s.d.usedId :: s.d.used.window ((s.d.usedIdx + 1) % IDXS) := by
  have hw : s.toClear = s.d.usedId :: s.d.used.window ((s.d.usedIdx + 1) % IDXS) :=
    window_cons g.flow.usedIdx g.flow.used hne
  have hm : s.d.usedId ∈ s.toClear := by
    rw [hw]
    exact List.mem_cons_self
  obtain ⟨b, t, hb, hp, hd, he⟩ := (g.flow.mem s.d.usedId).1
    (List.mem_append_right _ (List.mem_append_right _ hm))
  exact ⟨b, t, hb, hp, hd, he, he ▸ g.held.owner b t hb, g.flow.status _ hm, hw⟩

/-- The device finds the status byte of the request that it works on. -/
theorem statusAddr {h : ℕ} (hh : h ∈ s.busy) : s.d.statusAddr h = .status h := by
  obtain ⟨b, t, hb, -, -, rfl⟩ := (g.flow.mem h).1
    (List.mem_append_right _ (List.mem_append_left _ hh))
  exact (g.held.linked b t hb).statusAddr

end Good

section Moves

variable [DecidableEq β] {b : β} {k : RwPc}

/-- A call goes to a place with the same chain. -/
theorem chains_update (hc : k.chain = (s.pc b).chain) (b' : β) :
    (update s.pc b k b').chain = s.chains b' := by
  by_cases e : b' = b
  · subst e
    simpa [chains] using hc
  · simp [chains, e]

theorem posted_update (hp : k.posted = (s.pc b).posted) (b' : β) :
    (update s.pc b k b').posted = (s.pc b').posted := by
  by_cases e : b' = b
  · subst e
    simpa using hp
  · simp [e]

/-- The lock is passed from nobody or `b` to nobody or `b`. -/
theorem lock_update {l : Option (DiskOwner β)} (g : s.Good)
    (h : s.lock = none ∨ s.lock = some (.rw b)) (hk : k.hasLock = true → l = some (.rw b)) (b' : β)
    (hb' : (update s.pc b k b').hasLock = true) : l = some (.rw b') := by
  by_cases e : b' = b
  · subst e
    exact hk (by simpa using hb')
  · have hl := g.lock b' (by simpa [e] using hb')
    rcases h with h | h
    · rw [h] at hl
      exact absurd hl (by simp)
    · rw [h] at hl
      simp only [some.injEq, DiskOwner.rw.injEq] at hl
      exact absurd hl.symm e

omit [DecidableEq β] in
theorem Good.not_ringed (g : s.Good) (hl : s.lock = some (.rw b)) {b' : β} (e : b' ≠ b)
    (t : DescChain) : s.pc b' ≠ .ringed t := fun hb' => by
  have hl' := g.lock b' (by rw [hb']; rfl)
  rw [hl] at hl'
  simp only [some.injEq, DiskOwner.rw.injEq] at hl'
  exact e hl'.symm

/-- A call goes on without a change to its request, and perhaps takes or gives up the lock. -/
theorem Good.walk {l : Option (DiskOwner β)} (g : s.Good) (hc : k.chain = (s.pc b).chain)
    (hp : k.posted = (s.pc b).posted)
    (hl : ∀ b', (update s.pc b k b').hasLock = true → l = some (.rw b'))
    (hr : ∀ t, k ≠ .ringed t) :
    ({ s with lock := l, pc := update s.pc b k } : DiskSys β).Good := by
  have hcm : ({ s with lock := l, pc := update s.pc b k } : DiskSys β).chains = s.chains :=
    funext (chains_update hc)
  have hw : ∀ h, ({ s with lock := l, pc := update s.pc b k } : DiskSys β).Waits h ↔ s.Waits h :=
    fun h => by simp only [Waits, hcm, posted_update hp]
  refine ⟨hcm ▸ g.held, ?_, hl, ?_, ?_, fun b' t hb' => ?_, g.dead⟩
  · have f := g.flow
    exact ⟨f.seen, f.avail, f.used, f.usedIdx, f.nodup, fun h => (f.mem h).trans (hw h).symm, f.status⟩
  · rw [hcm]
    exact g.inFlight
  · rw [hcm]
    exact fun b' t hb' hp' => g.fresh b' t hb' ((posted_update hp b').symm.trans hp')
  · by_cases e : b' = b
    · subst e
      exact absurd (by simpa using hb') (hr t)
    · exact g.ringed b' t (by simpa [e] using hb')

/-- The head is written to the avail ring. -/
theorem Good.ring {t : DescChain} (g : s.Good) (hb : s.pc b = .ready t) :
    ({ s with d := { s.d with avail := s.d.avail.put t.i0 }, pc := update s.pc b (.ringed t) } :
      DiskSys β).Good := by
  have hl := g.lock b (by rw [hb]; rfl)
  have hc : (RwPc.ringed t).chain = (s.pc b).chain := by
    rw [hb]
    rfl
  have hp : (RwPc.ringed t).posted = (s.pc b).posted := by
    rw [hb]
    rfl
  have hroom := g.toRead_room (b := b) (t := t) (by rw [chains, hb]; rfl) (by rw [hb]; rfl)
  have f := g.flow
  have hw : (s.d.avail.put t.i0).window s.seen = s.d.avail.window s.seen :=
    window_put f.seen f.avail hroom
  have hcm : ({ s with
      d := { s.d with avail := s.d.avail.put t.i0 }
      pc := update s.pc b (.ringed t) } : DiskSys β).chains = s.chains :=
    funext (chains_update hc)
  refine ⟨?_, ⟨f.seen, f.avail, f.used, f.usedIdx, ?_, fun h => ?_, f.status⟩,
    lock_update g (Or.inr hl) (fun _ => hl), ?_, ?_, fun b' t' hb' => ?_, g.dead⟩
  · rw [hcm]
    exact g.held.congr rfl (fun _ _ => rfl) fun _ => rfl
  · simp only [underway, toRead, hw]
    exact f.nodup
  · simp only [underway, toRead, hw, Waits, hcm, posted_update hp]
    exact f.mem h
  · rw [hcm]
    exact g.inFlight
  · rw [hcm]
    exact fun b' t' hb' hp' => g.fresh b' t' hb' ((posted_update hp b').symm.trans hp')
  · by_cases e : b' = b
    · subst e
      obtain rfl : t = t' := by simpa using hb'
      exact get_put _ _
    · exact absurd (by simpa [e] using hb') (g.not_ringed hl e t')

theorem Good.publish {t : DescChain} (g : s.Good) (hb : s.pc b = .ringed t) :
    ({ s with d := { s.d with avail := s.d.avail.bump }, pc := update s.pc b (.test t) } :
      DiskSys β).Good := by
  have hl := g.lock b (by rw [hb]; rfl)
  have hcb : s.chains b = some t := by
    rw [chains, hb]
    rfl
  have hc : (RwPc.test t).chain = (s.pc b).chain := by
    rw [hb]
    rfl
  have hdisk := g.fresh b t hcb (by rw [hb]; rfl)
  have hroom := g.toRead_room hcb (by rw [hb]; rfl)
  have hnew := g.not_underway hcb (Or.inl (by rw [hb]; rfl))
  have f := g.flow
  have hw : s.d.avail.bump.window s.seen = s.d.avail.window s.seen ++ [t.i0] := by
    rw [window_bump f.seen f.avail hroom, g.ringed b t hb]
  have hcm : ({ s with
      d := { s.d with avail := s.d.avail.bump }
      pc := update s.pc b (.test t) } : DiskSys β).chains = s.chains :=
    funext (chains_update hc)
  have hperm : (s.toRead ++ [t.i0] ++ (s.busy ++ s.toClear)).Perm (t.i0 :: s.underway) := by
    rw [List.append_assoc, List.singleton_append]
    exact List.perm_middle
  refine ⟨?_, ⟨f.seen, bump_idx_lt _, f.used, f.usedIdx, ?_, fun h => ?_, f.status⟩,
    lock_update g (Or.inr hl) (fun _ => hl), ?_, ?_, fun b' t' hb' => ?_, g.dead⟩
  · rw [hcm]
    exact g.held.congr rfl (fun _ _ => rfl) fun _ => rfl
  · simp only [underway, toRead, hw]
    exact hperm.nodup_iff.2 (List.nodup_cons.2 ⟨hnew, f.nodup⟩)
  · simp only [underway, toRead, hw]
    refine hperm.mem_iff.trans ?_
    rw [List.mem_cons, f.mem h]
    simp only [Waits, hcm]
    constructor
    · rintro (rfl | ⟨b', t', hb', hp, hd, he⟩)
      · exact ⟨b, t, hcb, by simp [RwPc.posted], hdisk, rfl⟩
      · have e : b' ≠ b := fun e => by
          rw [e, hb] at hp
          exact absurd hp (by simp [RwPc.posted])
        exact ⟨b', t', hb', by simpa [e] using hp, hd, he⟩
    · rintro ⟨b', t', hb', hp, hd, he⟩
      by_cases e : b' = b
      · subst e
        rw [hcb] at hb'
        exact Or.inl (some.inj hb' ▸ he.symm)
      · exact Or.inr ⟨b', t', hb', by simpa [e] using hp, hd, he⟩
  · rw [hcm]
    exact g.inFlight
  · rw [hcm]
    intro b' t' hb' hp'
    by_cases e : b' = b
    · subst e
      exact hdisk
    · exact g.fresh b' t' hb' (by simpa [e] using hp')
  · by_cases e : b' = b
    · subst e
      simp at hb'
    · exact absurd (by simpa [e] using hb') (g.not_ringed hl e t')

/-- A request is filled in. -/
theorem Good.start {t : DescChain} (g : s.Good) (write : Bool) (hb : s.chains b = none)
    (hl : s.lock = none) (ht : t.Proper) (hf : ∀ i ∈ t.members, s.d.free i = true) :
    ({ s with
      d := (s.d.grab t.members).format b write t, disk := update s.disk b true,
      lock := some (.rw b), pc := update s.pc b (.ready t) } : DiskSys β).Good := by
  have f := g.flow
  -- the head of the new request is not underway
  have hnew : t.i0 ∉ s.underway := fun hm => by
    obtain ⟨b', t', hb', -, -, he⟩ := (f.mem _).1 hm
    have := (g.held.free t.i0).2 ⟨b', t', hb', he ▸ t'.head_mem⟩
    rw [hf _ t.head_mem] at this
    exact absurd this (by decide)
  have hcm : ({ s with
      d := (s.d.grab t.members).format b write t, disk := update s.disk b true,
      lock := some (.rw b), pc := update s.pc b (.ready t) } : DiskSys β).chains =
        update s.chains b (some t) := by
    funext b'
    by_cases e : b' = b
    · subst e
      simp [chains, RwPc.chain]
    · simp [chains, e]
  refine ⟨hcm ▸ g.held.start write hb ht hf,
    ⟨f.seen, f.avail, f.used, f.usedIdx, f.nodup, fun h => (f.mem h).trans ?_, fun h hh => ?_⟩,
    lock_update g (Or.inl hl) (fun _ => rfl), fun b' hd => ?_, fun b' t' hb' hp' => ?_,
    fun b' t' hb' => ?_, g.dead⟩
  · simp only [Waits, hcm]
    constructor
    · rintro ⟨b', t', hb', hp, hd, he⟩
      have e : b' ≠ b := fun e => by
        rw [e, hb] at hb'
        exact absurd hb' (by simp)
      exact ⟨b', t', by simpa [e] using hb', by simpa [e] using hp, by simpa [e] using hd, he⟩
    · rintro ⟨b', t', hb', hp, hd, he⟩
      by_cases e : b' = b
      · subst e
        simp [RwPc.posted] at hp
      · exact ⟨b', t', by simpa [e] using hb', by simpa [e] using hp, by simpa [e] using hd, he⟩
  · have hne : h ≠ t.i0 := fun e =>
      hnew (e ▸ List.mem_append_right _ (List.mem_append_right _ hh))
    have : ((s.d.grab t.members).format b write t).info h = s.d.info h := by
      simp [VDisk.format, VDisk.grab, hne]
    exact this ▸ f.status h hh
  · rw [hcm]
    by_cases e : b' = b
    · subst e
      exact ⟨t, by simp⟩
    · obtain ⟨t', ht'⟩ := g.inFlight b' (by simpa [e] using hd)
      exact ⟨t', by simpa [e] using ht'⟩
  · rw [hcm] at hb'
    by_cases e : b' = b
    · subst e
      simp
    · simpa [e] using g.fresh b' t' (by simpa [e] using hb') (by simpa [e] using hp')
  · by_cases e : b' = b
    · subst e
      simp at hb'
    · exact g.ringed b' t' (by simpa [e] using hb')

/-- A request returns. -/
theorem Good.finish {t : DescChain} {d : VDisk β} (g : s.Good) (hb : s.pc b = .test t)
    (hd : s.disk b = false) (hf : VDisk.Freed t.members (s.d.clearInfo t.i0) d) :
    ({ s with d := d, lock := none, pc := update s.pc b .idle } : DiskSys β).Good := by
  have f := g.flow
  have hcb : s.chains b = some t := by
    rw [chains, hb]
    rfl
  have hcm : ({ s with d := d, lock := none, pc := update s.pc b .idle } : DiskSys β).chains =
      update s.chains b none := by
    funext b'
    by_cases e : b' = b
    · subst e
      simp [chains, RwPc.chain]
    · simp [chains, e]
  have hst : ∀ h, (d.info h).status = (s.d.info h).status := fun h => by
    rw [hf.info]
    by_cases e : h = t.i0 <;> simp [VDisk.clearInfo, e]
  have hun : ({ s with d := d, lock := none, pc := update s.pc b .idle } : DiskSys β).underway =
      s.underway := by
    simp only [underway, toRead, toClear, hf.avail, hf.used, hf.usedIdx]
    rfl
  refine ⟨hcm ▸ g.held.finish hcb hf, ⟨f.seen, hf.avail ▸ f.avail, hf.used ▸ f.used,
    hf.usedIdx ▸ f.usedIdx, hun ▸ f.nodup, fun h => ?_, fun h hh => ?_⟩, ?_, fun b' hd' => ?_,
    fun b' t' hb' hp' => ?_, fun b' t' hb' => ?_, g.dead⟩
  · rw [hun, f.mem h]
    simp only [Waits, hcm]
    refine exists_congr fun b' => exists_congr fun t' => ?_
    by_cases e : b' = b
    · simp [e, hd]
    · simp [e]
  · change (d.info h).status = 0
    rw [hst]
    have hh' : h ∈ d.used.window d.usedIdx := hh
    rw [hf.used, hf.usedIdx] at hh'
    exact f.status h hh'
  · exact lock_update g (Or.inr (g.lock b (by rw [hb]; rfl))) (by simp [RwPc.hasLock])
  · have e : b' ≠ b := fun e => by
      rw [e] at hd'
      exact absurd (hd.symm.trans hd') (by decide)
    obtain ⟨t', ht'⟩ := g.inFlight b' hd'
    exact ⟨t', by rw [hcm]; simpa [e] using ht'⟩
  · rw [hcm] at hb'
    by_cases e : b' = b
    · subst e
      simp at hb'
    · exact g.fresh b' t' (by simpa [e] using hb') (by simpa [e] using hp')
  · by_cases e : b' = b
    · subst e
      simp at hb'
    · exact absurd (by simpa [e] using hb') (g.not_ringed (g.lock b (by rw [hb]; rfl)) e t')

omit [DecidableEq β] in
/-- `alloc3_desc` fails. -/
theorem Good.full {d : VDisk β} (g : s.Good) (hfr : d.free = s.d.free)
    (hde : ∀ i, s.d.free i = false → d.desc i = s.d.desc i) (ha : d.avail = s.d.avail)
    (hu : d.used = s.d.used) (hx : d.usedIdx = s.d.usedIdx) (hi : d.info = s.d.info) :
    ({ s with d := d } : DiskSys β).Good := by
  have f := g.flow
  have hun : ({ s with d := d } : DiskSys β).underway = s.underway := by
    simp only [underway, toRead, toClear, ha, hu, hx]
  refine ⟨g.held.congr hfr hde fun i => by rw [hi], ⟨f.seen, ha ▸ f.avail, hu ▸ f.used, hx ▸ f.usedIdx,
    hun ▸ f.nodup, fun h => hun ▸ f.mem h, fun h hh => ?_⟩, g.lock, g.inFlight, g.fresh,
    fun b' t' hb' => ha ▸ g.ringed b' t' hb', g.dead⟩
  change (d.info h).status = 0
  rw [hi]
  exact f.status h (by simpa only [toClear, hu, hx] using hh)

/-- The handler reads an entry. -/
theorem Good.intrNext (g : s.Good) (hne : s.d.usedIdx ≠ s.d.used.idx)
    (hb : (s.d.info s.d.usedId).b = some b) :
    ({ s with
      d := { s.d with usedIdx := (s.d.usedIdx + 1) % IDXS }
      disk := update s.disk b false } : DiskSys β).Good := by
  have f := g.flow
  obtain ⟨b₀, t, hcb, hp, hd, he, hb₀, hst, hw⟩ := g.usedId_spec hne
  obtain rfl : b₀ = b := some.inj (hb₀.symm.trans hb)
  have hperm : s.underway.Perm (s.d.usedId ::
      (s.toRead ++ (s.busy ++ s.d.used.window ((s.d.usedIdx + 1) % IDXS)))) := by
    rw [underway, hw, ← List.append_assoc]
    refine List.perm_middle.trans (List.Perm.cons _ ?_)
    rw [List.append_assoc]
  have hnd := List.nodup_cons.1 (hperm.nodup_iff.1 f.nodup)
  refine ⟨g.held.congr rfl (fun _ _ => rfl) fun _ => rfl, ⟨f.seen, f.avail, f.used,
    mod_lt _ (by decide), hnd.2, fun h => ?_, fun h hh => ?_⟩, g.lock, fun b' hd' => ?_,
    fun b' t' hb' hp' => ?_, g.ringed, g.dead⟩
  · have hm := hperm.mem_iff (a := h)
    rw [f.mem h, List.mem_cons] at hm
    change h ∈ s.toRead ++ (s.busy ++ s.d.used.window ((s.d.usedIdx + 1) % IDXS)) ↔ _
    constructor
    · intro hh
      obtain ⟨b', t', hb', hp', hd', he'⟩ := hm.2 (Or.inr hh)
      have e : b' ≠ b₀ := fun e => by
        subst e
        rw [hcb] at hb'
        cases hb'
        rw [← he', he] at hh
        exact hnd.1 hh
      exact ⟨b', t', hb', hp', by simpa [e] using hd', he'⟩
    · rintro ⟨b', t', hb', hp', hd', he'⟩
      have e : b' ≠ b₀ := fun e => by
        subst e
        simp at hd'
      rcases hm.1 ⟨b', t', hb', hp', by simpa [e] using hd', he'⟩ with h' | h'
      · exact absurd (g.held.head_inj hb' hcb (he'.trans (h'.trans he.symm))) e
      · exact h'
  · refine f.status h ?_
    rw [hw]
    exact List.mem_cons_of_mem _ hh
  · have e : b' ≠ b₀ := fun e => by
      subst e
      simp at hd'
    exact g.inFlight b' (by simpa [e] using hd')
  · have e : b' ≠ b₀ := fun e => by
      subst e
      exact absurd (hp.symm.trans hp') (by decide)
    simpa [e] using g.fresh b' t' hb' hp'

omit [DecidableEq β] in
/-- The device reads a head. -/
theorem Good.fetch (g : s.Good) (hne : s.seen ≠ s.d.avail.idx) :
    ({ s with
      seen := (s.seen + 1) % IDXS, busy := s.d.avail.get s.seen :: s.busy } : DiskSys β).Good := by
  have f := g.flow
  have hw : s.toRead = s.d.avail.get s.seen :: s.d.avail.window ((s.seen + 1) % IDXS) :=
    window_cons f.seen f.avail hne
  have hperm : s.underway.Perm (s.d.avail.window ((s.seen + 1) % IDXS) ++
      (s.d.avail.get s.seen :: s.busy ++ s.toClear)) := by
    rw [underway, hw, List.cons_append, List.cons_append]
    exact List.perm_middle.symm
  exact ⟨g.held, ⟨mod_lt _ (by decide), f.avail, f.used, f.usedIdx, hperm.nodup_iff.1 f.nodup,
    fun h => hperm.mem_iff.symm.trans (f.mem h), f.status⟩, g.lock, g.inFlight, g.fresh, g.ringed, g.dead⟩

omit [DecidableEq β] in
/-- The device reports a head. -/
theorem Good.complete {h : ℕ} (g : s.Good) (hh : h ∈ s.busy) :
    ({ s with
      d := { s.d.setStatus h with used := (s.d.used.put h).bump }
      busy := s.busy.erase h } : DiskSys β).Good := by
  have f := g.flow
  have hroom := g.toClear_room hh
  have hp : (s.d.used.put h).window s.d.usedIdx = s.d.used.window s.d.usedIdx :=
    window_put f.usedIdx f.used hroom
  have hw : (s.d.used.put h).bump.window s.d.usedIdx = s.toClear ++ [h] := by
    have hb := window_bump (r := s.d.used.put h) f.usedIdx f.used (by rw [hp]; exact hroom)
    rw [hb, hp]
    exact congrArg (s.toClear ++ [·]) (get_put _ _)
  have hperm : s.underway.Perm (s.toRead ++ (s.busy.erase h ++ (s.toClear ++ [h]))) := by
    refine List.Perm.append_left _ ?_
    refine ((List.perm_cons_erase hh).append_right _).trans ?_
    rw [← List.append_assoc, List.cons_append]
    exact (List.perm_append_singleton h _).symm
  have hun : ({ s with
      d := { s.d.setStatus h with used := (s.d.used.put h).bump }
      busy := s.busy.erase h } : DiskSys β).underway =
        s.toRead ++ (s.busy.erase h ++ (s.toClear ++ [h])) := by
    rw [← hw]
    rfl
  refine ⟨g.held.congr rfl (fun _ _ => rfl) fun i => ?_, ⟨f.seen, f.avail, bump_idx_lt _,
    f.usedIdx, hun ▸ hperm.nodup_iff.1 f.nodup, fun h' => ?_, fun h' hh' => ?_⟩, g.lock, g.inFlight,
    g.fresh, g.ringed, g.dead⟩
  · by_cases e : i = h <;> simp [VDisk.setStatus, e]
  · rw [hun]
    exact hperm.mem_iff.symm.trans (f.mem h')
  · have hm : h' ∈ s.toClear ++ [h] := hw ▸ hh'
    by_cases e : h' = h
    · simp [VDisk.setStatus, e]
    · have hc : h' ∈ s.toClear := by simpa [e] using hm
      simpa [VDisk.setStatus, e] using f.status h' hc

/-! ### One step -/

omit [DecidableEq β] in
/-- `finish` does not fail. -/
theorem Good.freeChain (g : s.Good) {t : DescChain} (hb : s.pc b = .test t) :
    ∃ d, (s.d.clearInfo t.i0).freeChain (NUM + 1) t.i0 = .ok d ∧
      VDisk.Freed t.members (s.d.clearInfo t.i0) d := by
  have hcb : s.chains b = some t := by
    rw [chains, hb]
    rfl
  refine VDisk.freeChain_ok 6 (g.held.proper b t hcb) ((g.held.linked b t hcb).congr fun _ _ => rfl)
    fun i hi => ?_
  exact (g.held.free i).2 ⟨b, t, hcb, hi⟩

end Moves

end DiskSys

open DiskSys

variable [DecidableEq β] {s s' : DiskSys β} {es : List (DiskEvent β)}

theorem DiskStep.good (st : DiskStep s es s') (g : s.Good) : s'.Good := by
  cases st with
  | call b write hb =>
    refine g.walk (by rw [hb]; rfl) (by rw [hb]; rfl) (fun b' hb' => ?_) (by simp)
    by_cases e : b' = b
    · subst e
      simp [RwPc.hasLock] at hb'
    · exact g.lock b' (by simpa [e] using hb')
  | full _ _ ha =>
    rcases s.d.alloc3Desc_spec with ⟨t, e, -⟩ | ⟨d', e, h₁, h₂, h₃, h₄, h₅, h₆⟩
    · rw [e] at ha
      simp at ha
    · rw [e] at ha
      simp only [Except.ok.injEq, Prod.mk.injEq, true_and] at ha
      subst ha
      exact g.full h₁ h₂ h₃ h₄ h₅ h₆
  | allocPanic _ _ ha =>
    rcases s.d.alloc3Desc_spec with ⟨t, e, -⟩ | ⟨d', e, -⟩
    · rw [e] at ha
      simp at ha
    · rw [e] at ha
      simp at ha
  | start hb hl ha =>
    rcases s.d.alloc3Desc_spec with ⟨t, e, ht, hf⟩ | ⟨d', e, -⟩
    · rw [e] at ha
      simp only [Except.ok.injEq, Prod.mk.injEq, some.injEq] at ha
      obtain ⟨rfl, rfl⟩ := ha
      exact g.start _ (by rw [chains, hb]; rfl) hl ht hf
    · rw [e] at ha
      simp at ha
  | ring hb => exact g.ring hb
  | publish hb => exact g.publish hb
  | @sleep b t hb _ =>
    have hl := g.lock b (by rw [hb]; rfl)
    exact g.walk (by rw [hb]; rfl) (by rw [hb]; rfl)
      (lock_update g (Or.inr hl) (by simp [RwPc.hasLock])) (by simp)
  | wake hb hl =>
    exact g.walk (by rw [hb]; rfl) (by rw [hb]; rfl) (lock_update g (Or.inl hl) fun _ => rfl) (by simp)
  | finish hb hd ha =>
    obtain ⟨d', e, hf⟩ := g.freeChain hb
    obtain rfl := Except.ok.inj (e.symm.trans ha)
    exact g.finish hb hd hf
  | finishPanic hb _ ha =>
    obtain ⟨d', e, -⟩ := g.freeChain hb
    exact absurd (e.symm.trans ha) (by simp)
  | intrEnter hl | intrLeave hl _ =>
    refine ⟨g.held, ⟨g.flow.seen, g.flow.avail, g.flow.used, g.flow.usedIdx, g.flow.nodup, g.flow.mem,
      g.flow.status⟩, fun b hb => ?_, g.inFlight, g.fresh, g.ringed, g.dead⟩
    have := g.lock b hb
    rw [hl] at this
    exact absurd this (by simp)
  | intrNext _ hne _ hb => exact g.intrNext hne hb
  | intrStatus _ hne hs =>
    obtain ⟨b, t, -, -, -, -, -, hst, -⟩ := g.usedId_spec hne
    exact absurd hst hs
  | intrNull _ hne hb =>
    obtain ⟨b, t, -, -, -, -, hb', -, -⟩ := g.usedId_spec hne
    rw [hb] at hb'
    exact absurd hb' (by simp)
  | fetch hne => exact g.fetch hne
  | complete hh ha =>
    rw [g.statusAddr hh] at ha
    obtain rfl := DescAddr.status.inj ha
    exact g.complete hh

omit [DecidableEq β] in
theorem DiskSys.underway_init : (DiskSys.init : DiskSys β).underway = [] := by
  have h₁ : (DiskSys.init : DiskSys β).toRead = [] := window_self rfl
  have h₂ : (DiskSys.init : DiskSys β).toClear = [] := window_self rfl
  rw [underway, h₁, h₂]
  rfl

omit [DecidableEq β] in
theorem DiskSys.chains_init (b : β) : (DiskSys.init : DiskSys β).chains b = none := rfl

omit [DecidableEq β] in
theorem DiskSys.good_init : (DiskSys.init : DiskSys β).Good where
  held := ⟨by simp [chains_init], by simp [chains_init], fun i => by
    simp only [chains_init, reduceCtorEq, false_and, exists_false, iff_false]
    simp [DiskSys.init], by simp [chains_init], by simp [chains_init]⟩
  flow :=
    have h0 : 0 < IDXS := succ_pos _
    ⟨h0, h0, h0, h0, by rw [underway_init]; exact List.nodup_nil,
      fun h => by simp [underway_init, Waits, chains_init],
      fun h hh => by
        have : h ∈ (DiskSys.init : DiskSys β).underway :=
          List.mem_append_right _ (List.mem_append_right _ hh)
        rw [underway_init] at this
        exact absurd this List.not_mem_nil⟩
  lock b hb := absurd hb (by simp [DiskSys.init, RwPc.hasLock])
  inFlight b hb := absurd hb (by simp [DiskSys.init])
  fresh b t hb := absurd hb (by simp [chains_init])
  ringed b t hb := absurd hb (by simp [DiskSys.init])
  dead := rfl

end Xv6
