import Xv6.Bcache.Invariant
import Mathlib.Data.Set.Function

/-!
# The buffer cache refines the disk

What `bread` returns. A buffer that is valid has the bytes most recently stored under its key, and the
disk has them unless a buffer of the key is dirty. This needs that the keys in use lie at different
sectors.
-/

namespace Xv6.Bcache

open Dlist List Prod
open Function (update update_self update_of_ne update_eq_self)

variable {ι δ : Type} {s s' : Bcache ι δ} {tr es : List (Event ι δ)} {disk : ℕ → δ} {K : Set Key}

/-- The keys that `bread` was called with. -/
def calls (tr : List (Event ι δ)) : Set Key := {k | ∃ t, Event.call t k ∈ tr}

/-- No two of the keys share a place on the disk. -/
def Apart (K : Set Key) : Prop := Set.InjOn (fun k : Key => sector k.2) K

theorem latest_append_store (t : ι) (k k' : Key) (d : δ) :
    latest disk k (tr ++ [.store t k' d]) = if k' = k then d else latest disk k tr := by
  simp [latest]

theorem latest_append_call (t : ι) (k k' : Key) :
    latest disk k (tr ++ [.call t k']) = latest disk k tr := by
  simp [latest]

theorem latest_append_bread (t : ι) (k k' : Key) (d : δ) :
    latest disk k (tr ++ [.bread t k' d]) = latest disk k tr := by
  simp [latest]

/-- The contents of the buffers and of the disk after the trace `tr`. -/
structure Shows (K : Set Key) (disk : ℕ → δ) (tr : List (Event ι δ)) (s : Bcache ι δ) : Prop where
  known : ∀ i, (s.buf i).dev ≠ 0 → (s.buf i).key ∈ K
  asked : ∀ t k, s.pc t = .get k → k ∈ K
  cached : ∀ i, (s.buf i).dev ≠ 0 → (s.buf i).valid = true →
    (s.buf i).data = latest disk (s.buf i).key tr
  fetched : ∀ t k i, s.pc t = .on k i .fresh → (s.buf i).data = latest disk k tr
  stored : ∀ k ∈ K, (∀ i, (s.buf i).key = k → (s.buf i).dirty = false) →
    s.disk (sector k.2) = latest disk k tr

theorem shows_init (K : Set Key) (zero : δ) (disk : ℕ → δ) :
    Shows K disk [] (init zero disk : Bcache ι δ) where
  known _ h := absurd rfl h
  asked _ _ h := by simp [init] at h
  cached _ h := absurd rfl h
  fetched _ _ _ h := by simp [init] at h
  stored _ _ _ := rfl

/-- A step that changes no contents. -/
theorem Shows.frame (h : Shows K disk tr s)
    (hb : ∀ i, (s'.buf i).key = (s.buf i).key ∧ (s'.buf i).valid = (s.buf i).valid ∧
      (s'.buf i).data = (s.buf i).data ∧ (s'.buf i).dirty = (s.buf i).dirty)
    (hd : s'.disk = s.disk) (ha : ∀ t k, s'.pc t = .get k → k ∈ K)
    (hf : ∀ t k i, s'.pc t = .on k i .fresh → s.pc t = .on k i .fresh)
    (hl : ∀ k, latest disk k (tr ++ es) = latest disk k tr) : Shows K disk (tr ++ es) s' := by
  have hdev : ∀ i, (s'.buf i).dev = (s.buf i).dev := fun i => congrArg fst (hb i).1
  refine ⟨?_, ha, ?_, ?_, ?_⟩
  · intro i hi
    rw [(hb i).1]
    exact h.known i (hdev i ▸ hi)
  · intro i hi hv
    rw [(hb i).1, (hb i).2.2.1, hl]
    exact h.cached i (hdev i ▸ hi) ((hb i).2.1 ▸ hv)
  · intro t k i hp
    rw [(hb i).2.2.1, hl]
    exact h.fetched t k i (hf t k i hp)
  · intro k hk hclean
    rw [hd, hl]
    refine h.stored k hk fun i hi => ?_
    rw [← (hb i).2.2.2]
    exact hclean i ((hb i).1.trans hi)

variable [DecidableEq ι]

/-- The session `t` moves and the buffer `i` becomes `x` with the same contents. -/
theorem Shows.move (h : Shows K disk tr s) {t : ι} {c : Pc} {i : Fin NBUF} {x : Entry ι δ}
    (hkey : x.key = (s.buf i).key) (hvalid : x.valid = (s.buf i).valid)
    (hdata : x.data = (s.buf i).data) (hdirty : x.dirty = (s.buf i).dirty)
    (hasked : ∀ k, c = .get k → k ∈ K) (hfresh : ∀ k j, c ≠ .on k j .fresh)
    (hl : ∀ k, latest disk k (tr ++ es) = latest disk k tr) :
    Shows K disk (tr ++ es) ((s.set i x).goto t c) := by
  refine h.frame ?_ rfl ?_ ?_ hl
  · intro j
    by_cases hj : j = i
    · subst j
      simp [goto, set, hkey, hvalid, hdata, hdirty]
    · simp [goto, set, hj]
  · intro u k hu
    by_cases e : u = t
    · subst u
      exact hasked k (by simpa [goto] using hu)
    · exact h.asked u k (by simpa [goto, set, e] using hu)
  · intro u k j hu
    by_cases e : u = t
    · subst u
      exact absurd (by simpa [goto] using hu) (hfresh k j)
    · simpa [goto, set, e] using hu

omit [DecidableEq ι] in
/-- The buffer `i` of a session has the session's key, and no other buffer has it. -/
theorem Good.key_eq_iff [Fintype ι] (h : Good s) {t : ι} {k : Key} {i : Fin NBUF} {ph : Phase}
    (hp : s.pc t = .on k i ph) (j : Fin NBUF) : (s.buf j).key = k ↔ j = i := by
  obtain ⟨hk, hne⟩ := h.label t k i ph hp
  constructor
  · intro hj
    refine (h.distinct i j ?_ (hk.trans hj.symm)).symm
    rwa [← congrArg fst hk] at hne
  · rintro rfl
    exact hk

/-- A buffer without references is given to another key. -/
theorem Shows.relabel [Fintype ι] (h : Shows K disk tr s) (hg : Good s) {t : ι} {k : Key} {i : Fin NBUF}
    (hp : s.pc t = .get k) (hz : (s.buf i).refcnt = 0) :
    Shows K disk (tr ++ []) ((s.set i { s.buf i with
      dev := k.1, blockno := k.2, valid := false, refcnt := 1 }).goto t (.on k i .lock)) := by
  rw [append_nil]
  have hdirty : (s.buf i).dirty = false := by
    rw [← Bool.not_eq_true]
    intro hd
    have := (hg.clean i hd).1
    omega
  refine ⟨?_, ?_, ?_, ?_, ?_⟩
  · intro j hj
    by_cases e : j = i
    · subst j
      simpa [goto, set, Entry.key] using h.asked t k hp
    · simp only [goto, set, update_of_ne e] at hj ⊢
      exact h.known j hj
  · intro u k' hu
    by_cases e : u = t
    · subst u
      simp [goto] at hu
    · exact h.asked u k' (by simpa [goto, set, e] using hu)
  · intro j hj hv
    by_cases e : j = i
    · subst j
      simp [goto, set] at hv
    · simp only [goto, set, update_of_ne e] at hj hv ⊢
      exact h.cached j hj hv
  · intro u k' j hu
    by_cases e : u = t
    · subst u
      simp [goto] at hu
    · have hu' : s.pc u = .on k' j .fresh := by simpa [goto, set, e] using hu
      have hji : j ≠ i := by
        rintro rfl
        have := hg.refcnt_pos hu'
        omega
      simp only [goto, set, update_of_ne hji]
      exact h.fetched u k' j hu'
  · intro k' hk' hclean
    refine h.stored k' hk' fun j hj => ?_
    by_cases e : j = i
    · subst j
      exact hdirty
    · have := hclean j
      simp only [goto, set, update_of_ne e] at this
      exact this hj

omit [DecidableEq ι] in
/-- While a session holds the buffer `i`, no other one is reading into it. -/
theorem Good.fresh_ne [Fintype ι] (h : Good s) {t u : ι} {k k' : Key} {i j : Fin NBUF} {ph : Phase}
    (hp : s.pc t = .on k i ph) (ho : ph.owns = true) (hu : s.pc u = .on k' j .fresh) (hne : u ≠ t) :
    j ≠ i := by
  rintro rfl
  exact hne (h.owner_unique (i := j) (by simp [hp, Pc.owns, ho]) (by simp [hu, Pc.owns, Phase.owns]))

omit [DecidableEq ι] in
/-- The holder of the buffer `i` changes it, its block on the disk, or what was last stored there. -/
theorem Shows.update [Fintype ι] (h : Shows K disk tr s) (hg : Good s) {t : ι} {k : Key} {i : Fin NBUF}
    {ph : Phase} {x : Entry ι δ} (hp : s.pc t = .on k i ph)
    (hbuf : s'.buf = update s.buf i x) (hkey : x.key = (s.buf i).key)
    (hasked : ∀ u k', s'.pc u = .get k' → k' ∈ K)
    (hlatest : ∀ k', k' ≠ k → latest disk k' (tr ++ es) = latest disk k' tr)
    (hcached : x.valid = true → x.data = latest disk k (tr ++ es))
    (hfetched : ∀ u k' j, s'.pc u = .on k' j .fresh →
      j = i ∧ k' = k ∧ x.data = latest disk k (tr ++ es) ∨ j ≠ i ∧ s.pc u = .on k' j .fresh)
    (hdisk : ∀ k' ∈ K, k' ≠ k → s'.disk (sector k'.2) = s.disk (sector k'.2))
    (hstored : k ∈ K → x.dirty = false → s'.disk (sector k.2) = latest disk k (tr ++ es)) :
    Shows K disk (tr ++ es) s' := by
  have hk := (hg.label t k i ph hp).1
  have hi : s'.buf i = x := by rw [hbuf, update_self]
  have hj : ∀ j, j ≠ i → s'.buf j = s.buf j := fun j e => by rw [hbuf, update_of_ne e]
  have hdev : x.dev = (s.buf i).dev := congrArg fst hkey
  refine ⟨?_, hasked, ?_, ?_, ?_⟩
  · intro j hd
    by_cases e : j = i
    · subst j
      rw [hi] at hd ⊢
      rw [hkey]
      exact h.known i (hdev ▸ hd)
    · rw [hj j e] at hd ⊢
      exact h.known j hd
  · intro j hd hv
    by_cases e : j = i
    · subst j
      rw [hi] at hv ⊢
      rw [hkey, hk]
      exact hcached hv
    · rw [hj j e] at hd hv ⊢
      rw [hlatest _ fun e' => e ((hg.key_eq_iff hp j).1 e')]
      exact h.cached j hd hv
  · intro u k' j hu
    obtain ⟨rfl, rfl, hx⟩ | ⟨e, hu'⟩ := hfetched u k' j hu
    · rw [hi, hx]
    · have hne : k' ≠ k := by
        rintro rfl
        exact e ((hg.key_eq_iff hp j).1 (hg.label u k' j .fresh hu').1)
      rw [hj j e, hlatest k' hne]
      exact h.fetched u k' j hu'
  · intro k' hK hclean
    by_cases e : k' = k
    · subst k'
      have := hclean i
      rw [hi, hkey] at this
      exact hstored hK (this hk)
    · rw [hdisk k' hK e, hlatest k' e]
      refine h.stored k' hK fun j hjk => ?_
      have hji : j ≠ i := fun e' => e (hjk.symm.trans (e' ▸ hk))
      have := hclean j
      rw [hj j hji] at this
      exact this hjk

omit [DecidableEq ι] in
theorem Shows.on_disk [Fintype ι] (h : Shows K disk tr s) (hg : Good s) {t : ι} {k : Key} {i : Fin NBUF}
    {ph : Phase} (hp : s.pc t = .on k i ph) (hK : k ∈ K) (hd : (s.buf i).dirty = false) :
    s.disk (sector k.2) = latest disk k tr :=
  h.stored k hK fun j hj => by rw [(hg.key_eq_iff hp j).1 hj, hd]

omit [DecidableEq ι] in
/-- The key of a session that uses a buffer is known. -/
theorem Shows.known_of_on [Fintype ι] (h : Shows K disk tr s) (hg : Good s) {t : ι} {k : Key}
    {i : Fin NBUF} {ph : Phase} (hp : s.pc t = .on k i ph) : k ∈ K := by
  obtain ⟨hk, hne⟩ := hg.label t k i ph hp
  rw [← hk]
  refine h.known i ?_
  rwa [← congrArg fst hk] at hne

/-- The session `t` moves to `c`, which is not before `bget`. -/
theorem Shows.asked_goto (h : Shows K disk tr s) {t : ι} {c : Pc} (hc : ∀ k, c ≠ .get k) (u : ι)
    (k : Key) (hu : Function.update s.pc t c u = .get k) : k ∈ K := by
  by_cases e : u = t
  · subst u
    rw [update_self] at hu
    exact absurd hu (hc k)
  · rw [update_of_ne e] at hu
    exact h.asked u k hu

/-- What a step of a machine leaves on the disk and in the buffers. -/
theorem Step.shows [Fintype ι] (st : Step s es s') (hg : Good s) (ha : Apart K)
    (hc : calls es ⊆ K) (h : Shows K disk tr s) : Shows K disk (tr ++ es) s' := by
  cases st with
  | @call t k hp hk =>
    refine h.frame (fun i => ⟨rfl, rfl, rfl, rfl⟩) rfl ?_ ?_ fun k' => latest_append_call t k' k
    · intro u k' hu
      by_cases e : u = t
      · subst u
        simp only [goto, update_self] at hu
        cases hu
        exact hc ⟨t, by simp⟩
      · exact h.asked u k' (by simpa [goto, e] using hu)
    · intro u k' j hu
      by_cases e : u = t
      · subst u
        simp [goto] at hu
      · simpa [goto, e] using hu
  | @bget s₁ t k i hp hget =>
    obtain ⟨-, rfl⟩ | ⟨-, hz, rfl⟩ := bget_cases hg.linked hget
    · refine h.move ?_ ?_ ?_ ?_ ?_ ?_ fun k' => by rw [append_nil]
      all_goals simp [Entry.key]
    · exact h.relabel hg hp hz
  | @hit t k i hp hv =>
    have hset : Shows K disk (tr ++ _) ((s.set i (s.buf i)).goto t (.on k i .held)) :=
      h.move rfl rfl rfl rfl (by simp) (by simp) fun k' => latest_append_bread t k' k (s.buf i).data
    rwa [set_self] at hset
  | @acquiresleep t k i hp hl | @releasesleep t k i hp =>
    exact h.move rfl rfl rfl rfl (by simp) (by simp) fun k' => by rw [append_nil]
  | @brelse t k i hp hw =>
    have hset : Shows K disk (tr ++ []) ((s.set i { s.buf i with refcnt := (s.buf i).refcnt - 1 }).goto t .idle) :=
      h.move rfl rfl rfl rfl (by simp) (by simp) fun k' => by rw [append_nil]
    simp only [Bcache.brelse]
    split
    · exact ⟨hset.known, hset.asked, hset.cached, hset.fetched, hset.stored⟩
    · exact hset
  | @read t k i hp hv =>
    have hb : (s.buf i).blockno = k.2 := congrArg snd (hg.label t k i .check hp).1
    have hd : (s.buf i).dirty = false := by
      rw [← Bool.not_eq_true]
      intro hd
      rw [(hg.clean i hd).2] at hv
      cases hv
    have hread := h.on_disk hg hp (h.known_of_on hg hp) hd
    refine h.update hg hp rfl rfl (h.asked_goto (by simp)) (fun k' _ => by rw [append_nil]) ?_ ?_
      (fun _ _ _ => rfl) fun _ _ => ?_
    · intro hx
      rw [hv] at hx
      cases hx
    · intro u k' j hu
      by_cases e : u = t
      · subst u
        simp only [goto, update_self] at hu
        cases hu
        refine .inl ⟨rfl, rfl, ?_⟩
        rw [append_nil, ← hread, ← hb]
      · have hu' : s.pc u = .on k' j .fresh := by simpa [goto, Bcache.diskRead, Bcache.set, e] using hu
        exact .inr ⟨hg.fresh_ne hp rfl hu' e, hu'⟩
    · rw [append_nil]
      exact hread
  | @filled t k i hp =>
    have hl : ∀ k', latest disk k' (tr ++ [.bread t k (s.buf i).data]) = latest disk k' tr :=
      fun k' => latest_append_bread t k' k _
    refine h.update hg hp rfl rfl (h.asked_goto (by simp)) (fun k' _ => hl k') (fun _ => ?_) ?_
      (fun _ _ _ => rfl) fun hK hd => ?_
    · rw [hl]
      exact h.fetched t k i hp
    · intro u k' j hu
      by_cases e : u = t
      · subst u
        simp [goto] at hu
      · have hu' : s.pc u = .on k' j .fresh := by simpa [goto, Bcache.set, e] using hu
        exact .inr ⟨hg.fresh_ne hp rfl hu' e, hu'⟩
    · rw [hl]
      exact h.on_disk hg hp hK hd
  | @store t k i d hp =>
    refine h.update hg hp rfl rfl h.asked ?_ (fun _ => ?_) ?_ (fun _ _ _ => rfl) fun _ hd => ?_
    · intro k' hne
      rw [latest_append_store, if_neg hne.symm]
    · rw [latest_append_store, if_pos rfl]
    · intro u k' j hu
      have hu' : s.pc u = .on k' j .fresh := hu
      have hut : u ≠ t := by
        rintro rfl
        rw [hp] at hu'
        cases hu'
      exact .inr ⟨hg.fresh_ne hp rfl hu' hut, hu'⟩
    · cases hd
  | @bwrite t k i hp =>
    have hk := (hg.label t k i .held hp).1
    have hb : (s.buf i).blockno = k.2 := congrArg snd hk
    have hK := h.known_of_on hg hp
    have hdata : (s.buf i).data = latest disk k tr := by
      have hd : (s.buf i).dev ≠ 0 := by
        have := (hg.label t k i .held hp).2
        rwa [← congrArg fst hk] at this
      rw [h.cached i hd (hg.full t k i hp), hk]
    refine h.update hg hp rfl rfl h.asked (fun k' _ => by rw [append_nil]) (fun _ => ?_) ?_ ?_
      fun _ _ => ?_
    · rw [append_nil]
      exact hdata
    · intro u k' j hu
      have hu' : s.pc u = .on k' j .fresh := hu
      have hut : u ≠ t := by
        rintro rfl
        rw [hp] at hu'
        cases hu'
      exact .inr ⟨hg.fresh_ne hp rfl hu' hut, hu'⟩
    · intro k' hk' hne
      have hs : sector k'.2 ≠ sector k.2 := fun hs => hne (ha hk' hK hs)
      simp only [diskWrite, hb, update_of_ne hs]
    · rw [append_nil, ← hdata]
      simp only [diskWrite, hb, update_self]
  | bpin i | @bunpin i hn hw =>
    refine h.frame (fun j => ?_) rfl h.asked (fun _ _ _ hu => hu) fun k' => by rw [append_nil]
    by_cases hj : j = i
    · subst j
      simp [Bcache.set, Entry.key]
    · simp [Bcache.set, hj]

/-- The contents along a run whose calls are within `K`. -/
theorem Runs.shows [Fintype ι] {zero : δ} (hr : Runs (init zero disk) tr s) (ha : Apart K)
    (hc : calls tr ⊆ K) : Shows K disk tr s := by
  refine (Trans.Run.invariant
    (I := fun tr s => Good s ∧ (calls tr ⊆ K → Shows K disk tr s)) ?_ ?_ hr).2 hc
  · exact ⟨good_init zero disk, fun _ => shows_init K zero disk⟩
  · rintro tr s es s' ⟨hg, h⟩ st
    refine ⟨st.good hg, fun hc => st.shows hg ha ?_ (h ?_)⟩
    · rintro k ⟨t, hm⟩
      exact hc ⟨t, mem_append_right _ hm⟩
    · rintro k ⟨t, hm⟩
      exact hc ⟨t, mem_append_left _ hm⟩

/-- What `bread` returns. -/
theorem Step.bread_eq [Fintype ι] (st : Step s es s') (hg : Good s)
    (h : Shows K disk tr s) {t : ι} {k : Key} {d : δ} (he : Event.bread t k d ∈ es) :
    d = latest disk k tr := by
  cases st with
  | @hit u k' i hp hv =>
    rw [mem_singleton] at he
    cases he
    obtain ⟨hk, hne⟩ := hg.label t k i .check hp
    rw [← congrArg fst hk] at hne
    rw [h.cached i hne hv, hk]
  | @filled u k' i hp =>
    rw [mem_singleton] at he
    cases he
    exact h.fetched t k i hp
  | call | store => simp at he
  | bget | acquiresleep | read | bwrite | releasesleep | brelse | bpin | bunpin => cases he

/-! ## Sessions alone -/

/-- The state after a session that found the buffer `i` without its block and stored `d`. -/
def stored (s : Bcache ι δ) (k : Key) (i : Fin NBUF) (d : δ) : Bcache ι δ where
  links := (s.links.unlink (.buf i)).pushFront .head (.buf i)
  buf := update s.buf i ⟨true, k.1, k.2, none, 0, d, (s.buf i).pins, false⟩
  pc := s.pc
  disk := update s.disk (sector k.2) d

/-- A session alone: it reads the block `k`, which is not in the cache, stores `d`, writes the buffer and
releases it. -/
theorem runs_stored {s : Bcache ι δ} {t : ι} {k : Key} {i : Fin NBUF} (d : δ) (hp : s.pc t = .idle)
    (hk : k.1 ≠ 0) (hl : (s.buf i).lock = none)
    (hfirst : s.first (fun i => (s.buf i).dev == k.1 && (s.buf i).blockno == k.2) = none)
    (hlast : s.last (fun i => (s.buf i).refcnt == 0) = some (.buf i)) :
    Runs s [.call t k, .bread t k (s.disk (sector k.2)), .store t k d] (s.stored k i d) := by
  have hget : (s.goto t (.get k)).bget k = some (i, (s.goto t (.get k)).set i
      { s.buf i with dev := k.1, blockno := k.2, valid := false, refcnt := 1 }) := by
    have hf : (s.goto t (.get k)).first (fun i => (s.buf i).dev == k.1 && (s.buf i).blockno == k.2) =
      none := hfirst
    have hl : (s.goto t (.get k)).last (fun i => (s.buf i).refcnt == 0) = some (.buf i) := hlast
    simp only [bget, goto] at hf hl ⊢
    rw [hf]
    simp only
    rw [hl]
  have r := (Trans.Run.refl : Runs s [] s)
    |>.tail (.call (t := t) hp hk)
    |>.tail (.bget (t := t) (by simp [goto]) hget)
    |>.tail (.acquiresleep (t := t) (k := k) (i := i) (by simp [goto]) (by simpa [goto, set] using hl))
    |>.tail (.read (t := t) (k := k) (i := i) (by simp [goto]) (by simp [goto, set]))
    |>.tail (.filled (t := t) (k := k) (i := i) (by simp [goto]))
    |>.tail (.store (t := t) (k := k) (i := i) d (by simp [goto]))
    |>.tail (.bwrite (t := t) (k := k) (i := i) (by simp [goto, set]))
    |>.tail (.releasesleep (t := t) (k := k) (i := i) (by simp [goto, set, diskWrite]))
    |>.tail (.brelse (t := t) (k := k) (i := i) (by simp [goto]) (by simp [Written, goto, set, diskWrite]))
  have hpc : update s.pc t .idle = s.pc := by rw [← hp, update_eq_self]
  simpa [goto, set, diskRead, diskWrite, brelse, stored, hpc] using r

theorem runs_hit {s : Bcache ι δ} {t : ι} {k : Key} {i : Fin NBUF} (hp : s.pc t = .idle) (hk : k.1 ≠ 0)
    (hl : (s.buf i).lock = none) (hv : (s.buf i).valid = true)
    (hfirst : s.first (fun i => (s.buf i).dev == k.1 && (s.buf i).blockno == k.2) = some (.buf i)) :
    ∃ s' s'', Runs s [.call t k] s' ∧ Step s' [.bread t k (s.buf i).data] s'' := by
  have hget : (s.goto t (.get k)).bget k = some (i, (s.goto t (.get k)).set i
      { s.buf i with refcnt := (s.buf i).refcnt + 1 }) := by
    have hf : (s.goto t (.get k)).first (fun i => (s.buf i).dev == k.1 && (s.buf i).blockno == k.2) =
      some (.buf i) := hfirst
    simp only [bget, goto] at hf ⊢
    rw [hf]
  have r := (Trans.Run.refl : Runs s [] s)
    |>.tail (.call (t := t) hp hk)
    |>.tail (.bget (t := t) (by simp [goto]) hget)
    |>.tail (.acquiresleep (t := t) (k := k) (i := i) (by simp [goto]) (by simpa [goto, set] using hl))
  obtain ⟨s', r, hp', hv', hd⟩ : ∃ s', Runs s [.call t k] s' ∧ s'.pc t = .on k i .check ∧
      (s'.buf i).valid = true ∧ (s'.buf i).data = (s.buf i).data :=
    ⟨_, r, by simp [goto], by simpa [goto, set] using hv, by simp [goto, set]⟩
  have st := Step.hit hp' hv'
  rw [hd] at st
  exact ⟨s', _, r, st⟩

/-- In every run of the cache the links are one circle of the head and all buffers; two buffers with one
key have never been given to a block; `refcnt` counts the uses between the section of `bget` and that of
`brelse`, and the pins; a buffer goes to another block only without references; and `bread` returns what
was last stored, if the blocks in use lie at different sectors. -/
theorem refines_disk [Fintype ι] (zero : δ) (disk : ℕ → δ) (tr : List (Event ι δ)) (s : Bcache ι δ)
    (hr : Runs (init zero disk) tr s) :
    (∃ l : List (Fin NBUF), l.Nodup ∧ (∀ i, i ∈ l) ∧ s.links.Circle .head (l.map .buf)) ∧
    (∀ i j, i ≠ j → (s.buf i).key = (s.buf j).key → (s.buf i).dev = 0) ∧
    (∀ i, (s.buf i).refcnt = (s.users i).card + (s.buf i).pins) ∧
    (∀ es s', Step s es s' → ∀ i, (s'.buf i).key ≠ (s.buf i).key → (s.buf i).refcnt = 0) ∧
    (Apart (calls tr) → ∀ es s', Step s es s' → ∀ t k d, Event.bread t k d ∈ es →
      d = latest disk k tr) := by
  have hg := Runs.good hr
  refine ⟨hg.linked, ?_, hg.counted, ?_, ?_⟩
  · intro i j hij hk
    by_contra hd
    exact hij (hg.distinct i j hd hk)
  · intro es s' st i hne
    exact st.relabel hg hne
  · intro ha es s' st t k d he
    exact st.bread_eq hg (Runs.shows hr ha subset_rfl) he

/-- One process reads block 5 of device 1, stores 1 in it, and reads it again. -/
theorem refines_disk_one_block :
    ∃ s : Bcache Unit ℕ, Runs (init 0 fun _ => 0)
        [.call () (1, 5), .bread () (1, 5) 0, .store () (1, 5) 1, .call () (1, 5)] s ∧
      (∃ es s', Step s es s' ∧ Event.bread () (1, 5) 1 ∈ es) ∧
      ∀ es s', Step s es s' → ∀ d, Event.bread () (1, 5) d ∈ es → d = 1 := by
  have h₁ := runs_stored (s := init 0 fun _ => 0) (t := ()) (k := (1, 5)) (i := Fin.ofNat NBUF 0) 1 rfl
    (by decide) rfl (by decide +kernel) (by decide +kernel)
  obtain ⟨s, s', h₂, st⟩ := runs_hit (s := (init 0 fun _ => 0).stored (1, 5) (Fin.ofNat NBUF 0) 1)
    (t := ()) (k := (1, 5)) (i := Fin.ofNat NBUF 0) rfl (by decide) (by decide +kernel) (by decide +kernel)
    (by decide +kernel)
  have hd : (((init 0 fun _ => 0 : Bcache Unit ℕ).stored (1, 5) (Fin.ofNat NBUF 0) 1).buf
      (Fin.ofNat NBUF 0)).data = 1 := by decide +kernel
  rw [hd] at st
  refine ⟨s, h₁.trans h₂, ⟨_, _, st, by simp⟩, ?_⟩
  intro es s' st d he
  refine (refines_disk 0 (fun _ => 0) _ s (h₁.trans h₂)).2.2.2.2 ?_ es s' st () (1, 5) d he
  rintro k ⟨t, hk⟩ k' ⟨t', hk'⟩ -
  simp only [List.cons_append, List.nil_append, List.mem_cons, Event.call.injEq, reduceCtorEq,
    List.not_mem_nil, or_false, false_or] at hk hk'
  rcases hk with ⟨-, rfl⟩ | ⟨-, rfl⟩ <;> rcases hk' with ⟨-, rfl⟩ | ⟨-, rfl⟩ <;> rfl

/-- At boot all buffers have device 0 and block 0. And the driver does not look at the device: the
block 5 read as block 5 of device 2 is the one stored under device 1, and when it is stored again under
device 2 the buffer of device 1 keeps the old bytes. -/
theorem same_key_at_boot :
    (∃ s : Bcache Unit ℕ, Runs (init 0 fun _ => 0) [] s ∧ ∃ i j, i ≠ j ∧ (s.buf i).key = (s.buf j).key) ∧
    ∃ (s : Bcache Unit ℕ) (es : _) (s' : _), Runs (init 0 fun _ => 0)
        [.call () (1, 5), .bread () (1, 5) 0, .store () (1, 5) 1,
        .call () (2, 5), .bread () (2, 5) 1, .store () (2, 5) 2, .call () (1, 5)] s ∧
      Step s es s' ∧ Event.bread () (1, 5) 1 ∈ es := by
  refine ⟨⟨_, .refl, Fin.ofNat NBUF 0, Fin.ofNat NBUF 1, by decide, rfl⟩, ?_⟩
  have h₁ := runs_stored (s := init 0 fun _ => 0) (t := ()) (k := (1, 5)) (i := Fin.ofNat NBUF 0) 1 rfl
    (by decide) rfl (by decide +kernel) (by decide +kernel)
  have h₂ := runs_stored (s := (init 0 fun _ => 0).stored (1, 5) (Fin.ofNat NBUF 0) 1) (t := ())
    (k := (2, 5)) (i := Fin.ofNat NBUF 1) 2 rfl (by decide) (by decide +kernel) (by decide +kernel)
    (by decide +kernel)
  obtain ⟨s, s', h₃, st⟩ := runs_hit
    (s := ((init 0 fun _ => 0).stored (1, 5) (Fin.ofNat NBUF 0) 1).stored (2, 5) (Fin.ofNat NBUF 1) 2)
    (t := ()) (k := (1, 5)) (i := Fin.ofNat NBUF 0) rfl (by decide) (by decide +kernel) (by decide +kernel)
    (by decide +kernel)
  have hd : ((((init 0 fun _ => 0 : Bcache Unit ℕ).stored (1, 5) (Fin.ofNat NBUF 0) 1).stored (2, 5)
      (Fin.ofNat NBUF 1) 2).buf (Fin.ofNat NBUF 0)).data = 1 := by decide +kernel
  rw [hd] at st
  have hdisk : ((init 0 fun _ => 0 : Bcache Unit ℕ).stored (1, 5) (Fin.ofNat NBUF 0) 1).disk
      (sector 5) = 1 := by decide +kernel
  refine ⟨s, _, s', ?_, st, by simp⟩
  have r := (h₁.trans h₂).trans h₃
  rw [hdisk] at r
  exact r

end Xv6.Bcache
