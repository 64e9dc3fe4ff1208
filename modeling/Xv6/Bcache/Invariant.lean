import Xv6.Bcache.Machine

/-!
# The invariant of the buffer cache

The links stay one circle, `refcnt` counts the references, and a buffer changes its block only when it
has no references.
-/

namespace Xv6.Bcache

open Dlist List Pc
open Function (update update_self update_of_ne)

/-! ## The list -/

/-- The links form one circle of the head and all buffers. -/
def Linked (s : Links Node) : Prop :=
  ∃ l : List (Fin NBUF), l.Nodup ∧ (∀ i, i ∈ l) ∧ s.Circle .head (l.map .buf)

/-- `binit` puts each buffer in front of the earlier ones. -/
theorem circle_pushAll {s : Links Node} {l m : List (Fin NBUF)} (hn : (l.reverse ++ m).Nodup)
    (hs : s.Circle .head (m.map .buf)) :
    (l.foldl (fun s i => s.pushFront .head (.buf i)) s).Circle .head ((l.reverse ++ m).map .buf) := by
  induction l generalizing s m with
  | nil => exact hs
  | cons i l ih =>
    have e : (i :: l).reverse ++ m = l.reverse ++ (i :: m) := by simp
    rw [e] at hn ⊢
    have him : i ∉ m := (nodup_cons.1 (nodup_append'.1 hn).2.1).1
    exact ih hn (hs.pushFront (by simpa using him))

theorem linked_binit : Linked binit := by
  have hbase : Links.Circle (⟨fun _ => .head, fun _ => .head⟩ : Links Node) .head [] :=
    ⟨isChain_cons_cons.2 ⟨⟨rfl, rfl⟩, .singleton _⟩, nodup_singleton _⟩
  refine ⟨(List.finRange NBUF).reverse ++ [], ?_, by simp, ?_⟩
  · simpa using nodup_reverse.2 (nodup_finRange NBUF)
  · exact circle_pushAll (by simpa using nodup_reverse.2 (nodup_finRange NBUF)) hbase

/-- The buffer `i` goes to the front. -/
theorem Linked.toFront {s : Links Node} (h : Linked s) (i : Fin NBUF) :
    Linked ((s.unlink (.buf i)).pushFront .head (.buf i)) := by
  obtain ⟨l, hn, hall, hc⟩ := h
  obtain ⟨l₁, l₂, rfl⟩ := append_of_mem (hall i)
  rw [map_append, map_cons] at hc
  refine ⟨i :: (l₁ ++ l₂), nodup_middle.1 hn, fun j => ?_, ?_⟩
  · have := hall j
    grind
  · simpa using hc.toFront

theorem length_of_complete {l : List (Fin NBUF)} (hn : l.Nodup) (hall : ∀ i, i ∈ l) :
    l.length = NBUF := by
  have h : l.toFinset = Finset.univ := Finset.eq_univ_iff_forall.2 fun i => mem_toFinset.2 (hall i)
  rw [← toFinset_card_of_nodup hn, h, Finset.card_univ, Fintype.card_fin]

/-- What a walk that meets the buffers in the order `l` finds. -/
theorem find_sat {l : List (Fin NBUF)} (hall : ∀ i, i ∈ l) (p : Fin NBUF → Bool) :
    (∃ i, p i = true ∧ (l.map Node.buf).find? (Node.sat p) = some (.buf i)) ∨
      (∀ i, p i = false) ∧ (l.map Node.buf).find? (Node.sat p) = none := by
  rw [List.find?_map]
  cases hf : l.find? (Node.sat p ∘ Node.buf) with
  | some i => exact .inl ⟨i, List.find?_some hf, rfl⟩
  | none =>
    refine .inr ⟨fun i => ?_, rfl⟩
    simpa [Node.sat] using List.find?_eq_none.1 hf i (hall i)

variable {ι δ : Type} [DecidableEq ι] {s : Bcache ι δ}

omit [DecidableEq ι] in
/-- The walk over `next` finds a buffer if there is one. -/
theorem Linked.first (h : Linked s.links) (p : Fin NBUF → Bool) :
    (∃ i, p i = true ∧ s.first p = some (.buf i)) ∨ (∀ i, p i = false) ∧ s.first p = none := by
  obtain ⟨l, hn, hall, hc⟩ := h
  have hw := hc.find_next (Node.sat p)
  rw [length_map, length_of_complete hn hall] at hw
  rw [Bcache.first, hw]
  exact find_sat hall p

omit [DecidableEq ι] in
/-- So does the walk over `prev`. -/
theorem Linked.last (h : Linked s.links) (p : Fin NBUF → Bool) :
    (∃ i, p i = true ∧ s.last p = some (.buf i)) ∨ (∀ i, p i = false) ∧ s.last p = none := by
  obtain ⟨l, hn, hall, hc⟩ := h
  have hw := hc.find_prev (Node.sat p)
  rw [length_map, length_of_complete hn hall, ← map_reverse] at hw
  rw [Bcache.last, hw]
  exact find_sat (fun i => mem_reverse.2 (hall i)) p

omit [DecidableEq ι] in
/-- `bget` takes a reference to the buffer of `k`, or gives a buffer without references to `k` when no
buffer has it. -/
theorem bget_cases {k : Key} {i : Fin NBUF} {s' : Bcache ι δ} (hl : Linked s.links)
    (hg : s.bget k = some (i, s')) :
    ((s.buf i).key = k ∧ s' = s.set i { s.buf i with refcnt := (s.buf i).refcnt + 1 }) ∨
    ((∀ j, (s.buf j).key ≠ k) ∧ (s.buf i).refcnt = 0 ∧
      s' = s.set i { s.buf i with dev := k.1, blockno := k.2, valid := false, refcnt := 1 }) := by
  rw [Bcache.bget] at hg
  rcases hl.first fun i => (s.buf i).dev == k.1 && (s.buf i).blockno == k.2 with
    ⟨j, hj, hf⟩ | ⟨hno, hf⟩
  · rw [hf] at hg
    cases hg
    refine .inl ⟨?_, rfl⟩
    simp only [Bool.and_eq_true, beq_iff_eq] at hj
    exact Prod.ext hj.1 hj.2
  · rw [hf] at hg
    have hmiss : ∀ j, (s.buf j).key ≠ k := by
      rintro j rfl
      simpa [Entry.key] using hno j
    rcases hl.last fun i => (s.buf i).refcnt == 0 with ⟨j, hj, hf⟩ | ⟨-, hf⟩
    · rw [hf] at hg
      cases hg
      exact .inr ⟨hmiss, by simpa using hj, rfl⟩
    · rw [hf] at hg
      cases hg

/-- A session is at one buffer only. -/
theorem Pc.elsewhere {k : Key} {i j : Fin NBUF} (ph : Phase) (hj : j ≠ i) :
    (on k i ph).uses j = false ∧ (on k i ph).owns j = false := by
  simp [uses, owns, hj.symm]

omit [DecidableEq ι] in
/-- A buffer keeps its block. -/
theorem key_update {i : Fin NBUF} {x : Entry ι δ} (hx : x.key = (s.buf i).key) (j : Fin NBUF) :
    (update s.buf i x j).key = (s.buf j).key := by
  by_cases hj : j = i
  · subst j
    rw [update_self, hx]
  · rw [update_of_ne hj]

/-! ## The references -/

section users

variable [Fintype ι]

/-- The sessions at `i`, with `t` apart. -/
theorem card_uses (f : ι → Pc) (t : ι) (i : Fin NBUF) :
    (Finset.univ.filter fun u => (f u).uses i).card =
      ((f t).uses i).toNat + ∑ u ∈ Finset.univ.erase t, ((f u).uses i).toNat := by
  rw [Finset.card_filter, ← Finset.add_sum_erase _ _ (Finset.mem_univ t)]
  congr 1
  · cases (f t).uses i <;> rfl
  · exact Finset.sum_congr rfl fun u _ => by cases (f u).uses i <;> rfl

/-- A session that moves leaves one buffer and enters another. -/
theorem card_users_goto (t : ι) (c : Pc) (i : Fin NBUF) :
    ((s.goto t c).users i).card + ((s.pc t).uses i).toNat = (s.users i).card + (c.uses i).toNat := by
  have hold : (s.users i).card = _ := card_uses s.pc t i
  have hnew : ((s.goto t c).users i).card = _ := card_uses (update s.pc t c) t i
  have hrest : ∑ u ∈ Finset.univ.erase t, ((update s.pc t c u).uses i).toNat =
      ∑ u ∈ Finset.univ.erase t, ((s.pc u).uses i).toNat :=
    Finset.sum_congr rfl fun u hu => by rw [update_of_ne (Finset.ne_of_mem_erase hu)]
  rw [hrest, update_self] at hnew
  omega

omit [DecidableEq ι] in
theorem mem_users {t : ι} {i : Fin NBUF} : t ∈ s.users i ↔ (s.pc t).uses i = true := by
  simp [users]

end users

/-! ## The invariant -/

/-- What holds between two steps. -/
structure Good [Fintype ι] (s : Bcache ι δ) : Prop where
  linked : Linked s.links
  distinct : ∀ i j, (s.buf i).dev ≠ 0 → (s.buf i).key = (s.buf j).key → i = j
  counted : ∀ i, (s.buf i).refcnt = (s.users i).card + (s.buf i).pins
  owner : ∀ i t, (s.buf i).lock = some t ↔ (s.pc t).owns i = true
  wants : ∀ t k, s.pc t = .get k → k.1 ≠ 0
  label : ∀ t k i ph, s.pc t = .on k i ph → (s.buf i).key = k ∧ k.1 ≠ 0
  full : ∀ t k i, s.pc t = .on k i .held → (s.buf i).valid = true
  clean : ∀ i, (s.buf i).dirty = true → 0 < (s.buf i).refcnt ∧ (s.buf i).valid = true

omit [DecidableEq ι] in
theorem good_init [Fintype ι] (zero : δ) (disk : ℕ → δ) : Good (init zero disk : Bcache ι δ) where
  linked := linked_binit
  distinct _ _ h := absurd rfl h
  counted i := by simp [init, users, uses]
  owner i t := by simp [init, owns]
  wants t k h := by simp [init] at h
  label t k i ph h := by simp [init] at h
  full t k i h := by simp [init] at h
  clean i h := by simp [init] at h

namespace Good

variable [Fintype ι] {t : ι} {k : Key} {i : Fin NBUF} {c : Pc} {x : Entry ι δ}

omit [DecidableEq ι] in
/-- A buffer that a session uses has a reference. -/
theorem refcnt_pos (h : Good s) {ph : Phase} (hp : s.pc t = .on k i ph) : 0 < (s.buf i).refcnt := by
  have hm : t ∈ s.users i := mem_users.2 (by simp [hp, uses])
  have := Finset.card_pos.2 ⟨t, hm⟩
  rw [h.counted i]
  omega

/-- The session `t` moves, the buffer `i` becomes `x`, and no other buffer sees a difference. -/
theorem move (h : Good s)
    (hother : ∀ j, j ≠ i → c.uses j = (s.pc t).uses j ∧ c.owns j = (s.pc t).owns j)
    (hkey : x.key = (s.buf i).key ∨ (s.buf i).refcnt = 0 ∧ ∀ j, (s.buf j).key ≠ x.key)
    (hcount : x.refcnt + ((s.pc t).uses i).toNat = (s.users i).card + (c.uses i).toNat + x.pins)
    (hlock : ∀ u, x.lock = some u ↔ (update s.pc t c u).owns i = true)
    (hwants : ∀ k, c = .get k → k.1 ≠ 0)
    (hlabel : ∀ k j ph, c = .on k j ph → j = i ∧ x.key = k ∧ k.1 ≠ 0)
    (hvalid : (s.buf i).valid = true → x.valid = true ∨ (s.buf i).refcnt = 0)
    (hfull : ∀ k j, c = .on k j .held → x.valid = true)
    (hclean : x.dirty = true → 0 < x.refcnt ∧ x.valid = true) :
    Good ((s.set i x).goto t c) := by
  have hbuf : ∀ j, j ≠ i → ((s.set i x).goto t c).buf j = s.buf j := fun j hj =>
    update_of_ne hj ..
  have hbufi : ((s.set i x).goto t c).buf i = x := update_self ..
  have hpc : ((s.set i x).goto t c).pc t = c := update_self ..
  have hpcu : ∀ u, u ≠ t → ((s.set i x).goto t c).pc u = s.pc u := fun u hu =>
    update_of_ne hu ..
  -- a session that uses `i` keeps its label
  have hstay : ∀ u k' ph, s.pc u = .on k' i ph → x.key = (s.buf i).key := by
    intro u k' ph hu
    have := h.refcnt_pos hu
    rcases hkey with hk | ⟨hz, -⟩
    · exact hk
    · omega
  refine ⟨h.linked, ?_, ?_, ?_, ?_, ?_, ?_, ?_⟩
  · intro a b ha hab
    by_cases hai : a = i <;> by_cases hbi : b = i
    · rw [hai, hbi]
    · subst a
      rw [hbufi] at ha hab
      rw [hbuf b hbi] at hab
      rcases hkey with hk | ⟨-, hno⟩
      · have hd : x.dev = (s.buf i).dev := congrArg Prod.fst hk
        exact h.distinct i b (hd ▸ ha) (hk ▸ hab)
      · exact absurd hab.symm (hno b)
    · subst b
      rw [hbufi, hbuf a hai] at hab
      rw [hbuf a hai] at ha
      rcases hkey with hk | ⟨-, hno⟩
      · exact h.distinct a i ha (hab.trans hk)
      · exact absurd hab (hno a)
    · rw [hbuf a hai] at ha hab
      rw [hbuf b hbi] at hab
      exact h.distinct a b ha hab
  · intro j
    have hcard := card_users_goto (s := s.set i x) t c j
    change _ + ((s.pc t).uses j).toNat = (s.users j).card + _ at hcard
    by_cases hj : j = i
    · subst j
      rw [hbufi]
      omega
    · rw [hbuf j hj, h.counted j]
      rw [(hother j hj).1] at hcard
      omega
  · intro j u
    by_cases hj : j = i
    · subst j
      rw [hbufi]
      exact hlock u
    · rw [hbuf j hj, h.owner j u]
      by_cases hu : u = t
      · subst u
        rw [hpc, (hother j hj).2]
      · rw [hpcu u hu]
  · intro u k' hu
    by_cases e : u = t
    · subst u
      exact hwants k' (hpc ▸ hu)
    · exact h.wants u k' (hpcu u e ▸ hu)
  · intro u k' j ph hu
    by_cases e : u = t
    · subst u
      obtain ⟨rfl, hk, hne⟩ := hlabel k' j ph (hpc ▸ hu)
      rw [hbufi]
      exact ⟨hk, hne⟩
    · rw [hpcu u e] at hu
      obtain ⟨hk, hne⟩ := h.label u k' j ph hu
      by_cases hj : j = i
      · subst j
        rw [hbufi, hstay u k' ph hu]
        exact ⟨hk, hne⟩
      · rw [hbuf j hj]
        exact ⟨hk, hne⟩
  · intro u k' j hu
    by_cases e : u = t
    · subst u
      rw [hpc] at hu
      obtain ⟨rfl, -, -⟩ := hlabel k' j _ hu
      rw [hbufi]
      exact hfull k' j hu
    · rw [hpcu u e] at hu
      have hv := h.full u k' j hu
      by_cases hj : j = i
      · subst j
        have := h.refcnt_pos hu
        rw [hbufi]
        rcases hvalid hv with hx | hz
        · exact hx
        · omega
      · rw [hbuf j hj]
        exact hv
  · intro j
    by_cases hj : j = i
    · subst j
      rw [hbufi]
      exact hclean
    · rw [hbuf j hj]
      exact h.clean j

omit [DecidableEq ι] in
/-- The same for a step that moves no session. -/
theorem set (h : Good s) (hkey : x.key = (s.buf i).key)
    (hcount : x.refcnt = (s.users i).card + x.pins) (hlock : x.lock = (s.buf i).lock)
    (hvalid : (s.buf i).valid = true → x.valid = true)
    (hclean : x.dirty = true → 0 < x.refcnt ∧ x.valid = true) : Good (s.set i x) := by
  have hbuf : ∀ j, j ≠ i → (s.set i x).buf j = s.buf j := fun j hj => update_of_ne hj ..
  have hbufi : (s.set i x).buf i = x := update_self ..
  have hk : ∀ j, ((s.set i x).buf j).key = (s.buf j).key := key_update hkey
  refine ⟨h.linked, ?_, ?_, ?_, h.wants, ?_, ?_, ?_⟩
  · intro a b ha hab
    rw [hk, hk] at hab
    have hd : ((s.set i x).buf a).dev = (s.buf a).dev := congrArg Prod.fst (hk a)
    exact h.distinct a b (hd ▸ ha) hab
  · intro j
    by_cases hj : j = i
    · subst j
      rw [hbufi]
      exact hcount
    · rw [hbuf j hj]
      exact h.counted j
  · intro j u
    refine Iff.trans ?_ (h.owner j u)
    by_cases hj : j = i
    · subst j
      rw [hbufi, hlock]
    · rw [hbuf j hj]
  · intro u k' j ph hu
    rw [hk]
    exact h.label u k' j ph hu
  · intro u k' j hu
    have hv := h.full u k' j hu
    by_cases hj : j = i
    · subst j
      rw [hbufi]
      exact hvalid hv
    · rw [hbuf j hj]
      exact hv
  · intro j
    by_cases hj : j = i
    · subst j
      rw [hbufi]
      exact hclean
    · rw [hbuf j hj]
      exact h.clean j

omit [DecidableEq ι] in
/-- The disk is not part of the invariant. -/
theorem withDisk (h : Good s) (d : ℕ → δ) : Good { s with disk := d } :=
  ⟨h.linked, h.distinct, h.counted, h.owner, h.wants, h.label, h.full, h.clean⟩

omit [DecidableEq ι] in
theorem withLinks (h : Good s) {l : Links Node} (hl : Linked l) : Good { s with links := l } :=
  ⟨hl, h.distinct, h.counted, h.owner, h.wants, h.label, h.full, h.clean⟩

omit [DecidableEq ι] in
/-- Only the session that holds the sleep lock is at a phase that owns it. -/
theorem owner_unique (h : Good s) {u : ι} (ht : (s.pc t).owns i = true) (hu : (s.pc u).owns i = true) :
    u = t := by
  have h₁ := (h.owner i t).2 ht
  have h₂ := (h.owner i u).2 hu
  exact Option.some.inj (h₂.symm.trans h₁)

/-- The session `t` goes on in its use of the buffer `i`. -/
theorem goOn (h : Good s) {ph ph' : Phase} (hp : s.pc t = .on k i ph)
    (hkey : x.key = (s.buf i).key) (hpins : x.pins = (s.buf i).pins) (hcount : x.refcnt = (s.buf i).refcnt)
    (hlock : ∀ u, x.lock = some u ↔ (update s.pc t (.on k i ph') u).owns i = true)
    (hvalid : (s.buf i).valid = true → x.valid = true) (hfull : ph' = .held → x.valid = true)
    (hdirty : x.dirty = (s.buf i).dirty) : Good ((s.set i x).goto t (.on k i ph')) := by
  obtain ⟨hk, hne⟩ := h.label t k i ph hp
  refine h.move ?_ (.inl hkey) ?_ hlock ?_ ?_ (fun hv => .inl (hvalid hv)) ?_ ?_
  · intro j hj
    simp [hp, elsewhere _ hj]
  · have := h.counted i
    simp only [hp, uses, beq_self_eq_true]
    omega
  · intro k' e
    cases e
  · intro k' j ph'' e
    cases e
    exact ⟨rfl, hkey.trans hk, hne⟩
  · intro k' j e
    cases e
    exact hfull rfl
  · intro hd
    rw [hdirty] at hd
    obtain ⟨hr, hv⟩ := h.clean i hd
    exact ⟨hcount ▸ hr, hvalid hv⟩

theorem advance (h : Good s) {ph ph' : Phase} (hp : s.pc t = .on k i ph) (ho : ph'.owns = ph.owns)
    (hkey : x.key = (s.buf i).key) (hpins : x.pins = (s.buf i).pins)
    (hcount : x.refcnt = (s.buf i).refcnt) (hlock : x.lock = (s.buf i).lock)
    (hvalid : (s.buf i).valid = true → x.valid = true) (hfull : ph' = .held → x.valid = true)
    (hdirty : x.dirty = (s.buf i).dirty) : Good ((s.set i x).goto t (.on k i ph')) := by
  refine h.goOn hp hkey hpins hcount (fun u => ?_) hvalid hfull hdirty
  rw [hlock, h.owner i u]
  by_cases hu : u = t
  · subst u
    simp [hp, owns, ho]
  · rw [update_of_ne hu]

end Good

omit [DecidableEq ι] in
theorem set_self (i : Fin NBUF) : s.set i (s.buf i) = s := by
  simp [set]

theorem Step.good [Fintype ι] {es : List (Event ι δ)} {s' : Bcache ι δ} (st : Step s es s') (h : Good s) :
    Good s' := by
  cases st with
  | @call t k hp hk =>
    have h0 : 0 < NBUF := by decide
    rw [← set_self (s := s) ⟨0, h0⟩]
    refine h.move ?_ (.inl rfl) ?_ ?_ ?_ ?_ (fun hv => .inl hv) ?_ (h.clean _)
    · simp [hp, uses, owns]
    · simp [hp, uses, h.counted]
    · intro u
      rw [h.owner]
      by_cases hu : u = t
      · subst u
        simp [hp, owns]
      · rw [update_of_ne hu]
    · intro k' e
      cases e
      exact hk
    · intro k' j ph e
      cases e
    · intro k' j e
      cases e
  | @bget s₁ t k i hp hg =>
    have hne := h.wants t k hp
    have hcount := h.counted i
    have hlock : ∀ u, (s.buf i).lock = some u ↔
        (update s.pc t (.on k i .lock) u).owns i = true := by
      intro u
      rw [h.owner i u]
      by_cases hu : u = t
      · subst u
        simp [hp, owns, Phase.owns]
      · rw [update_of_ne hu]
    have hother : ∀ j, j ≠ i → (on k i .lock).uses j = (s.pc t).uses j ∧
        (on k i .lock).owns j = (s.pc t).owns j := by
      intro j hj
      rw [hp]
      exact elsewhere _ hj
    obtain ⟨hk, rfl⟩ | ⟨hmiss, hz, rfl⟩ := bget_cases h.linked hg
    · refine h.move hother (.inl rfl) ?_ hlock ?_ ?_ (fun hv => .inl hv) ?_ ?_
      · simp only [hp, uses, beq_self_eq_true, Bool.toNat_true, Bool.toNat_false]
        omega
      · intro k' e
        cases e
      · intro k' j ph e
        cases e
        exact ⟨rfl, hk, hne⟩
      · intro k' j e
        cases e
      · intro hd
        exact ⟨Nat.succ_pos _, (h.clean i hd).2⟩
    · refine h.move hother (.inr ⟨hz, hmiss⟩) ?_ hlock ?_ ?_ (fun _ => .inr hz) ?_ ?_
      · simp only [hp, uses, beq_self_eq_true, Bool.toNat_true, Bool.toNat_false]
        omega
      · intro k' e
        cases e
      · intro k' j ph e
        cases e
        exact ⟨rfl, rfl, hne⟩
      · intro k' j e
        cases e
      · intro hd
        have := (h.clean i hd).1
        omega
  | @acquiresleep t k i hp hl =>
    refine h.goOn hp rfl rfl rfl (fun u => ?_) id (fun e => by cases e) rfl
    by_cases hu : u = t
    · subst u
      simp [owns, Phase.owns]
    · have hno : (s.pc u).owns i = false := by
        rw [← Bool.not_eq_true, ← h.owner i u, hl]
        simp
      rw [update_of_ne hu, hno]
      simp [Ne.symm hu]
  | @hit t k i hp hv =>
    have hset : Good ((s.set i (s.buf i)).goto t (.on k i .held)) :=
      h.advance hp rfl rfl rfl rfl rfl id (fun _ => hv) rfl
    rwa [set_self] at hset
  | read hp hv => exact h.advance hp rfl rfl rfl rfl rfl id (fun e => by cases e) rfl
  | filled hp => exact h.advance hp rfl rfl rfl rfl rfl (fun _ => rfl) (fun _ => rfl) rfl
  | store d hp =>
    exact h.set rfl (h.counted _) rfl id fun _ => ⟨h.refcnt_pos hp, h.full _ _ _ hp⟩
  | @bwrite t k i hp =>
    have hset := h.set (x := { s.buf i with dirty := false }) rfl (h.counted i) rfl id (fun e => by cases e)
    exact hset.withDisk _
  | @releasesleep t k i hp =>
    refine h.goOn hp rfl rfl rfl (fun u => ?_) id (fun e => by cases e) rfl
    by_cases hu : u = t
    · subst u
      simp [owns, Phase.owns]
    · have hno : (s.pc u).owns i = false := by
        rw [← Bool.not_eq_true]
        intro ho
        exact hu (h.owner_unique (by simp [hp, owns, Phase.owns]) ho)
      rw [update_of_ne hu, hno]
      simp
  | @brelse t k i hp hw =>
    have hpos := h.refcnt_pos hp
    have hcount := h.counted i
    have hset : Good ((s.set i { s.buf i with refcnt := (s.buf i).refcnt - 1 }).goto t .idle) := by
      refine h.move ?_ (.inl rfl) ?_ ?_ ?_ ?_ (fun hv => .inl hv) ?_ ?_
      · intro j hj
        rw [hp, (elsewhere _ hj).1, (elsewhere _ hj).2]
        exact ⟨rfl, rfl⟩
      · simp only [hp, uses, beq_self_eq_true, Bool.toNat_true, Bool.toNat_false]
        omega
      · intro u
        rw [h.owner i u]
        by_cases hu : u = t
        · subst u
          simp [hp, owns, Phase.owns]
        · rw [update_of_ne hu]
      · intro k' e
        cases e
      · intro k' j ph e
        cases e
      · intro k' j e
        cases e
      · intro hd
        refine ⟨?_, (h.clean i hd).2⟩
        have : (s.buf i).refcnt ≠ 1 := fun e => by simp [hw e] at hd
        change 0 < (s.buf i).refcnt - 1
        omega
    simp only [Bcache.brelse]
    split
    · exact hset.withLinks (h.linked.toFront i)
    · exact hset
  | bpin i =>
    refine h.set rfl ?_ rfl id fun hd => ⟨Nat.succ_pos _, (h.clean i hd).2⟩
    have := h.counted i
    simp only
    omega
  | @bunpin i hn hw =>
    have hcount := h.counted i
    refine h.set rfl ?_ rfl id ?_
    · simp only
      omega
    · intro hd
      refine ⟨?_, (h.clean i hd).2⟩
      have := (h.clean i hd).1
      have : (s.buf i).refcnt ≠ 1 := fun e => by simp [hw e] at hd
      change 0 < (s.buf i).refcnt - 1
      omega

/-- The invariant holds along every run from boot. -/
theorem Runs.good [Fintype ι] {zero : δ} {disk : ℕ → δ} {tr : List (Event ι δ)}
    (hr : Runs (init zero disk) tr s) : Good s :=
  Trans.Run.invariant (I := fun _ s => Good s) (good_init zero disk) (fun _ _ _ _ h st => st.good h) hr

/-- A buffer changes its block only when it has no references. -/
theorem Step.relabel [Fintype ι] {es : List (Event ι δ)} {s' : Bcache ι δ} (st : Step s es s') (h : Good s)
    {j : Fin NBUF} (hne : (s'.buf j).key ≠ (s.buf j).key) : (s.buf j).refcnt = 0 := by
  cases st with
  | @bget s₁ t k i hp hg =>
    obtain ⟨-, rfl⟩ | ⟨-, hz, rfl⟩ := bget_cases h.linked hg
    · refine (hne (key_update ?_ j)).elim
      rfl
    · by_cases hj : j = i
      · subst j
        exact hz
      · exact absurd (by simp [goto, Bcache.set, hj]) hne
  | @brelse t k i hp hw =>
    refine absurd ?_ hne
    simp only [Bcache.brelse]
    split
    all_goals
      refine key_update ?_ j
      rfl
  | call | hit => exact absurd rfl hne
  | acquiresleep | read | filled | store | bwrite | releasesleep | bpin | bunpin =>
    refine (hne (key_update ?_ j)).elim
    rfl

end Xv6.Bcache
