import Xv6.Disk.Bio
import Mathlib.Data.List.Perm.Subperm

/-!
# What the buffer cache guarantees its users

A reader of a block sees `Store.view`: the bytes of the block's buffer, or of the disk when it is
not cached. `Cached H P s` is the invariant of the cache while its users hold the buffers `H`: no
block has two buffers, every buffer of a block has been read, and the reference count of a block
is the number of its holders plus one if it is pinned. The pinned blocks `P` are those of the log
header, except during recovery, which pins nothing.

Recycling a buffer may change the view of a block whose bytes were changed and then neither pinned
nor written. A block is `Clean` when that cannot happen. `Reads P s s'` is what reading can do: it
keeps the disk, the log and the view of every clean block. Each function of `bio.c` has one
specification, in the form of a rule for `wp`.
-/

namespace Xv6

open Function Prog List Store

variable {Q : Unit → Store → Prop}

/-- The bytes a reader of the block `b` gets. -/
def Store.view (s : Store) (b : ℕ) : Block :=
  match s.buf b with
  | some x => if x.valid then x.data else s.disk b
  | none => s.disk b

/-- The reference count of the buffer of `b`. -/
def Store.refcnt (s : Store) (b : ℕ) : ℕ :=
  match s.buf b with
  | some x => x.refcnt
  | none => 0

/-- The invariant of the cache while its users hold the buffers `H` and pin those of `P`. -/
structure Cached (H P : List ℕ) (s : Store) : Prop where
  nodup : (held s.bufs).Nodup
  valid : ∀ b x, s.buf b = some x → x.valid = true
  refs : ∀ b, s.refcnt b = H.count b + if b ∈ P then 1 else 0
  idle : ∀ x ∈ s.bufs, x.blockno = none → x.refcnt = 0

/-- The buffer of `b`, if there is one, is pinned or holds the bytes on the disk. -/
def Store.Clean (s : Store) (P : List ℕ) (b : ℕ) : Prop :=
  ∀ x, s.buf b = some x → b ∈ P ∨ x.data = s.disk b

/-- What reading can do to the store. -/
structure Reads (P : List ℕ) (s s' : Store) : Prop where
  disk : s'.disk = s.disk
  writes : s'.writes = s.writes
  start : s'.start = s.start
  outstanding : s'.outstanding = s.outstanding
  committing : s'.committing = s.committing
  lh : s'.lh = s.lh
  length : s'.bufs.length = s.bufs.length
  clean : ∀ c, s.Clean P c → s'.Clean P c
  view : ∀ c, s.Clean P c → s'.view c = s.view c

theorem Reads.refl (P : List ℕ) (s : Store) : Reads P s s :=
  ⟨rfl, rfl, rfl, rfl, rfl, rfl, rfl, fun _ h => h, fun _ _ => rfl⟩

theorem Reads.trans {P : List ℕ} {s₁ s₂ s₃ : Store} (h : Reads P s₁ s₂) (h' : Reads P s₂ s₃) : Reads P s₁ s₃ where
  disk := h'.disk.trans h.disk
  writes := h'.writes.trans h.writes
  start := h'.start.trans h.start
  outstanding := h'.outstanding.trans h.outstanding
  committing := h'.committing.trans h.committing
  lh := h'.lh.trans h.lh
  length := h'.length.trans h.length
  clean c hc := h'.clean c (h.clean c hc)
  view c hc := (h'.view c (h.clean c hc)).trans (h.view c hc)

section

variable {s : Store} {b c : ℕ} {H P : List ℕ} {f : Buf → Buf}

theorem Store.buf_touch (hf : ∀ x, (f x).blockno = x.blockno) :
    (s.touch b f).buf c = if c = b then (s.buf b).map f else s.buf c :=
  find_touch hf

theorem Store.buf_touch_self (hf : ∀ x, (f x).blockno = x.blockno) :
    (s.touch b f).buf b = (s.buf b).map f := by
  rw [buf_touch hf, if_pos rfl]

theorem Store.buf_touch_of_ne (hf : ∀ x, (f x).blockno = x.blockno) (h : c ≠ b) :
    (s.touch b f).buf c = s.buf c := by
  rw [buf_touch hf, if_neg h]

theorem view_congr {s s' : Store} (h : s'.buf c = s.buf c) (hd : s'.disk = s.disk) :
    s'.view c = s.view c := by
  unfold view
  rw [h, hd]

theorem clean_congr {s s' : Store} (h : s'.buf c = s.buf c) (hd : s'.disk = s.disk) :
    s'.Clean P c ↔ s.Clean P c := by
  unfold Clean
  rw [h, hd]

theorem refcnt_congr {s s' : Store} (h : s'.buf c = s.buf c) : s'.refcnt c = s.refcnt c := by
  unfold refcnt
  rw [h]

theorem view_of_buf {x : Buf} (h : s.buf b = some x) (hv : x.valid = true) :
    s.view b = x.data := by
  simp [view, h, hv]

theorem data_of_buf {x : Buf} (h : s.buf b = some x) : s.data b = x.data := by
  simp [data, h]

theorem view_of_none (h : s.buf b = none) : s.view b = s.disk b := by
  simp [view, h]

theorem Cached.buf_of_refcnt (h : Cached H P s) (hr : 0 < s.refcnt b) :
    ∃ x, s.buf b = some x ∧ x.valid = true ∧ 0 < x.refcnt := by
  unfold refcnt at hr
  cases hx : s.buf b with
  | none =>
    rw [hx] at hr
    cases hr
  | some x =>
    rw [hx] at hr
    exact ⟨x, rfl, h.valid b x hx, hr⟩

/-- A held block is in the cache. -/
theorem Cached.buf_of_mem (h : Cached H P s) (hb : b ∈ H) :
    ∃ x, s.buf b = some x ∧ x.valid = true ∧ 0 < x.refcnt := by
  have := count_pos_iff.2 hb
  exact h.buf_of_refcnt (by rw [h.refs]; omega)

theorem Cached.buf_of_mem_pins (h : Cached H P s) (hb : b ∈ P) :
    ∃ x, s.buf b = some x ∧ x.valid = true ∧ 0 < x.refcnt :=
  h.buf_of_refcnt (by rw [h.refs, if_pos hb]; omega)

/-- The holder of a buffer sees the view of its block. -/
theorem Cached.data_of_mem (h : Cached H P s) (hb : b ∈ H) : s.data b = s.view b := by
  obtain ⟨x, hx, hv, -⟩ := h.buf_of_mem hb
  rw [data_of_buf hx, view_of_buf hx hv]

theorem Cached.of_buf_none (h : Cached H P s) (hb : s.buf b = none) : b ∉ H ∧ b ∉ P := by
  refine ⟨fun hm => ?_, fun hm => ?_⟩
  · obtain ⟨x, hx, -⟩ := h.buf_of_mem hm
    simp [hx] at hb
  · obtain ⟨x, hx, -⟩ := h.buf_of_mem_pins hm
    simp [hx] at hb

/-- A buffer without references is held by no one and is not pinned. -/
theorem Cached.of_refcnt_zero (h : Cached H P s) {x : Buf} (hx : s.buf b = some x)
    (h0 : x.refcnt = 0) : b ∉ H ∧ b ∉ P := by
  refine ⟨fun hm => ?_, fun hm => ?_⟩
  · obtain ⟨y, hy, -, hp⟩ := h.buf_of_mem hm
    rw [hx] at hy
    cases hy
    omega
  · obtain ⟨y, hy, -, hp⟩ := h.buf_of_mem_pins hm
    rw [hx] at hy
    cases hy
    omega

/-- `bget` finds a buffer unless all of them are held or pinned. -/
theorem Cached.length_le_of_recycle_none (h : Cached H P s) (hr : recycle b s.bufs = none) :
    s.bufs.length ≤ H.length + P.length := by
  have hpos := refcnt_of_recycle_none hr
  have hsome : ∀ x ∈ s.bufs, ∃ c, x.blockno = some c := fun x hx => by
    cases hc : x.blockno with
    | none => exact absurd (h.idle x hx hc) (hpos x hx)
    | some c => exact ⟨c, rfl⟩
  have hlen : (held s.bufs).length = s.bufs.length := by
    have : ∀ l : List Buf, (∀ x ∈ l, ∃ c, x.blockno = some c) → (held l).length = l.length := by
      intro l
      induction l with
      | nil => simp [held]
      | cons x l ih =>
        intro hl
        obtain ⟨c, hc⟩ := hl x mem_cons_self
        rw [show held (x :: l) = c :: held l by simp [held, hc], length_cons,
          length_cons, ih fun y hy => hl y (mem_cons_of_mem _ hy)]
    exact this _ hsome
  have hsub : held s.bufs ⊆ H ++ P := fun c hc => by
    obtain ⟨x, hx, hxc⟩ := mem_filterMap.1 hc
    have hb : s.buf c = some x := find_of_mem h.nodup hx hxc
    have h0 := hpos x hx
    have hrc := h.refs c
    simp only [refcnt, hb] at hrc
    by_cases hm : c ∈ P
    · exact mem_append_right _ hm
    · rw [if_neg hm] at hrc
      exact mem_append_left _ (count_pos_iff.1 (by omega))
  rw [← hlen, ← length_append]
  exact (subperm_of_subset h.nodup hsub).length_le

theorem Cached.refcnt_eq (h : Cached H P s) {x : Buf} (hx : s.buf b = some x) :
    x.refcnt = H.count b + if b ∈ P then 1 else 0 := by
  have hr := h.refs b
  rwa [refcnt, hx] at hr

/-- The buffer `x` of `b` has become `y`, and all others are as they were. -/
structure Replaced (b : ℕ) (x y : Buf) (s s' : Store) : Prop where
  old : s.buf b = some x
  new : s'.buf b = some y
  other : ∀ c ≠ b, s'.buf c = s.buf c
  nodup : (held s'.bufs).Nodup
  idle : ∀ z ∈ s'.bufs, z.blockno = none → z ∈ s.bufs

theorem Cached.replaced_touch (h : Cached H P s) {x : Buf} {f : Buf → Buf} (hx : s.buf b = some x)
    (hf : ∀ x, (f x).blockno = x.blockno) : Replaced b x (f x) s (s.touch b f) where
  old := hx
  new := by rw [buf_touch_self hf, hx]; rfl
  other _ hc := buf_touch_of_ne hf hc
  nodup := by
    simp only [Store.touch]
    rw [held_touch hf]
    exact h.nodup
  idle _ hz h0 := mem_touch_of_none hf hz h0

/-- The references of `b` are counted anew. -/
theorem Replaced.cached {s' : Store} {x y : Buf} {H' P' : List ℕ} (hr : Replaced b x y s s') (h : Cached H P s)
    (hv : y.valid = true) (hb : y.refcnt = H'.count b + if b ∈ P' then 1 else 0)
    (ho : ∀ c ≠ b, H'.count c = H.count c ∧ (c ∈ P' ↔ c ∈ P)) : Cached H' P' s' := by
  refine ⟨hr.nodup, fun c z hz => ?_, fun c => ?_, fun z hz h0 => h.idle z (hr.idle z hz h0) h0⟩
  · by_cases hc : c = b
    · subst hc
      rw [hr.new] at hz
      cases hz
      exact hv
    · exact h.valid c z (by rwa [← hr.other c hc])
  · by_cases hc : c = b
    · subst hc
      rw [refcnt, hr.new]
      exact hb
    · rw [refcnt_congr (hr.other c hc), h.refs c, (ho c hc).1]
      simp only [(ho c hc).2]

theorem Replaced.view {s' : Store} {x y : Buf} (hr : Replaced b x y s s') (hx : x.valid = true)
    (hy : y.valid = true) (hd : y.data = x.data) (hs : s'.disk = s.disk) (c : ℕ) : s'.view c = s.view c := by
  by_cases hc : c = b
  · subst hc
    rw [view_of_buf hr.new hy, view_of_buf hr.old hx, hd]
  · exact view_congr (hr.other c hc) hs

theorem Replaced.clean {s' : Store} {x y : Buf} (hr : Replaced b x y s s') (hd : y.data = x.data)
    (hs : s'.disk = s.disk) {c : ℕ} (hc : s.Clean P c) : s'.Clean P c := by
  by_cases hcb : c = b
  · subst hcb
    intro z hz
    rw [hr.new] at hz
    cases hz
    rw [hs, hd]
    exact hc x hr.old
  · exact (clean_congr (hr.other c hcb) hs).2 hc

end

/-! ## Specifications -/

section Spec

variable {s : Store} {b : ℕ} {H P : List ℕ} {E : Panic → Store → Prop}

theorem wp_bread {Q : Block → Store → Prop} (h : Cached H P s)
    (hE : s.bufs.length ≤ H.length + P.length → E .noBuffers s)
    (hQ : ∀ s', Cached (b :: H) P s' → Reads P s s' → s'.view b = s.view b → Q (s.view b) s') :
    wp (bread b) Q E s := by
  unfold bread bget
  simp only [wp_bind, wp_get]
  cases hb : s.buf b with
  | some x =>
    -- a hit: the reference count goes up and the bytes stay
    have hv := h.valid b x hb
    simp only [wp_bind, wp_modify, wp_get, wp_pure]
    set f : Buf → Buf := fun x => { x with refcnt := x.refcnt + 1 } with hf
    set g : Buf → Buf := fun x =>
      if x.valid then x else { x with data := (s.touch b f).disk b, valid := true } with hg
    have hf' : ∀ x, (f x).blockno = x.blockno := fun _ => rfl
    have hg' : ∀ x, (g x).blockno = x.blockno := fun x => by simp only [hg]; split <;> rfl
    have hgf : g (f x) = { x with refcnt := x.refcnt + 1 } := if_pos hv
    set s' := (s.touch b f).touch b g with hs'
    have hr : Replaced b x (g (f x)) s s' := by
      refine ⟨hb, ?_, fun c hc => ?_, ?_, fun y hy hn => ?_⟩
      · rw [hs', buf_touch_self hg', buf_touch_self hf', hb]
        rfl
      · rw [hs', buf_touch_of_ne hg' hc, buf_touch_of_ne hf' hc]
      · rw [hs']
        simp only [Store.touch]
        rw [held_touch hg', held_touch hf']
        exact h.nodup
      · exact mem_touch_of_none hf' (mem_touch_of_none hg' hy hn) hn
    rw [hgf] at hr
    have hview : s'.view b = s.view b := hr.view hv hv rfl rfl b
    have hcached : Cached (b :: H) P s' := by
      refine hr.cached h hv ?_ fun c hc => ⟨count_cons_of_ne (Ne.symm hc), Iff.rfl⟩
      have := h.refcnt_eq hb
      simp only [count_cons_self]
      omega
    have hreads : Reads P s s' :=
      ⟨rfl, rfl, rfl, rfl, rfl, rfl, (length_touch _).trans (length_touch _), fun c hc => hr.clean rfl rfl hc,
        fun c _ => hr.view hv hv rfl rfl c⟩
    have := hQ s' hcached hreads hview
    rw [← hview] at this
    rwa [hcached.data_of_mem mem_cons_self]
  | none =>
    have hbh : b ∉ held s.bufs := find_eq_none.1 hb
    obtain ⟨hbH, hbl⟩ := h.of_buf_none hb
    cases hr : recycle b s.bufs with
    | none => simpa only [hr, wp_panic] using hE (h.length_le_of_recycle_none hr)
    | some l =>
      -- a miss: a buffer without references is recycled and the block is read
      simp only [wp_bind, wp_modify, wp_get, wp_pure]
      obtain ⟨⟨d, hd⟩, hother⟩ := find_recycle hr hbh h.nodup
      obtain ⟨hnd, -⟩ := held_recycle hr hbh h.nodup
      set s₁ : Store := { s with bufs := l } with hs₁
      set g : Buf → Buf := fun x =>
        if x.valid then x else { x with data := s₁.disk b, valid := true } with hg
      have hg' : ∀ x, (g x).blockno = x.blockno := fun x => by simp only [hg]; split <;> rfl
      have h₁b : s₁.buf b = some ⟨some b, false, 1, d⟩ := hd
      set s' := s₁.touch b g with hs'
      have hself : s'.buf b = some ⟨some b, true, 1, s.disk b⟩ := by
        rw [hs', buf_touch_self hg', h₁b]
        rfl
      have hne : ∀ c, c ≠ b → s'.buf c = s.buf c ∨
          s'.buf c = none ∧ ∃ x, s.buf c = some x ∧ x.refcnt = 0 := fun c hc => by
        rw [hs', buf_touch_of_ne hg' hc]
        exact hother c hc
      have hview : s'.view b = s.view b := by
        rw [view_of_buf hself rfl, view_of_none hb]
      have hcached : Cached (b :: H) P s' := by
        refine ⟨?_, fun c y hy => ?_, fun c => ?_, fun y hy hn => ?_⟩
        · rw [hs']
          simp only [Store.touch]
          rw [held_touch hg']
          exact hnd
        · by_cases hc : c = b
          · subst hc; rw [hself] at hy; cases hy; rfl
          · rcases hne c hc with e | ⟨e, -⟩
            · rw [e] at hy; exact h.valid c y hy
            · rw [e] at hy; cases hy
        · by_cases hc : c = b
          · subst hc
            simp only [refcnt, hself, count_cons_self]
            rw [count_eq_zero_of_not_mem hbH, if_neg hbl]
          · rw [count_cons_of_ne (Ne.symm hc)]
            have hrc := h.refs c
            rcases hne c hc with e | ⟨e, x, hx, h0⟩
            · rw [refcnt_congr e]; exact hrc
            · simp only [refcnt, hx] at hrc
              simp only [refcnt, e]
              omega
        · exact h.idle y (mem_recycle_of_none hr (mem_touch_of_none hg' hy hn) hn) hn
      have hreads : Reads P s s' := by
        refine ⟨rfl, rfl, rfl, rfl, rfl, rfl, ?_, fun c hc => ?_, fun c hc => ?_⟩
        · exact (length_touch _).trans (length_recycle hr)
        · by_cases hcb : c = b
          · subst hcb
            intro y hy
            rw [hself] at hy
            cases hy
            exact .inr rfl
          · rcases hne c hcb with e | ⟨e, -⟩
            · exact (clean_congr e rfl).2 hc
            · intro y hy; rw [e] at hy; cases hy
        · by_cases hcb : c = b
          · rw [hcb]; exact hview
          · rcases hne c hcb with e | ⟨e, x, hx, h0⟩
            · exact view_congr e rfl
            · -- the recycled buffer was clean and not pinned
              rw [view_of_none e, view_of_buf hx (h.valid c x hx)]
              exact ((hc x hx).resolve_left (h.of_refcnt_zero hx h0).2).symm
      have := hQ s' hcached hreads hview
      rw [← hview] at this
      rwa [hcached.data_of_mem mem_cons_self]

/-- Releasing a buffer changes no view. -/
theorem wp_brelse (h : Cached (b :: H) P s)
    (hQ : ∀ s', Cached H P s' → Reads P s s' → (∀ c, s'.view c = s.view c) → Q () s') :
    wp (brelse b) Q E s := by
  unfold brelse
  simp only [wp_modify]
  obtain ⟨x, hx, hv, hp⟩ := h.buf_of_mem mem_cons_self
  have hxb : x.blockno = some b := holds_iff.1 (List.find?_some hx)
  rw [hx]
  simp only
  -- both branches leave the buffer of `b` with one reference less and all others as they were
  have key : ∀ s' : Store, (held s'.bufs).Nodup →
      (∀ y ∈ s'.bufs, y.blockno = none → y ∈ s.bufs) → s'.bufs.length = s.bufs.length →
      (∀ c, s'.buf c = if c = b then some { x with refcnt := x.refcnt - 1 } else s.buf c) →
      s'.disk = s.disk → s'.writes = s.writes → s'.start = s.start →
      s'.outstanding = s.outstanding → s'.committing = s.committing → s'.lh = s.lh → Q () s' := by
    intro s' hn hid hlen hbuf h₁ h₂ h₃ h₄ h₅ h₆
    have hr : Replaced b x { x with refcnt := x.refcnt - 1 } s s' :=
      ⟨hx, by rw [hbuf, if_pos rfl], fun c hc => by rw [hbuf, if_neg hc], hn, hid⟩
    have hview := hr.view hv hv rfl h₁
    refine hQ s' (hr.cached h hv ?_ fun c hc => ⟨(count_cons_of_ne (Ne.symm hc)).symm, Iff.rfl⟩)
      ⟨h₁, h₂, h₃, h₄, h₅, h₆, hlen, fun c hc => hr.clean rfl h₁ hc, fun c _ => hview c⟩ hview
    have := h.refcnt_eq hx
    rw [count_cons_self] at this
    simp only
    omega
  split
  · rename_i h0
    have e : ({ x with refcnt := 0 } : Buf) = { x with refcnt := x.refcnt - 1 } := by rw [h0]
    refine key _ ?_ (fun y hy h0 => ?_) ?_ (fun c => ?_) rfl rfl rfl rfl rfl rfl
    · exact held_erase h.nodup hx hxb
    · rcases mem_cons.1 hy with rfl | hy
      · rw [hxb] at h0; cases h0
      · exact mem_of_mem_eraseP hy
    · have hm := mem_of_find?_eq_some hx
      rw [length_cons, length_eraseP_of_mem hm (List.find?_some hx)]
      have := length_pos_of_mem hm
      omega
    · rw [← e]
      exact find_erase hxb
  · refine key _ ?_ (fun y hy h0 => mem_touch_of_none (by simp) hy h0) (length_touch _)
      (fun c => ?_) rfl rfl rfl rfl rfl rfl
    · simp only [Store.touch]
      rw [held_touch (by simp)]
      exact h.nodup
    · rw [buf_touch (by simp), hx]
      rfl

/-- The effect of a change of the bytes of one held buffer. -/
structure Stores (P : List ℕ) (b : ℕ) (d : Block) (s s' : Store) : Prop where
  disk : s'.disk = s.disk
  writes : s'.writes = s.writes
  start : s'.start = s.start
  outstanding : s'.outstanding = s.outstanding
  committing : s'.committing = s.committing
  lh : s'.lh = s.lh
  length : s'.bufs.length = s.bufs.length
  clean : ∀ c ≠ b, s.Clean P c → s'.Clean P c
  view_self : s'.view b = d
  view : ∀ c ≠ b, s'.view c = s.view c

theorem wp_setData (h : Cached H P s) (hb : b ∈ H) {d : Block}
    (hQ : ∀ s', Cached H P s' → Stores P b d s s' → Q () s') :
    wp (setData b d) Q E s := by
  unfold setData
  simp only [wp_modify]
  obtain ⟨x, hx, hv, -⟩ := h.buf_of_mem hb
  set f : Buf → Buf := fun x => { x with data := d } with hf
  have hf' : ∀ x, (f x).blockno = x.blockno := fun _ => rfl
  have hr := h.replaced_touch hx hf'
  have hrefs := h.refcnt_eq hx
  exact hQ _ (hr.cached h hv hrefs fun c _ => ⟨rfl, Iff.rfl⟩)
    ⟨rfl, rfl, rfl, rfl, rfl, rfl, length_touch _, fun c hc h' => (clean_congr (hr.other c hc) rfl).2 h',
      view_of_buf hr.new hv, fun c hc => view_congr (hr.other c hc) rfl⟩

/-- Pinning a held buffer: its block joins the pinned ones. -/
theorem wp_bpin (h : Cached H P s) (hb : b ∈ H) (hbP : b ∉ P)
    (hQ : ∀ s', Cached H (P ++ [b]) s' → s' = { s with bufs := s'.bufs } →
      s'.bufs.length = s.bufs.length → (∀ c, s'.view c = s.view c) →
      (∀ c, c = b ∨ s.Clean P c → s'.Clean (P ++ [b]) c) → Q () s') :
    wp (bpin b) Q E s := by
  unfold bpin
  simp only [wp_modify]
  obtain ⟨x, hx, hv, -⟩ := h.buf_of_mem hb
  set f : Buf → Buf := fun x => { x with refcnt := x.refcnt + 1 } with hf
  have hf' : ∀ x, (f x).blockno = x.blockno := fun _ => rfl
  have hr := h.replaced_touch hx hf'
  refine hQ _ (hr.cached h hv ?_ fun c hc => ⟨rfl, by simp [hc]⟩) rfl (length_touch _)
    (hr.view hv hv rfl rfl) fun c hc y hy => ?_
  · have := h.refcnt_eq hx
    rw [if_neg hbP] at this
    simp only [hf, mem_append, mem_singleton, or_true, if_true]
    omega
  · by_cases hcb : c = b
    · exact .inl (by simp [hcb])
    · rw [hr.other c hcb] at hy
      exact ((hc.resolve_left hcb) y hy).imp_left (mem_append_left _)

end Spec

end Xv6
