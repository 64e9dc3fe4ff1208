import Mathlib.Data.Set.Insert
import Xv6.Disk.Session

/-!
# The contents that the store shows

`Shows L V D t H s`: outside the log at `L`, a read of a block `c` of the store `s` returns `V c`, with
`t` transactions open and the buffers `H` held. The exceptions are the blocks of `D`: the bytes of
their buffers were changed and not logged, so what a read returns depends on whether the buffer was
recycled in between. The functions of `bio.c` and `log.c` are specified by what they do to `V`, `D`,
`t` and `H`.
-/

namespace Xv6

open Function Prog List

variable {Q : Unit → Store → Prop}

open RedoLog

structure Shows (L : ℕ) (V : Disk) (D : Set ℕ) (t : ℕ) (H : List ℕ) (s : Store) : Prop where
  cached : Cached H s.lh s
  start : s.start = L
  outstanding : s.outstanding = t
  committing : s.committing = false
  nodup : s.lh.Nodup
  logged : WellFormed L LOGBLOCKS s.lh
  idle : t = 0 → s.lh = []
  log : ∀ i ≤ LOGBLOCKS, s.Clean s.lh (L + i)
  home : ∀ c, Home L LOGBLOCKS c → c ∉ D → s.Clean s.lh c ∧ s.view c = V c

namespace Shows

variable {L t b : ℕ} {V : Disk} {D : Set ℕ} {H : List ℕ} {s : Store} {E : Panic → Store → Prop}

theorem boot (L : ℕ) (V : Disk) : Shows L V ∅ 0 [] { Xv6.boot V with start := L } where
  cached := cached_boot V L
  start := rfl
  outstanding := rfl
  committing := rfl
  nodup := nodup_nil
  logged := wellFormed_nil
  idle _ := rfl
  log i _ x hx := by
    rw [buf_boot] at hx
    cases hx
  home c _ _ := by
    refine ⟨fun x hx => ?_, ?_⟩
    · rw [buf_boot] at hx
      cases hx
    · rw [Store.view, buf_boot]
      rfl

/-- The number of open transactions is only counted. -/
theorem opened (h : Shows L V D 0 H s) (t : ℕ) : Shows L V D t H { s with outstanding := t } where
  cached := ⟨h.cached.nodup, h.cached.valid, h.cached.refs, h.cached.idle⟩
  start := h.start
  outstanding := rfl
  committing := h.committing
  nodup := h.nodup
  logged := h.logged
  idle _ := h.idle rfl
  log := h.log
  home := h.home

theorem mono (h : Shows L V D t H s) {D' : Set ℕ} (hD : D ⊆ D') : Shows L V D' t H s :=
  { h with home := fun c hc hcD => h.home c hc fun hm => hcD (hD hm) }

theorem of_reads {H' : List ℕ} {s' : Store} (h : Shows L V D t H s) (hc : Cached H' s.lh s')
    (hr : Reads s.lh s s') : Shows L V D t H' s' where
  cached := by rw [hr.lh]; exact hc
  start := hr.start.trans h.start
  outstanding := hr.outstanding.trans h.outstanding
  committing := hr.committing.trans h.committing
  nodup := by rw [hr.lh]; exact h.nodup
  logged := by rw [hr.lh]; exact h.logged
  idle ht := hr.lh.trans (h.idle ht)
  log i hi := by rw [hr.lh]; exact hr.clean _ (h.log i hi)
  home c hc' hcD := by
    obtain ⟨h₁, h₂⟩ := h.home c hc' hcD
    rw [hr.lh]
    exact ⟨hr.clean c h₁, (hr.view c h₁).trans h₂⟩

/-- A read of a block that may be in `D`. There is a buffer for it unless all are held or pinned. -/
theorem wp_bread_reads {Q : Block → Store → Prop} (h : Shows L V D t H s)
    (hE : s.bufs.length ≤ H.length + s.lh.length → E .noBuffers s)
    (hQ : ∀ d s', Shows L V D t (b :: H) s' → Reads s.lh s s' → s'.view b = d →
      (Home L LOGBLOCKS b → b ∉ D → d = V b) → Q d s') : wp (bread b) Q E s :=
  wp_bread h.cached hE fun s' hc hr hv =>
    hQ _ s' (h.of_reads hc hr) hr hv fun hb hbD => (h.home b hb hbD).2

theorem wp_bread_any {Q : Block → Store → Prop} (h : Shows L V D t H s)
    (hE : ∀ s', E .noBuffers s')
    (hQ : ∀ d s', Shows L V D t (b :: H) s' → s'.view b = d →
      (Home L LOGBLOCKS b → b ∉ D → d = V b) → Q d s') : wp (bread b) Q E s :=
  h.wp_bread_reads (fun _ => hE s) fun d s' h' _ => hQ d s' h'

theorem wp_bread {Q : Block → Store → Prop} (h : Shows L V D t H s) (hb : Home L LOGBLOCKS b)
    (hbD : b ∉ D) (hE : ∀ s', E .noBuffers s')
    (hQ : ∀ s', Shows L V D t (b :: H) s' → Q (V b) s') : wp (bread b) Q E s :=
  h.wp_bread_any hE fun d s' h' _ hd => by
    rw [hd hb hbD]
    exact hQ s' h'

theorem wp_brelse_reads (h : Shows L V D t (b :: H) s)
    (hQ : ∀ s', Shows L V D t H s' → Reads s.lh s s' → s'.view b = s.view b → Q () s') :
    wp (brelse b) Q E s :=
  Xv6.wp_brelse h.cached fun s' hc hr hv => hQ s' (h.of_reads hc hr) hr (hv b)

theorem wp_brelse (h : Shows L V D t (b :: H) s)
    (hQ : ∀ s', Shows L V D t H s' → s'.view b = s.view b → Q () s') :
    wp (brelse b) Q E s :=
  h.wp_brelse_reads fun s' h' _ => hQ s' h'

/-- The bytes of a held buffer are assigned and not logged. -/
theorem wp_setData {d : Block} (h : Shows L V D t H s) (hb : b ∈ H)
    (hh : Home L LOGBLOCKS b)
    (hQ : ∀ s', Shows L V (insert b D) t H s' → s'.view b = d → Q () s') :
    wp (setData b d) Q E s := by
  refine Xv6.wp_setData h.cached hb fun s' hc st => hQ s' ?_ st.view_self
  have hlog : ∀ i ≤ LOGBLOCKS, L + i ≠ b := fun i hi e => by
    unfold Home at hh
    omega
  refine ⟨by rw [st.lh]; exact hc, st.start.trans h.start, st.outstanding.trans h.outstanding,
    st.committing.trans h.committing, by rw [st.lh]; exact h.nodup, by rw [st.lh]; exact h.logged,
    fun ht => st.lh.trans (h.idle ht), fun i hi => ?_, fun c hc' hcD => ?_⟩
  · rw [st.lh]
    exact st.clean _ (hlog i hi) (h.log i hi)
  · rw [Set.mem_insert_iff, not_or] at hcD
    obtain ⟨h₁, h₂⟩ := h.home c hc' hcD.2
    rw [st.lh]
    exact ⟨st.clean c hcD.1 h₁, (st.view c hcD.1).trans h₂⟩

/-- The held buffer of `b` is logged with the bytes it has. -/
theorem wp_logWrite {d : Block} (h : Shows L V D t H s) (hb : b ∈ H)
    (hh : Home L LOGBLOCKS b) (hd : s.view b = d) (hE : ∀ s', E .tooBig s')
    (hE' : ∀ s', E .outsideTrans s')
    (hQ : ∀ s', Shows L (update V b d) (D \ {b}) t H s' → Q () s') :
    wp (logWrite b) Q E s := by
  refine Xv6.wp_logWrite h.cached hb (hE s) (hE' s) fun s' hc lg => hQ s' ?_
  have hmem : ∀ c ∈ s'.lh, c ∈ s.lh ∨ c = b := fun c hc => by
    rw [lg.lh] at hc
    split at hc
    · exact .inl hc
    · simpa using hc
  refine ⟨hc, lg.start.trans h.start, lg.outstanding.trans h.outstanding,
    lg.committing.trans h.committing, ?_, ⟨?_, fun c hc => ?_⟩, fun ht => ?_, fun i hi => ?_,
    fun c hc' hcD => ?_⟩
  · rw [lg.lh]
    split
    · exact h.nodup
    · rename_i hm
      exact nodup_append.2 ⟨h.nodup, nodup_singleton b, fun c hc c' hc' e =>
        hm (by rw [← mem_singleton.1 hc', ← e]; exact hc)⟩
  · have hl := lg.lh_length
    rw [lg.lh]
    split
    · exact hl.le
    · rw [length_append]
      exact hl
  · rcases hmem c hc with hc | rfl
    · exact h.logged.home c hc
    · exact hh
  · have := lg.open_tx
    rw [h.outstanding, ht] at this
    omega
  · exact lg.clean _ (.inr (h.log i hi))
  · by_cases hcb : c = b
    · subst hcb
      rw [update_self]
      exact ⟨lg.clean c (.inl rfl), (lg.view c).trans hd⟩
    · obtain ⟨h₁, h₂⟩ := h.home c hc' fun hm => hcD ⟨hm, hcb⟩
      rw [update_of_ne hcb]
      exact ⟨lg.clean c (.inr h₁), (lg.view c).trans h₂⟩

/-- A held buffer gets new bytes, is logged and is released. -/
theorem wp_update {d : Block} (h : Shows L V D t (b :: H) s)
    (hh : Home L LOGBLOCKS b) (hE : ∀ s', E .tooBig s') (hE' : ∀ s', E .outsideTrans s')
    (hQ : ∀ s', Shows L (update V b d) (D \ {b}) t H s' → Q () s') :
    wp (setData b d) (fun _ s₁ => wp (logWrite b)
      (fun _ s₂ => wp (brelse b) Q E s₂) E s₁) E s := by
  refine h.wp_setData mem_cons_self hh fun s₁ h₁ v₁ => ?_
  refine h₁.wp_logWrite mem_cons_self hh v₁ hE hE' fun s₂ h₂ => ?_
  refine h₂.wp_brelse fun s₃ h₃ _ => hQ s₃ (h₃.mono ?_)
  rintro c ⟨rfl | hc, hcb⟩
  · exact absurd rfl hcb
  · exact ⟨hc, hcb⟩

/-- A held buffer gets new bytes and is released without being logged. -/
theorem wp_scribble {d : Block} (h : Shows L V D t (b :: H) s)
    (hh : Home L LOGBLOCKS b) (hQ : ∀ s', Shows L V (insert b D) t H s' → Q () s') :
    wp (setData b d) (fun _ s₁ => wp (brelse b) Q E s₁) E s :=
  h.wp_setData mem_cons_self hh fun _ h₁ _ => h₁.wp_brelse fun s₂ h₂ _ => hQ s₂ h₂

end Shows

end Xv6
