import Xv6.Virtio.Machine

/-!
# Descriptors and chains

What `alloc3_desc` and `free_chain` do. `alloc3_desc` does not panic: it takes three different free
descriptors, or fails and leaves the same descriptors free. `free_chain` on a chain of three descriptors
that are in use frees these three.
-/

namespace Xv6

open Function List

namespace DescChain

def members (t : DescChain) : List ℕ := [t.i0, t.i1, t.i2]

/-- Three different descriptors. -/
structure Proper (t : DescChain) : Prop where
  nodup : t.members.Nodup
  lt : ∀ i ∈ t.members, i < NUM

theorem head_mem (t : DescChain) : t.i0 ∈ t.members := by
  simp [members]

end DescChain

namespace VDisk

variable {β : Type}

/-- The descriptors of the list are taken. -/
def grab (d : VDisk β) (l : List ℕ) : VDisk β :=
  { d with free := fun i => d.free i && decide (i ∉ l) }

/-- From `d` to `d'` the descriptors of the list are freed. -/
structure Freed (l : List ℕ) (d d' : VDisk β) : Prop where
  free : ∀ i, d'.free i = (d.free i || decide (i ∈ l))
  desc : ∀ i, i ∉ l → d'.desc i = d.desc i
  avail : d'.avail = d.avail
  used : d'.used = d.used
  usedIdx : d'.usedIdx = d.usedIdx
  info : d'.info = d.info

theorem Freed.refl (d : VDisk β) : Freed [] d d :=
  ⟨by simp, fun _ _ => rfl, rfl, rfl, rfl, rfl⟩

theorem Freed.cons {i : ℕ} {l : List ℕ} {d d' d'' : VDisk β} (h : Freed [i] d d')
    (h' : Freed l d' d'') : Freed (i :: l) d d'' where
  free j := by
    rw [h'.free, h.free]
    by_cases e : j = i <;> simp [e]
  desc j hj := by
    rw [mem_cons, not_or] at hj
    rw [h'.desc j hj.2, h.desc j (by simpa using hj.1)]
  avail := h'.avail.trans h.avail
  used := h'.used.trans h.used
  usedIdx := h'.usedIdx.trans h.usedIdx
  info := h'.info.trans h.info

/-! ### Freeing -/

variable {d : VDisk β} {t : DescChain} {d' : VDisk β}

theorem freeDesc_ok {i : ℕ} (hi : i < NUM) (hf : d.free i = false) :
    ∃ d', d.freeDesc i = .ok d' ∧ Freed [i] d d' := by
  have e : d.freeDesc i = .ok { d with
      desc := update d.desc i ⟨.null, 0, 0⟩, free := update d.free i true } := by
    rw [freeDesc, if_neg (Nat.not_le.2 hi), if_neg (by simp [hf])]
  refine ⟨_, e, fun j => ?_, fun j hj => ?_, rfl, rfl, rfl, rfl⟩
  · by_cases e : j = i <;> simp [e]
  · rw [mem_singleton] at hj
    exact update_of_ne hj _ _

/-- Different descriptors in use are freed one after the other. -/
theorem freeAll_ok {l : List ℕ} {d : VDisk β} (hn : l.Nodup) (hl : ∀ i ∈ l, i < NUM)
    (hf : ∀ i ∈ l, d.free i = false) : ∃ d', freeAll l d = .ok d' ∧ Freed l d d' := by
  induction l generalizing d with
  | nil => exact ⟨d, rfl, .refl d⟩
  | cons i l ih =>
    obtain ⟨hi, hn⟩ := nodup_cons.1 hn
    obtain ⟨d₁, e₁, h₁⟩ := freeDesc_ok (hl i mem_cons_self) (hf i mem_cons_self)
    have hf₁ : ∀ j ∈ l, d₁.free j = false := fun j hj => by
      have hne : j ≠ i := fun e => hi (e ▸ hj)
      rw [h₁.free, hf j (mem_cons_of_mem _ hj)]
      simp [hne]
    obtain ⟨d₂, e₂, h₂⟩ := ih hn (fun j hj => hl j (mem_cons_of_mem _ hj)) hf₁
    exact ⟨d₂, by rw [freeAll, e₁]; exact e₂, h₁.cons h₂⟩

/-- The descriptors of `t` are linked as the chain of a request. -/
structure Linked (d : VDisk β) (t : DescChain) : Prop where
  flags0 : (d.desc t.i0).flags &&& VRING_DESC_F_NEXT ≠ 0
  next0 : (d.desc t.i0).next = t.i1
  flags1 : (d.desc t.i1).flags &&& VRING_DESC_F_NEXT ≠ 0
  next1 : (d.desc t.i1).next = t.i2
  flags2 : (d.desc t.i2).flags &&& VRING_DESC_F_NEXT = 0
  status : (d.desc t.i2).addr = .status t.i0

theorem Linked.statusAddr (h : d.Linked t) :
    d.statusAddr t.i0 = .status t.i0 := by
  rw [VDisk.statusAddr, h.next0, h.next1, h.status]

theorem Linked.congr {t : DescChain} (h : d.Linked t)
    (he : ∀ i ∈ t.members, d'.desc i = d.desc i) : d'.Linked t := by
  have h0 := he t.i0 (by simp [DescChain.members])
  have h1 := he t.i1 (by simp [DescChain.members])
  have h2 := he t.i2 (by simp [DescChain.members])
  exact ⟨h0 ▸ h.flags0, h0 ▸ h.next0, h1 ▸ h.flags1, h1 ▸ h.next1, h2 ▸ h.flags2, h2 ▸ h.status⟩

theorem freeChain_ok (k : ℕ) (ht : t.Proper) (hl : d.Linked t)
    (hf : ∀ i ∈ t.members, d.free i = false) :
    ∃ d', d.freeChain (k + 3) t.i0 = .ok d' ∧ Freed t.members d d' := by
  have hn := ht.nodup
  simp only [DescChain.members, nodup_cons, mem_cons, not_mem_nil, or_false,
    not_or] at hn
  obtain ⟨⟨h01, h02⟩, h12, -⟩ := hn
  obtain ⟨d₁, e₁, f₁⟩ := freeDesc_ok (ht.lt t.i0 (by simp [DescChain.members]))
    (hf t.i0 (by simp [DescChain.members]))
  -- the links of the other two are still there
  have hd₁ : ∀ i, i ≠ t.i0 → d₁.desc i = d.desc i := fun i hi => f₁.desc i (by simpa using hi)
  obtain ⟨d₂, e₂, f₂⟩ := freeDesc_ok (d := d₁) (ht.lt t.i1 (by simp [DescChain.members]))
    (by rw [f₁.free, hf t.i1 (by simp [DescChain.members])]; simp [Ne.symm h01])
  have hd₂ : d₂.desc t.i2 = d.desc t.i2 := by
    rw [f₂.desc t.i2 (by simpa using Ne.symm h12), hd₁ _ (Ne.symm h02)]
  obtain ⟨d₃, e₃, f₃⟩ := freeDesc_ok (d := d₂) (ht.lt t.i2 (by simp [DescChain.members]))
    (by rw [f₂.free, f₁.free, hf t.i2 (by simp [DescChain.members])]
        simp [Ne.symm h02, Ne.symm h12])
  refine ⟨d₃, ?_, f₁.cons (f₂.cons f₃)⟩
  rw [freeChain, e₁]
  simp only [if_pos hl.flags0, hl.next0]
  rw [freeChain, e₂]
  simp only [hd₁ t.i1 (Ne.symm h01), if_pos hl.flags1, hl.next1]
  rw [freeChain, e₃]
  simp only [hd₂, hl.flags2, ne_eq, not_true_eq_false, if_false]

/-! ### Allocating -/

theorem allocDesc_spec (d : VDisk β) :
    (∃ i, i < NUM ∧ d.free i = true ∧ d.allocDesc = (some i, d.grab [i])) ∨
      d.allocDesc = (none, d) := by
  rw [allocDesc]
  cases hf : (List.range NUM).find? d.free with
  | none => exact .inr rfl
  | some i =>
    have hi := mem_range.1 (mem_of_find?_eq_some hf)
    refine .inl ⟨i, hi, List.find?_some hf, ?_⟩
    have he : update d.free i false = fun j => d.free j && decide (j ∉ [i]) := by
      funext j
      by_cases e : j = i <;> simp [e]
    simp only [grab, he]

theorem grab_grab (d : VDisk β) (l l' : List ℕ) : (d.grab l).grab l' = d.grab (l ++ l') := by
  simp only [grab, VDisk.mk.injEq, true_and, and_true]
  funext i
  by_cases h₁ : i ∈ l <;> by_cases h₂ : i ∈ l' <;> simp [h₁, h₂]

/-- A list of different free descriptors. -/
structure Takes (d : VDisk β) (l : List ℕ) : Prop where
  nodup : l.Nodup
  lt : ∀ i ∈ l, i < NUM
  free : ∀ i ∈ l, d.free i = true

theorem Takes.snoc {l : List ℕ} {i : ℕ} (h : d.Takes l) (hi : i < NUM)
    (hf : (d.grab l).free i = true) : d.Takes (l ++ [i]) := by
  simp only [grab, Bool.and_eq_true, decide_eq_true_eq] at hf
  refine ⟨?_, fun j hj => ?_, fun j hj => ?_⟩
  · rw [nodup_append]
    exact ⟨h.nodup, by simp, fun a ha b hb e => hf.2 (by
      rw [mem_singleton.1 hb] at e
      exact e ▸ ha)⟩
  · rcases mem_append.1 hj with hj | hj
    · exact h.lt j hj
    · rw [mem_singleton.1 hj]
      exact hi
  · rcases mem_append.1 hj with hj | hj
    · exact h.free j hj
    · rw [mem_singleton.1 hj]
      exact hf.1

theorem Takes.free_of_freed {l : List ℕ} (h : d.Takes l)
    (hf : Freed l (d.grab l) d') : d'.free = d.free := by
  funext i
  rw [hf.free]
  by_cases hi : i ∈ l
  · simp [grab, hi, h.free i hi]
  · simp [grab, hi]

theorem allocLoop_spec (d : VDisk β) (k : ℕ) {idx : List ℕ} (h : d.Takes idx) :
    (∃ l, allocLoop k idx (d.grab idx) = .ok (some l, d.grab l) ∧ d.Takes l ∧
      l.length = idx.length + k) ∨
    ∃ l d', allocLoop k idx (d.grab idx) = .ok (none, d') ∧ d.Takes l ∧ Freed l (d.grab l) d' := by
  induction k generalizing idx with
  | zero => exact .inl ⟨idx, rfl, h, rfl⟩
  | succ k ih =>
    rcases allocDesc_spec (d.grab idx) with ⟨i, hi, hf, e⟩ | e
    · rw [grab_grab] at e
      rcases ih (h.snoc hi hf) with ⟨l, e', hl, hn⟩ | ⟨l, d', e', hl, hr⟩
      · refine .inl ⟨l, by rw [allocLoop, e]; exact e', hl, ?_⟩
        rw [hn, length_append, length_singleton]
        omega
      · exact .inr ⟨l, d', by rw [allocLoop, e]; exact e', hl, hr⟩
    · obtain ⟨d', e', hr⟩ := freeAll_ok (d := d.grab idx) h.nodup h.lt fun i hi => by simp [grab, hi]
      exact .inr ⟨idx, d', by rw [allocLoop, e]; simp only [e']; rfl, h, hr⟩

/-- **`alloc3_desc`** takes three different free descriptors, or fails, with the same descriptors free;
only descriptors that are free change. -/
theorem alloc3Desc_spec (d : VDisk β) :
    (∃ t, d.alloc3Desc = .ok (some t, d.grab t.members) ∧ t.Proper ∧
      ∀ i ∈ t.members, d.free i = true) ∨
    ∃ d', d.alloc3Desc = .ok (none, d') ∧ d'.free = d.free ∧
      (∀ i, d.free i = false → d'.desc i = d.desc i) ∧ d'.avail = d.avail ∧ d'.used = d.used ∧
      d'.usedIdx = d.usedIdx ∧ d'.info = d.info := by
  have h0 : d.grab [] = d := by simp [grab]
  have hs := allocLoop_spec d 3 (show d.Takes [] from ⟨nodup_nil, by simp, by simp⟩)
  rw [h0] at hs
  rcases hs with ⟨l, e, hl, hn⟩ | ⟨l, d', e, hl, hr⟩
  · obtain ⟨i0, i1, i2, rfl⟩ := length_eq_three.1 hn
    exact .inl ⟨⟨i0, i1, i2⟩, by rw [alloc3Desc, e]; rfl, ⟨hl.nodup, hl.lt⟩, hl.free⟩
  · refine .inr ⟨d', by rw [alloc3Desc, e]; rfl, hl.free_of_freed hr, fun i hi => ?_, hr.avail,
      hr.used, hr.usedIdx, hr.info⟩
    refine hr.desc i fun hm => ?_
    rw [hl.free i hm] at hi
    exact absurd hi (by decide)

/-! ### Filling in -/

section Format

variable (d : VDisk β) (b : β) (write : Bool) {t : DescChain}

/-- A request that is filled in is a chain. -/
theorem linked_format (ht : t.Proper) : (d.format b write t).Linked t := by
  have hn := ht.nodup
  simp only [DescChain.members, nodup_cons, mem_cons, not_mem_nil, or_false,
    not_or] at hn
  obtain ⟨⟨h01, h02⟩, h12, -⟩ := hn
  constructor <;> cases write <;> simp [format, h01, h02, h12]

/-- The descriptors of others stay as they are. -/
theorem desc_format {i : ℕ} (hi : i ∉ t.members) : (d.format b write t).desc i = d.desc i := by
  simp only [DescChain.members, mem_cons, not_mem_nil, or_false, not_or] at hi
  simp [format, hi.1, hi.2.1, hi.2.2]

end Format

end VDisk

end Xv6
