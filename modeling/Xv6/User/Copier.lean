import Xv6.Vm.Lazy

/-!
# User memory behind `copyout`

System calls hand results to user memory through `copyout` only. `Copier` is what they can rely on, for
memory of any kind: a result of 0 or -1, no byte written outside the range, and on success all bytes
written. The logical memory of a process is such a memory (`logicalCopier`); `copyout` of the kernel
acts on it as `LogicalMem.copyout` does.
-/

namespace Xv6

open Function List Option Nat

variable {α : Type} {l : List α} {k i : ℕ} {d : α}

theorem take_min_length (l : List α) (k : ℕ) : l.take (min k l.length) = l.take k := by
  rw [take_eq_take_iff]
  omega

theorem drop_min_length (l : List α) (k : ℕ) : l.drop (min k l.length) = l.drop k := by
  rcases Nat.le_total k l.length with h | h
  · rw [Nat.min_eq_left h]
  · rw [Nat.min_eq_right h, drop_length, drop_eq_nil_of_le h]

theorem getD_take (h : i < k) : (l.take k).getD i d = l.getD i d := by
  simp [getD_eq_getElem?_getD, h]

theorem getD_drop (h : k ≤ i) : (l.drop k).getD (i - k) d = l.getD i d := by
  simp [getD_eq_getElem?_getD, h]

/-- User memory of type `M`, with what `copyout` promises. -/
structure Copier (M : Type) where
  /-- The byte at an address. -/
  byte : M → ℕ → Option ℕ
  /-- Write bytes at an address. -/
  copyout : ℕ → List UInt8 → M → ℤ × M
  result : ∀ dst src m, (copyout dst src m).1 = 0 ∨ (copyout dst src m).1 = -1
  bound : ∀ dst src m, (copyout dst src m).1 = 0 → src ≠ [] → dst + src.length ≤ MAXVA
  other : ∀ dst src m a, a < dst ∨ dst + src.length ≤ a → byte (copyout dst src m).2 a = byte m a
  written : ∀ dst src m, (copyout dst src m).1 = 0 → ∀ i < src.length,
    byte (copyout dst src m).2 (dst + i) = some (src.getD i 0).toNat

/-- A logical memory in the range of user addresses. -/
abbrev UserLogical := { m : LogicalMem // ∀ n, m n ≠ none → n * PGSIZE < MAXVA }

namespace LogicalMem

variable {m : LogicalMem} {fuel dst : ℕ} {src : List UInt8}

/-- The memory after the part of a write in its first page. -/
def putPage (m : LogicalMem) (dst flags : ℕ) (d : Page) (bs : List UInt8) : LogicalMem :=
  update m (dst / PGSIZE) (some (flags, Bytes.put d (dst % PGSIZE) bs))

theorem putPage_inRange {flags : ℕ} {d : Page} {bs : List UInt8}
    (hm : ∀ n, m n ≠ none → n * PGSIZE < MAXVA) (hp : m (dst / PGSIZE) = some (flags, d)) (n : ℕ)
    (hn : m.putPage dst flags d bs n ≠ none) : n * PGSIZE < MAXVA := by
  by_cases hd : n = dst / PGSIZE
  · subst hd
    exact hm _ (by rw [hp]; simp)
  · exact hm n (by simpa [putPage, hd] using hn)

theorem byte_putPage_of_disjoint {flags a : ℕ} {d : Page} {bs : List UInt8}
    (hp : m (dst / PGSIZE) = some (flags, d)) (ha : a < dst ∨ dst + bs.length ≤ a) :
    (m.putPage dst flags d bs).byte a = m.byte a := by
  by_cases hd : a / PGSIZE = dst / PGSIZE
  · have h₁ := div_add_mod a PGSIZE
    have h₂ := div_add_mod dst PGSIZE
    rw [hd] at h₁
    simp only [byte, putPage, hd, update_self, hp, map_some]
    rw [Bytes.rd8_put_of_disjoint d (by omega)]
  · simp [byte, putPage, hd]

theorem byte_putPage_of_mem {flags i : ℕ} {d : Page} {bs : List UInt8} (hi : i < bs.length)
    (hb : dst % PGSIZE + bs.length ≤ PGSIZE) :
    (m.putPage dst flags d bs).byte (dst + i) = some (bs.getD i 0).toNat := by
  have hdiv : (dst + i) / PGSIZE = dst / PGSIZE ∧ (dst + i) % PGSIZE = dst % PGSIZE + i := by
    simp only [PGSIZE] at *
    omega
  simp only [byte, putPage, hdiv.1, hdiv.2, update_self, map_some]
  rw [Bytes.rd8_put_of_mem d hi (by omega)]

/-- One pass of the loop. -/
theorem copyout_succ (m : LogicalMem) (hsrc : src ≠ []) (hm : ∀ n, m n ≠ none → n * PGSIZE < MAXVA) :
    m.copyout (fuel + 1) dst src = match m (dst / PGSIZE) with
      | none => (-1, m)
      | some (flags, d) =>
        if !has flags PTE_W then (-1, m)
        else (m.putPage dst flags d (src.take (PGSIZE - dst % PGSIZE))).copyout fuel
          (dst + (PGSIZE - dst % PGSIZE)) (src.drop (PGSIZE - dst % PGSIZE)) := by
  obtain ⟨b, src', rfl⟩ := exists_cons_of_ne_nil hsrc
  have hM : MAXVA + PGSIZE < 2 ^ 64 := by decide
  have hdown := PGROUNDDOWN_add dst
  cases hp : m (dst / PGSIZE) with
  | none => simp [copyout, hp]
  | some x =>
    obtain ⟨flags, d⟩ := x
    have hr := hm (dst / PGSIZE) (by rw [hp]; simp)
    have hlt : dst + (PGSIZE - dst % PGSIZE) < 2 ^ 64 := by
      have h₁ := div_add_mod' dst PGSIZE
      have h₂ := mod_lt dst (show 0 < PGSIZE by decide)
      omega
    simp only [copyout, hp, hdown, take_min_length, drop_min_length, mod_eq_of_lt hlt, putPage]

/-- What a write does, by pages. -/
theorem copyout_spec (hm : ∀ n, m n ≠ none → n * PGSIZE < MAXVA) (hfuel : src.length ≤ fuel) :
    ((m.copyout fuel dst src).1 = 0 ∨ (m.copyout fuel dst src).1 = -1) ∧
    (∀ n, (m.copyout fuel dst src).2 n ≠ none → n * PGSIZE < MAXVA) ∧
    (∀ a, a < dst ∨ dst + src.length ≤ a → (m.copyout fuel dst src).2.byte a = m.byte a) ∧
    ((m.copyout fuel dst src).1 = 0 → (src ≠ [] → dst + src.length ≤ MAXVA) ∧
      ∀ i < src.length, (m.copyout fuel dst src).2.byte (dst + i) = some (src.getD i 0).toNat) := by
  induction fuel generalizing m dst src with
  | zero =>
    obtain rfl : src = [] := eq_nil_of_length_eq_zero (by omega)
    exact ⟨.inl rfl, hm, fun _ _ => rfl, fun _ => ⟨fun h => absurd rfl h, fun i hi => by simp at hi⟩⟩
  | succ fuel ih =>
    by_cases hsrc : src = []
    · subst hsrc
      exact ⟨.inl rfl, hm, fun _ _ => rfl, fun _ => ⟨fun h => absurd rfl h, fun i hi => by simp at hi⟩⟩
    rw [copyout_succ m hsrc hm]
    have fails : ((-1 : ℤ) = 0 ∨ (-1 : ℤ) = -1) ∧ (∀ n, m n ≠ none → n * PGSIZE < MAXVA) ∧
        (∀ a, a < dst ∨ dst + src.length ≤ a → m.byte a = m.byte a) ∧
        ((-1 : ℤ) = 0 → (src ≠ [] → dst + src.length ≤ MAXVA) ∧
          ∀ i < src.length, m.byte (dst + i) = some (src.getD i 0).toNat) :=
      ⟨.inr rfl, hm, fun _ _ => rfl, fun h => absurd h (by decide)⟩
    cases hp : m (dst / PGSIZE) with
    | none => exact fails
    | some x =>
      obtain ⟨flags, d⟩ := x
      simp only
      split
      · exact fails
      -- the part in the first page, then the rest
      have hoff := mod_lt dst (show 0 < PGSIZE by decide)
      have hdm := div_add_mod' dst PGSIZE
      have hr := hm (dst / PGSIZE) (by rw [hp]; simp)
      have hpos : 0 < src.length := length_pos_iff.2 hsrc
      obtain ⟨q, hq⟩ : ∃ q, MAXVA = q * PGSIZE := ⟨67108864, by decide⟩
      have hpage : (dst / PGSIZE + 1) * PGSIZE ≤ MAXVA := by
        rw [hq] at hr ⊢
        exact Nat.mul_le_mul_right _ (Nat.lt_of_mul_lt_mul_right hr)
      rw [Nat.add_mul, Nat.one_mul] at hpage
      have hrec := @ih (m.putPage dst flags d (src.take (PGSIZE - dst % PGSIZE)))
        (dst + (PGSIZE - dst % PGSIZE)) (src.drop (PGSIZE - dst % PGSIZE)) (putPage_inRange hm hp)
        (by rw [length_drop]; omega)
      rw [length_drop] at hrec
      obtain ⟨hret, hrange, hother, hok⟩ := hrec
      refine ⟨hret, hrange, fun a ha => ?_, fun h0 => ⟨fun _ => ?_, fun i hi => ?_⟩⟩
      · rw [hother a (by omega), byte_putPage_of_disjoint hp (by rw [length_take]; omega)]
      · by_cases hlong : PGSIZE - dst % PGSIZE < src.length
        · have := (hok h0).1 (by simpa using hlong)
          omega
        · omega
      · by_cases hlow : i < PGSIZE - dst % PGSIZE
        · have hi' : i < (src.take (PGSIZE - dst % PGSIZE)).length := by
            rw [length_take]
            omega
          rw [hother (dst + i) (.inl (by omega)),
            byte_putPage_of_mem hi' (by rw [length_take]; omega), getD_take hlow]
        · have h := (hok h0).2 (i - (PGSIZE - dst % PGSIZE)) (by omega)
          rwa [getD_drop (by omega), show dst + (PGSIZE - dst % PGSIZE) + (i - (PGSIZE - dst % PGSIZE)) = dst + i by omega]
            at h

end LogicalMem

/-- The logical memory of a process. -/
def logicalCopier : Copier UserLogical where
  byte m a := m.1.byte a
  copyout dst src m := ((m.1.copyout src.length dst src).1,
    ⟨(m.1.copyout src.length dst src).2, (LogicalMem.copyout_spec m.2 le_rfl).2.1⟩)
  result _ _ m := (LogicalMem.copyout_spec m.2 le_rfl).1
  bound _ _ m h := ((LogicalMem.copyout_spec m.2 le_rfl).2.2.2 h).1
  other _ _ m := (LogicalMem.copyout_spec m.2 le_rfl).2.2.1
  written _ _ m h := ((LogicalMem.copyout_spec m.2 le_rfl).2.2.2 h).2

end Xv6
