import Xv6.Console.Editor

/-!
# Bytes taken by console reads

`consoleread` advances `r` before it copies the byte. When `either_copyout` fails, `r` is not moved back
and the byte is in no result (`console_fault_loses_byte`). When the caller is killed after it has taken
bytes, the result is -1 and does not count them. Every other pass keeps the input: a byte that leaves the
buffer is stored for the caller in the same pass, or is a control-D that ends the read
(`console_read_keeps_input`).
-/

namespace Xv6

open List

/-- The handler does not move `r`. -/
theorem Cons.intr_r (x : Cons) (c : UInt8) : (x.intr c).r = x.r := by
  by_cases hc : Cons.Erases c
  · exact (spares_intr hc).r
  · simp only [Erases, not_or] at hc
    rw [intr]
    split_ifs with hP hU hH
    · rfl
    · exact absurd hU hc.1
    · exact absurd hH (not_or.2 hc.2)
    · exact absurd hH (not_or.2 hc.2)
    · rw [insert]
      dsimp only
      split_ifs <;> rfl

/-- The number of bytes stored for `p` since its call, from the number `k` before the event. -/
def ConsEvent.count (p : Slot) (k : ℕ) : ConsEvent → ℕ
  | .call q _ => if q = p then 0 else k
  | .deliver q _ => if q = p then k + 1 else k
  | .typed _ | .ret _ _ => k

/-- The number of bytes stored for `p` in its last call. -/
def copied (p : Slot) (es : List ConsEvent) : ℕ := es.foldl (ConsEvent.count p) 0

/-- A read has stored the bytes it has counted down. -/
def ConsPc.Counts (k : ℕ) : ConsPc → Prop
  | .idle => True
  | .enter a n => a.n - n = k
  | .loop a n => a.n - n = k

variable {s s' : ConsSys} {es vs : List ConsEvent}

/-- What a read has counted down are the bytes stored for its caller. -/
theorem ConsStep.counts (st : ConsStep s vs s') (h : ∀ p, (s.pc p).Counts (copied p es)) (p : Slot) :
    (s'.pc p).Counts (copied p (es ++ vs)) := by
  have hp := h p
  rw [copied, foldl_append]
  change (s'.pc p).Counts (vs.foldl (ConsEvent.count p) (copied p es))
  cases st with
  | intr c hl => exact hp
  | @done q a n hq hn | @killed q a n hq hn hr | @eof q a n hq hn hr hc | @fault q a n hq hn hr hc hd
  | @line q a n hq hn hr hc hd =>
    by_cases e : q = p
    · subst e
      simp [ConsSys.leave, ConsPc.Counts]
    · simpa [ConsSys.leave, ConsEvent.count, e, Ne.symm e] using hp
  | @call q a hq | @acquire q a n hq hl | @sleep q a n hq hn hr | @byte q a n hq hn hr hc hc' hd =>
    by_cases e : q = p
    · subst e
      rw [hq] at hp
      simp only [ConsPc.Counts] at hp
      simp only [ConsSys.goto, ConsSys.leave, Function.update_self, ConsPc.Counts, foldl_cons, foldl_nil,
        ConsEvent.count, if_true]
      omega
    · simpa [ConsSys.goto, ConsSys.leave, ConsEvent.count, e, Ne.symm e] using hp

theorem counts_run {s₀ : ConsSys} (hi : ∀ p, s₀.pc p = .idle) (hr : Trans.Run ConsStep s₀ es s) (p : Slot) :
    (s.pc p).Counts (copied p es) := by
  refine Trans.Run.invariant (I := fun es s => ∀ p, (s.pc p).Counts (copied p es)) (fun q => ?_)
    (fun _ _ _ _ h st => st.counts h) hr p
  rw [hi q]
  trivial

/-- What the step should do after the events `es`: a byte that leaves the buffer is stored for a caller, or
is a control-D whose read returns 0, and a read that returns counts the bytes stored for it. -/
def KeepsInput (es : List ConsEvent) (s : ConsSys) (vs : List ConsEvent) (s' : ConsSys) : Prop :=
  (s'.cons.r = s.cons.r ∨ s'.cons.r = s.cons.r + 1 ∧ ∃ p, .deliver p s.cons.front ∈ vs ∨
    s.cons.front = ctrl 'D' ∧ vs = [.ret p 0]) ∧
  ∀ p (v : ℤ), .ret p v ∈ vs → (copied p (es ++ vs) : ℤ) = max v 0

/-- The pass that the step makes of a loop, if it makes one: where the buffer has a byte that is not a
control-D, the destination can be written, and where it is empty and the read ends, it has taken none. -/
def Unharmed (s s' : ConsSys) : Prop :=
  ∀ p a n, s.pc p = .loop a n → s'.pc p ≠ .loop a n → 0 < n →
    if s.cons.r = s.cons.w then s'.pc p = .idle → n = a.n
    else s.cons.front ≠ ctrl 'D' → a.dst (a.n - n).toNat = true

/-- A step of `p` is a pass of no other loop. -/
theorem unharmed_iff {p : Slot} {a : ConsArgs} {n : ℤ} (hp : s.pc p = .loop a n)
    (hp' : s'.pc p ≠ .loop a n) (ho : ∀ q ≠ p, s'.pc q = s.pc q) :
    Unharmed s s' ↔ (0 < n → if s.cons.r = s.cons.w then s'.pc p = .idle → n = a.n
      else s.cons.front ≠ ctrl 'D' → a.dst (a.n - n).toNat = true) := by
  refine ⟨fun h => h p a n hp hp', fun h q b k hq hq' => ?_⟩
  by_cases e : q = p
  · subst e
    obtain ⟨rfl, rfl⟩ : b = a ∧ k = n := by simpa using hq.symm.trans hp
    exact h
  · exact absurd ((ho q e).trans hq) hq'

/-- A step of a process that is in no loop. -/
theorem unharmed_of_other {p : Slot} (hp : ∀ a n, s.pc p ≠ .loop a n) (ho : ∀ q ≠ p, s'.pc q = s.pc q) :
    Unharmed s s' := fun q a n hq hq' => by
  by_cases e : q = p
  · exact absurd (e ▸ hq) (hp a n)
  · exact absurd ((ho q e).trans hq) hq'

/-- **Which passes keep the input**: in every run, exactly those in which the copy does not fail and that do
not end a read by a kill after it has taken bytes. -/
theorem console_read_keeps_input {s₀ : ConsSys} (hi : ∀ p, s₀.pc p = .idle) (hr : Trans.Run ConsStep s₀ es s)
    (st : ConsStep s vs s') : KeepsInput es s vs s' ↔ Unharmed s s' := by
  have hc := counts_run hi hr
  have counted : ∀ {p a n}, s.pc p = .loop a n → a.n - n = copied p es := by
    intro p a n hp
    have h := hc p
    rwa [hp] at h
  have others : ∀ {p : Slot} {k : ConsPc} {q : Slot}, q ≠ p → Function.update s.pc p k q = s.pc q :=
    fun h => Function.update_of_ne h _ _
  -- a pass that returns `v`, after which `k` bytes are stored
  have one : ∀ {p : Slot} {v : ℤ}, (∀ q (w : ℤ), ConsEvent.ret q w ∈ [ConsEvent.ret p v] →
      (copied q (es ++ [.ret p v]) : ℤ) = max w 0) ↔ (copied p es : ℤ) = max v 0 := by
    intro p v
    have h : ∀ q, copied q (es ++ [.ret p v]) = copied q es := fun q => foldl_append
    exact ⟨fun hq => (h p) ▸ hq p v (mem_singleton_self _), fun hp q w hw => by
      obtain ⟨rfl, rfl⟩ : q = p ∧ w = v := by simpa using hw
      rw [h]
      exact hp⟩
  cases st with
  | intr c hl =>
    exact iff_of_true ⟨.inl (s.cons.intr_r c), by simp⟩ fun p a n hp hp' => absurd hp hp'
  | @call p a hp =>
    exact iff_of_true ⟨.inl rfl, by simp⟩ (unharmed_of_other (p := p) (by simp [hp]) fun q => others)
  | @acquire p a n hp _ =>
    exact iff_of_true ⟨.inl rfl, by simp⟩ (unharmed_of_other (p := p) (by simp [hp]) fun q => others)
  | @sleep p a n hp hn hr =>
    refine iff_of_true ⟨.inl rfl, by simp⟩ ((unharmed_iff hp (by simp [ConsSys.leave]) fun q => others).2 ?_)
    simp [hr, ConsSys.leave]
  | @killed p a n hp hn hr =>
    have hk := counted hp
    rw [unharmed_iff hp (by simp [ConsSys.leave]) fun q => others, KeepsInput, one, if_pos hr]
    refine ⟨fun h _ _ => ?_, fun h => ⟨.inl rfl, ?_⟩⟩
    · have := h.2
      omega
    · have := h hn (by simp [ConsSys.leave])
      omega
  | @done p a n hp hn =>
    have hk := counted hp
    refine iff_of_true ⟨.inl rfl, one.2 (by omega)⟩
      ((unharmed_iff hp (by simp [ConsSys.leave]) fun q => others).2 fun h => absurd h (by omega))
  | @eof p a n hp hn hr hD =>
    have hk := counted hp
    refine iff_of_true ⟨?_, one.2 (by omega)⟩
      ((unharmed_iff hp (by simp [ConsSys.leave]) fun q => others).2 ?_)
    · by_cases hlt : n < a.n
      · rw [if_pos hlt]
        exact .inl rfl
      · rw [if_neg hlt]
        exact .inr ⟨rfl, p, .inr ⟨hD, by rw [show a.n - n = 0 by omega]⟩⟩
    · simp [hr, hD]
  | @fault p a n hp hn hr hD hd =>
    refine iff_of_false (fun h => ?_) fun h => ?_
    · -- the byte is neither in the buffer nor stored
      rcases h.1 with h | ⟨-, q, h | h⟩
      · exact absurd h (by simp [ConsSys.leave, Cons.take])
      · simp at h
      · exact hD h.1
    · have := (unharmed_iff hp (by simp [ConsSys.leave]) fun q => others).1 h hn
      simp [hr, hD, hd] at this
  | @line p a n hp hn hr hl hd =>
    have hk := counted hp
    refine iff_of_true ⟨.inr ⟨rfl, p, .inl (by simp [hl])⟩, fun q v hv => ?_⟩
      ((unharmed_iff hp (by simp [ConsSys.leave]) fun q => others).2 (by simp [hr, hd]))
    obtain ⟨rfl, rfl⟩ : q = p ∧ v = a.n - (n - 1) := by simpa using hv
    have hcount : copied q (es ++ [.deliver q newline, .ret q (a.n - (n - 1))]) = copied q es + 1 := by
      rw [copied, foldl_append]
      simp [ConsEvent.count, copied]
    rw [hcount]
    push_cast
    omega
  | @byte p a n hp hn hr hc hc' hd =>
    refine iff_of_true ⟨.inr ⟨rfl, p, .inl (mem_singleton_self _)⟩, by simp⟩
      ((unharmed_iff hp (by simp [ConsSys.goto]) fun q => others).2 (by simp [hr, hd]))

/-- A newline is typed and read. -/
theorem console_read_keeps_input_newline :
    let vs : List ConsEvent := [.deliver 0 newline, .ret 0 1]
    let es : List ConsEvent := [.typed newline, .call 0 ⟨fun _ => true, 1⟩]
    ∃ s s', Trans.Run ConsStep .init es s ∧ ConsStep s vs s' ∧ KeepsInput es s vs s' := by
  intro vs es
  have hr := (Trans.Run.refl : Trans.Run ConsStep .init [] _)
    |>.tail (.intr newline rfl)
    |>.tail (.call 0 ⟨fun _ => true, 1⟩ rfl)
    |>.tail (@ConsStep.acquire _ 0 ⟨fun _ => true, 1⟩ 1 rfl rfl)
  obtain ⟨s, s', hr, st, hw⟩ : ∃ s s', Trans.Run ConsStep .init es s ∧ ConsStep s vs s' ∧
      Unharmed s s' := by
    refine ⟨_, _, hr, @ConsStep.line _ 0 ⟨fun _ => true, 1⟩ 1 rfl (by decide) (by decide +kernel)
      (by decide +kernel) rfl, ?_⟩
    refine (unharmed_iff (p := 0) rfl (by simp [ConsSys.leave]) fun q hq =>
      Function.update_of_ne hq _ _).2 fun _ => ?_
    rw [if_neg (by decide +kernel)]
    exact fun _ => rfl
  exact ⟨s, s', hr, st, (console_read_keeps_input (fun _ => rfl) hr st).2 hw⟩

/-- Two bytes are typed and read to a place that cannot be written: the first is gone and no byte is stored. -/
theorem console_fault_loses_byte :
    let a : ConsArgs := ⟨fun _ => false, 2⟩
    ∃ s s', Trans.Run ConsStep .init [.typed 97, .typed newline, .call 0 a] s ∧ s.cons.ready = [97, newline] ∧
      ConsStep s [.ret 0 0] s' ∧ s'.cons.ready = [newline] := by
  intro a
  have hr := (Trans.Run.refl : Trans.Run ConsStep .init [] _)
    |>.tail (.intr 97 rfl)
    |>.tail (.intr newline rfl)
    |>.tail (.call 0 a rfl)
    |>.tail (@ConsStep.acquire _ 0 a 2 rfl rfl)
  exact ⟨_, _, hr, by decide +kernel, @ConsStep.fault _ 0 a 2 rfl (by decide) (by decide +kernel) (by decide +kernel) rfl,
    by decide +kernel⟩

end Xv6
