import Mathlib.Data.List.Basic

/-!
# Programs with a state that may panic

A program over a state `σ` with panics `ε` is a function from the state to a result, a value or a
panic, and the state it leaves. The state is kept on a panic, since what a stopped machine leaves
behind (on a disk, say) is still there.

`wp f Q E s` says that the run of `f` from `s` ends in a value and a state satisfying `Q` or in a
panic and a state satisfying `E`. Function specifications are proved as `wp` statements and
composed by `wp_call`; the primitive programs are executed by `simp` with the `wp` equations.
-/

/-- Programs over the state `σ` with panics `ε`. -/
def Prog (σ ε α : Type) : Type := σ → Except ε α × σ

namespace Prog

variable {σ τ ε α β : Type}

/-- Run `f`, then `g` on its value; a panic of `f` stops the whole program. -/
def andThen (f : Prog σ ε α) (g : α → Prog σ ε β) : Prog σ ε β := fun s =>
  match f s with
  | (.ok a, s') => g a s'
  | (.error e, s') => (.error e, s')

instance : Monad (Prog σ ε) where
  pure a := fun s => (.ok a, s)
  bind := andThen

/-- The state. -/
def get : Prog σ ε σ := fun s => (.ok s, s)

/-- Replace the state by its image under `f`. -/
def modify (f : σ → σ) : Prog σ ε Unit := fun s => (.ok (), f s)

/-- Stop with the panic `e`. -/
def panic (e : ε) : Prog σ ε α := fun s => (.error e, s)

/-- Run a program on a component of the state, given by `view` and `set`. -/
def zoom (view : τ → σ) (set : σ → τ → τ) (f : Prog σ ε α) : Prog τ ε α := fun t =>
  match f (view t) with
  | (r, s') => (r, set s' t)

/-- Run the program `f` on every element of a list, in order. -/
def each (f : β → Prog σ ε Unit) : List β → Prog σ ε Unit
  | [] => pure ()
  | b :: bs => f b >>= fun _ => each f bs

/-- The run of `f` from `s` ends in a value satisfying `Q` or in a panic satisfying `E`. -/
def wp (f : Prog σ ε α) (Q : α → σ → Prop) (E : ε → σ → Prop) (s : σ) : Prop :=
  match f s with
  | (.ok a, s') => Q a s'
  | (.error e, s') => E e s'

variable {f : Prog σ ε α} {g : α → Prog σ ε β} {Q Q' : α → σ → Prop} {E E' : ε → σ → Prop} {s : σ}

@[simp] theorem wp_pure (a : α) : wp (pure a : Prog σ ε α) Q E s ↔ Q a s := Iff.rfl

@[simp] theorem wp_get {Q : σ → σ → Prop} : wp (get : Prog σ ε σ) Q E s ↔ Q s s := Iff.rfl

@[simp] theorem wp_modify (h : σ → σ) {Q : Unit → σ → Prop} :
    wp (modify h : Prog σ ε Unit) Q E s ↔ Q () (h s) := Iff.rfl

@[simp] theorem wp_panic (e : ε) : wp (panic e : Prog σ ε α) Q E s ↔ E e s := Iff.rfl

@[simp] theorem wp_bind {Q : β → σ → Prop} :
    wp (f >>= g) Q E s ↔ wp f (fun a => wp (g a) Q E) E s := by
  change wp (andThen f g) Q E s ↔ _
  unfold wp andThen
  rcases f s with ⟨_ | a, s'⟩ <;> rfl

@[simp] theorem wp_ite {c : Prop} [Decidable c] {f f' : Prog σ ε α} :
    wp (if c then f else f') Q E s ↔ if c then wp f Q E s else wp f' Q E s := by
  split <;> rfl

@[simp] theorem wp_zoom {view : τ → σ} {set : σ → τ → τ} {t : τ} {Q : α → τ → Prop}
    {E : ε → τ → Prop} :
    wp (zoom view set f) Q E t ↔
      wp f (fun a s' => Q a (set s' t)) (fun e s' => E e (set s' t)) (view t) := by
  unfold wp zoom
  rcases f (view t) with ⟨_ | a, s'⟩ <;> rfl

/-- Consequence. -/
theorem wp_mono (h : wp f Q E s) (hQ : ∀ a s', Q a s' → Q' a s') (hE : ∀ e s', E e s' → E' e s') :
    wp f Q' E' s := by
  unfold wp at h ⊢
  split at h
  · exact hQ _ _ h
  · exact hE _ _ h

/-- Call of a specified program: continue from any result its specification allows. -/
theorem wp_call {Q : β → σ → Prop} (h : wp f Q' E s)
    (k : ∀ a s', Q' a s' → wp (g a) Q E s') : wp (f >>= g) Q E s :=
  wp_bind.2 (wp_mono h k fun _ _ he => he)

/-- What every result has, a run has however it ends. -/
theorem wp_any (h : ∀ a s', Q a s') : wp f Q (fun _ _ => True) s := by
  unfold wp
  split
  · exact h _ _
  · trivial

/-- An invariant of the body holds after a run over a list. -/
theorem wp_each {f : β → Prog σ ε Unit} {I : List β → σ → Prop} (l : List β)
    (step : ∀ b bs s, I (b :: bs) s → wp (f b) (fun _ s' => I bs s') E s) (h : I l s) :
    wp (each f l) (fun _ s' => I [] s') E s := by
  induction l generalizing s with
  | nil => exact h
  | cons b bs ih => exact wp_call (step b bs s h) fun _ s' h' => ih h'

/-- A run that cannot panic ends in a value. -/
theorem wp_total (h : wp f Q (fun _ _ => False) s) : ∃ a s', f s = (.ok a, s') ∧ Q a s' := by
  unfold wp at h
  split at h
  · exact ⟨_, _, ‹_›, h⟩
  · exact h.elim

/-- A run that returned a value. -/
theorem wp_ok {a : α} {s' : σ} (h : wp f Q E s) (hf : f s = (.ok a, s')) : Q a s' := by
  unfold wp at h
  rwa [hf] at h

/-- The run after a program that returned a value. -/
theorem bind_of_ok {a : α} {s' : σ} (h : f s = (.ok a, s')) : (f >>= g) s = g a s' := by
  change andThen f g s = _
  rw [andThen, h]

/-- The program keeps the part `v` of the state, however it ends. -/
def Keeps {γ : Type} (v : σ → γ) (f : Prog σ ε α) : Prop := ∀ s, v (f s).2 = v s

namespace Keeps

variable {γ : Type} {v : σ → γ}

theorem pure (a : α) : Keeps v (Pure.pure a : Prog σ ε α) := fun _ => rfl

theorem panic (e : ε) : Keeps v (Prog.panic e : Prog σ ε α) := fun _ => rfl

theorem get : Keeps v (Prog.get : Prog σ ε σ) := fun _ => rfl

theorem bind (hf : Keeps v f) (hg : ∀ a, Keeps v (g a)) : Keeps v (f >>= g) := fun s => by
  have h := hf s
  change v (andThen f g s).2 = v s
  unfold andThen
  split
  · rename_i a s' he
    rw [he] at h
    exact (hg a s').trans h
  · rename_i e s' he
    rw [he] at h
    exact h

theorem ite {c : Prop} [Decidable c] {f g : Prog σ ε α} (hf : Keeps v f) (hg : Keeps v g) :
    Keeps v (if c then f else g) := by
  split
  · exact hf
  · exact hg

theorem each {f : β → Prog σ ε Unit} (hf : ∀ b, Keeps v (f b)) (l : List β) : Keeps v (each f l) := by
  induction l with
  | nil => exact pure ()
  | cons b bs ih => exact (hf b).bind fun _ => ih

theorem wp (hf : Keeps v f) (hQ : ∀ a s', v s' = v s → Q a s') : Prog.wp f Q (fun _ _ => True) s := by
  have h := hf s
  unfold Prog.wp
  split
  · rename_i a s' he
    rw [he] at h
    exact hQ a s' h
  · trivial

end Keeps

end Prog
