import Mathlib.Data.List.GetD
import Xv6.Sh.Parse

/-!
# The token sequence of a line

`tokens s p` are the tokens that `gettoken` returns from the position `p` on. `gettoken` takes the first one
off, and `peek` looks at its kind; the parser sees the line only through them.
-/

namespace Xv6

open List

namespace Sh

variable {s : List UInt8} {f : UInt8 → Bool} {p q j : ℕ}

/-! ## Scanning -/

theorem charAt_of_le (h : s.length ≤ p) : charAt s p = 0 := getD_eq_default _ _ h

theorem charAt_ne_zero (h0 : (0 : UInt8) ∉ s) (h : p < s.length) : charAt s p ≠ 0 := by
  intro e
  rw [charAt, getD_eq_getElem _ _ h] at e
  exact h0 (e ▸ getElem_mem h)

theorem lt_of_charAt (h : charAt s p ≠ 0) : p < s.length := by
  by_contra hle
  exact h (charAt_of_le (by omega))

/-- One round of the loop. -/
theorem scan_eq (s : List UInt8) (f : UInt8 → Bool) (p : ℕ) :
    scan s f p = if p < s.length ∧ f (charAt s p) = true then scan s f (p + 1) else p := by
  unfold scan
  by_cases hp : p < s.length
  · rw [drop_eq_getElem_cons hp, charAt, getD_eq_getElem _ _ hp]
    by_cases hf : f s[p] = true
    · rw [takeWhile_cons_of_pos hf, if_pos ⟨hp, hf⟩, length_cons]
      omega
    · rw [takeWhile_cons_of_neg hf, if_neg fun h => hf h.2, length_nil, Nat.add_zero]
  · rw [drop_eq_nil_of_le (by omega), if_neg fun h => hp h.1, takeWhile_nil, length_nil,
      Nat.add_zero]

theorem le_scan : p ≤ scan s f p := Nat.le_add_right ..

theorem scan_le (h : p ≤ s.length) : scan s f p ≤ s.length := by
  have := (List.takeWhile_prefix f (l := s.drop p)).length_le
  rw [length_drop] at this
  unfold scan
  omega

/-- The characters that the loop passes. -/
theorem scan_mem (h₁ : p ≤ j) (h₂ : j < scan s f p) : f (charAt s j) = true := by
  induction hn : s.length - p generalizing p with
  | zero =>
    rw [scan_eq, if_neg fun h => by omega] at h₂
    omega
  | succ n ih =>
    rw [scan_eq] at h₂
    split at h₂
    · rename_i hf
      rcases h₁.eq_or_lt with rfl | hlt
      · exact hf.2
      · exact ih hlt h₂ (by omega)
    · omega

theorem scan_stop (h : scan s f p < s.length) : f (charAt s (scan s f p)) = false := by
  induction hn : s.length - p generalizing p with
  | zero =>
    rw [scan_eq, if_neg fun h => by omega] at h
    omega
  | succ n ih =>
    rw [scan_eq] at h ⊢
    split
    · rename_i hf
      rw [if_pos hf] at h
      exact ih h (by omega)
    · rename_i hf
      rw [if_neg hf] at h
      simpa [h] using hf

theorem scan_of_not (h : f (charAt s p) = false) : scan s f p = p := by
  rw [scan_eq, if_neg fun hf => by rw [h] at hf; exact Bool.false_ne_true hf.2]

theorem not_isSpace_zero : isSpace 0 = false := by decide

theorem not_isSpace_scan (s : List UInt8) (p : ℕ) : isSpace (charAt s (scan s isSpace p)) = false := by
  by_cases h : scan s isSpace p < s.length
  · exact scan_stop h
  · rw [charAt_of_le (by omega)]
    exact not_isSpace_zero

@[simp] theorem scan_scan_isSpace (s : List UInt8) (p : ℕ) :
    scan s isSpace (scan s isSpace p) = scan s isSpace p := scan_of_not (not_isSpace_scan s p)

/-! ## One token -/

/-- A character that starts a word. -/
theorem isWord_of_ne {c : UInt8} (hs : isSpace c = false) (h₁ : c ≠ '|'.toUInt8) (h₂ : c ≠ '('.toUInt8)
    (h₃ : c ≠ ')'.toUInt8) (h₄ : c ≠ ';'.toUInt8) (h₅ : c ≠ '&'.toUInt8) (h₆ : c ≠ '<'.toUInt8)
    (h₇ : c ≠ '>'.toUInt8) : isWord c = true := by
  simp only [isWord, symbols, chars, map_cons, map_nil, mem_cons, not_mem_nil, or_false,
    not_or, decide_eq_true_eq]
  exact ⟨by simpa [isSpace] using hs, h₆, h₁, h₇, h₅, h₄, h₂, h₃⟩

/-- What a token looks like in the line. -/
inductive Lexed (s : List UInt8) (q : ℕ) : Kind → ℕ → Prop
  | eof : charAt s q = 0 → Lexed s q .eof q
  | bar : charAt s q = '|'.toUInt8 → Lexed s q .bar (q + 1)
  | lpar : charAt s q = '('.toUInt8 → Lexed s q .lpar (q + 1)
  | rpar : charAt s q = ')'.toUInt8 → Lexed s q .rpar (q + 1)
  | semi : charAt s q = ';'.toUInt8 → Lexed s q .semi (q + 1)
  | amp : charAt s q = '&'.toUInt8 → Lexed s q .amp (q + 1)
  | lt : charAt s q = '<'.toUInt8 → Lexed s q .lt (q + 1)
  | gt : charAt s q = '>'.toUInt8 → Lexed s q .gt (q + 1)
  | append : charAt s q = '>'.toUInt8 → charAt s (q + 1) = '>'.toUInt8 → Lexed s q .append (q + 2)
  | word : isWord (charAt s q) = true → charAt s q ≠ 0 → Lexed s q .word (scan s isWord q)

theorem lexed (h : isSpace (charAt s q) = false) : Lexed s q (lex s q).1 (lex s q).2 := by
  fun_cases lex s q with
  | case1 c h₀ => exact .eof h₀
  | case2 c h₀ h₁ => exact .bar h₁
  | case3 c h₀ h₁ h₂ => exact .lpar h₂
  | case4 c h₀ h₁ h₂ h₃ => exact .rpar h₃
  | case5 c h₀ h₁ h₂ h₃ h₄ => exact .semi h₄
  | case6 c h₀ h₁ h₂ h₃ h₄ h₅ => exact .amp h₅
  | case7 c h₀ h₁ h₂ h₃ h₄ h₅ h₆ => exact .lt h₆
  | case8 c h₀ h₁ h₂ h₃ h₄ h₅ h₆ h₇ h₈ => exact .append h₇ h₈
  | case9 c h₀ h₁ h₂ h₃ h₄ h₅ h₆ h₇ h₈ => exact .gt h₇
  | case10 c h₀ h₁ h₂ h₃ h₄ h₅ h₆ h₇ => exact .word (isWord_of_ne h h₁ h₂ h₃ h₄ h₅ h₆ h₇) h₀

variable {k : Kind} {e : ℕ}

theorem Lexed.charAt_ne_zero (h : Lexed s q k e) (hk : k ≠ .eof) : charAt s q ≠ 0 := by
  cases h with
  | eof h => exact absurd rfl hk
  | word _ h => exact h
  | bar h | lpar h | rpar h | semi h | amp h | lt h | gt h | append h => rw [h]; decide

theorem Lexed.eof_iff (h : Lexed s q k e) : k = .eof ↔ charAt s q = 0 := by
  refine ⟨fun hk => ?_, fun h0 => by_contra fun hk => h.charAt_ne_zero hk h0⟩
  subst hk
  cases h with
  | eof h => exact h

theorem Lexed.end_of_eof (h : Lexed s q .eof e) : e = q := by
  cases h with
  | eof _ => rfl

/-- A token has characters. -/
theorem Lexed.lt_end (h : Lexed s q k e) (hk : k ≠ .eof) : q < e ∧ e ≤ s.length := by
  have hq := lt_of_charAt (h.charAt_ne_zero hk)
  cases h with
  | eof h => exact absurd rfl hk
  | word hw _ =>
    refine ⟨?_, scan_le hq.le⟩
    rw [scan_eq, if_pos ⟨hq, hw⟩]
    exact le_scan
  | append _ h =>
    have : q + 1 < s.length := lt_of_charAt (by rw [h]; decide)
    omega
  | _ => omega

theorem Lexed.word_chars (h : Lexed s q .word e) :
    (∀ j, q ≤ j → j < e → isWord (charAt s j) = true) ∧ (e < s.length → isWord (charAt s e) = false) := by
  cases h with
  | word _ _ => exact ⟨fun j h₁ h₂ => scan_mem h₁ h₂, scan_stop⟩

/-! ## The sequence -/

theorem gettoken_eq (s : List UInt8) (p : ℕ) :
    gettoken s p = (.ok ((lex s (scan s isSpace p)).1, scan s isSpace p, (lex s (scan s isSpace p)).2),
      scan s isSpace (lex s (scan s isSpace p)).2) := rfl

theorem gettoken_lt {t : Token} {p' : ℕ} (h : gettoken s p = (.ok t, p')) (ht : t.1 ≠ .eof) :
    p < p' ∧ p' ≤ s.length := by
  rw [gettoken_eq] at h
  obtain ⟨rfl, rfl⟩ := h
  obtain ⟨h₁, h₂⟩ := (lexed (not_isSpace_scan s p)).lt_end ht
  exact ⟨le_scan.trans_lt (h₁.trans_le le_scan), scan_le h₂⟩

/-- The tokens that `gettoken` returns, up to the end of the line. -/
def tokens (s : List UInt8) (p : ℕ) : List Token :=
  match _h : gettoken s p with
  | (.ok t, p') => if _ht : t.1 = .eof then [] else t :: tokens s p'
  | (.error _, _) => []
termination_by s.length - p
decreasing_by
  have := gettoken_lt _h _ht
  omega

theorem tokens_of_gettoken {t : Token} {p' : ℕ} (h : gettoken s p = (.ok t, p')) :
    tokens s p = if t.1 = .eof then [] else t :: tokens s p' := by
  rw [tokens]
  split
  · rename_i t' p'' h'
    rw [h] at h'
    obtain ⟨rfl, rfl⟩ := h'
    rfl
  · rename_i h'
    rw [h] at h'
    cases h'

theorem tokens_induction {motive : ℕ → List Token → Prop} (nil : ∀ p, motive p [])
    (cons : ∀ p t p', gettoken s p = (.ok t, p') → t.1 ≠ .eof → motive p' (tokens s p') →
      motive p (t :: tokens s p')) (p : ℕ) : motive p (tokens s p) := by
  induction hn : s.length - p using Nat.strong_induction_on generalizing p with
  | _ n ih =>
    rw [tokens_of_gettoken (gettoken_eq s p)]
    split
    · exact nil p
    · rename_i ht
      have := gettoken_lt (gettoken_eq s p) ht
      exact cons p _ _ (gettoken_eq s p) ht (ih _ (by omega) _ rfl)

/-- A word of the line. -/
structure IsWord (s : List UInt8) (w : Span) : Prop where
  lt : w.1 < w.2
  le : w.2 ≤ s.length
  chars : ∀ j, w.1 ≤ j → j < w.2 → isWord (charAt s j) = true
  stop : w.2 < s.length → isWord (charAt s w.2) = false

theorem isWord_of_mem_tokens : ∀ w, (Kind.word, w) ∈ tokens s p → IsWord s w := by
  refine tokens_induction (motive := fun _ ts => ∀ w, (Kind.word, w) ∈ ts → IsWord s w)
    (fun _ w h => absurd h not_mem_nil) (fun p t p' ht hne ih w h => ?_) p
  rw [gettoken_eq] at ht
  obtain ⟨rfl, rfl⟩ := ht
  rcases mem_cons.1 h with heq | hmem
  · have hlex := lexed (not_isSpace_scan s p)
    obtain ⟨hk, rfl⟩ := Prod.mk.inj heq
    rw [← hk] at hlex
    have := hlex.lt_end (by decide)
    exact ⟨this.1, this.2, hlex.word_chars.1, hlex.word_chars.2⟩
  · exact ih w hmem

theorem kind_of_mem_tokens : ∀ t ∈ tokens s p, t.1 ≠ .eof := by
  refine tokens_induction (motive := fun _ ts => ∀ t ∈ ts, t.1 ≠ .eof)
    (fun _ w h => absurd h not_mem_nil) (fun p t p' _ hne ih t' h => ?_) p
  rcases mem_cons.1 h with rfl | hmem
  · exact hne
  · exact ih t' hmem

theorem length_tokens_le : (tokens s p).length ≤ s.length - p := by
  refine tokens_induction (motive := fun p ts => ts.length ≤ s.length - p) (fun _ => Nat.zero_le _)
    (fun p t p' ht hne ih => ?_) p
  have := gettoken_lt ht hne
  rw [length_cons]
  omega

/-! ## What the parser sees -/

/-- The tokens `ts` are left from the position `p` on. -/
structure Left (s : List UInt8) (ts : List Token) (p : ℕ) : Prop where
  le : p ≤ s.length
  tokens : Sh.tokens s p = ts

/-- Is the first character of a token of this kind one of `toks`, if these are symbols? -/
def Kind.startsIn (toks : List UInt8) : Kind → Bool
  | eof | word => false
  | bar => '|'.toUInt8 ∈ toks
  | lpar => '('.toUInt8 ∈ toks
  | rpar => ')'.toUInt8 ∈ toks
  | semi => ';'.toUInt8 ∈ toks
  | amp => '&'.toUInt8 ∈ toks
  | lt => '<'.toUInt8 ∈ toks
  | gt | append => '>'.toUInt8 ∈ toks

theorem Lexed.startsIn {toks : List UInt8} (h : Lexed s q k e) (hsym : ∀ c ∈ toks, c ∈ symbols) :
    k.startsIn toks = decide (charAt s q ≠ 0 ∧ charAt s q ∈ toks) := by
  have symbol : ∀ c : UInt8, c ≠ 0 → decide (c ∈ toks) = decide (c ≠ 0 ∧ c ∈ toks) := fun c hc => by
    simp [hc]
  cases h with
  | eof h => simp [Kind.startsIn, h]
  | word h _ =>
    have hmem : charAt s q ∉ toks := fun hm => by
      simp only [isWord, decide_eq_true_eq] at h
      exact h.2 (hsym _ hm)
    simp [Kind.startsIn, hmem]
  | append h _ | _ h => rw [h]; exact symbol _ (by decide)

variable {ts : List Token} {E : Bad → ℕ → Prop}

theorem Left.scan (h : Left s ts p) : Left s ts (scan s isSpace p) where
  le := scan_le h.le
  tokens := by
    have h' := gettoken_eq s (Sh.scan s isSpace p)
    rw [scan_scan_isSpace] at h'
    rw [← h.tokens, tokens_of_gettoken h', tokens_of_gettoken (gettoken_eq s p)]

/-- `gettoken` takes the first token off. -/
theorem wp_gettoken {Q : Token → ℕ → Prop} (h : Left s ts p)
    (hnil : ts = [] → ∀ t p', t.1 = .eof → Left s [] p' → Q t p')
    (hcons : ∀ t ts', ts = t :: ts' → ∀ p', Left s ts' p' → Q t p') : Prog.wp (gettoken s) Q E p := by
  have ht := h.tokens
  rw [tokens_of_gettoken (gettoken_eq s p)] at ht
  unfold Prog.wp
  rw [gettoken_eq]
  have hlex := lexed (not_isSpace_scan s p)
  split at ht
  · rename_i heof
    refine hnil ht.symm _ _ heof ?_
    simp only at heof
    rw [heof] at hlex
    rw [hlex.end_of_eof, ht]
    exact h.scan.scan
  · rename_i hne
    have := gettoken_lt (gettoken_eq s p) hne
    exact hcons _ _ ht.symm _ ⟨this.2, rfl⟩

/-- `peek` looks at the first token. -/
theorem wp_peek {Q : Bool → ℕ → Prop} {toks : List UInt8} (h : Left s ts p) (hsym : ∀ c ∈ toks, c ∈ symbols)
    (hQ : ∀ p', Left s ts p' → Q (ts.head?.any fun t => t.1.startsIn toks) p') :
    Prog.wp (peek s toks) Q E p := by
  have hlex := lexed (not_isSpace_scan s p)
  have hp := hQ _ h.scan
  rw [← h.tokens, tokens_of_gettoken (gettoken_eq s p)] at hp
  have hb := hlex.startsIn hsym
  unfold peek
  simp only [Prog.wp_bind, Prog.wp_modify, Prog.wp_get, Prog.wp_pure]
  rw [← hb]
  split at hp
  · rename_i heof
    simp only at heof
    rw [heof]
    exact hp
  · exact hp

/-- The whole line was read if no tokens are left. -/
theorem Left.nil_iff (h : Left s ts p) (h0 : (0 : UInt8) ∉ s) : ts = [] ↔ Sh.scan s isSpace p = s.length := by
  have hlex := lexed (not_isSpace_scan s p)
  have hle := h.scan.le
  rw [← h.tokens, tokens_of_gettoken (gettoken_eq s p)]
  constructor
  · intro hnil
    split at hnil
    · rename_i heof
      by_contra hne
      exact charAt_ne_zero h0 (by omega) (hlex.eof_iff.1 heof)
    · cases hnil
  · intro hend
    rw [if_pos (hlex.eof_iff.2 (charAt_of_le hend.ge))]

end Sh

end Xv6
