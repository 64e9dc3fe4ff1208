import Xv6.Sh.Grammar

/-!
# The command of a line

`parsecmd` parses the whole line and then puts a NUL behind each word of the command. Behind a word there is
a space, a symbol or the end of the line, so no word is changed and the pointers in the command are C strings.
-/

namespace Xv6

open Function Prog List Prod

namespace Sh

/-- The words of a command. -/
def Cmd.words : Cmd → List Span
  | exec argv => argv
  | redir cmd file _ _ => file :: cmd.words
  | pipe left right => left.words ++ right.words
  | list left right => left.words ++ right.words
  | back cmd => cmd.words

/-- The C string at `q` is `w`. -/
structure CStr (buf : ℕ → UInt8) (q : ℕ) (w : List UInt8) : Prop where
  chars : ∀ j (h : j < w.length), buf (q + j) = w[j]
  nonzero : (0 : UInt8) ∉ w
  nul : buf (q + w.length) = 0

variable {s : List UInt8} {us : List Token} {c : Cmd} {w : Span}

/-! ## The words of a derivation -/

theorem Cmd.mem_words_backs {k : ℕ} : w ∈ (c.backs k).words ↔ w ∈ c.words := by
  induction k generalizing c with
  | zero => rfl
  | succ k ih => exact ih (c := c.back)

theorem Cmd.mem_words_wrap {rs : List Redirection} :
    w ∈ (c.wrap rs).words ↔ w ∈ c.words ∨ ∃ r ∈ rs, r.file = w := by
  induction rs generalizing c with
  | nil => simp [Cmd.wrap]
  | cons r rs ih =>
    have := ih (c := .redir c r.file r.mode r.fd)
    simp only [Cmd.words, mem_cons] at this
    simp only [mem_cons, exists_eq_or_imp]
    rw [show c.wrap (r :: rs) = (Cmd.redir c r.file r.mode r.fd).wrap rs from rfl, this]
    tauto

theorem Redirs.mem {rs : List Redirection} (h : Redirs us rs) {r : Redirection} (hr : r ∈ rs) :
    (Kind.word, r.file) ∈ us := by
  induction h with
  | nil => exact absurd hr not_mem_nil
  | cons x w hop hrs ih =>
    rcases mem_cons.1 hr with rfl | hr
    · simp
    · simp [ih hr]

theorem Args.mem {ws : List Span} {qs : List Redirection} (h : Args us ws qs) :
    (∀ w ∈ ws, (Kind.word, w) ∈ us) ∧ ∀ r ∈ qs, (Kind.word, r.file) ∈ us := by
  induction h with
  | nil => exact ⟨fun w hw => absurd hw not_mem_nil, fun r hr => absurd hr not_mem_nil⟩
  | cons w hrs hargs ih =>
    refine ⟨fun w' hw => ?_, fun r hr => ?_⟩
    · rcases mem_cons.1 hw with rfl | hw
      · simp
      · simp [ih.1 w' hw]
    · rcases mem_append.1 hr with hr | hr
      · simp [hrs.mem hr]
      · simp [ih.2 r hr]

mutual

theorem Line.words_mem {us : List Token} {c : Cmd} : Line us c → ∀ w ∈ c.words, (Kind.word, w) ∈ us
  | .last hp _, w, hw => mem_append_left _ (hp.words_mem w (Cmd.mem_words_backs.1 hw))
  | .list x hp _ hl, w, hw => by
    rcases mem_append.1 hw with hw | hw
    · simp [hp.words_mem w (Cmd.mem_words_backs.1 hw)]
    · simp [hl.words_mem w hw]

theorem Pipe.words_mem {us : List Token} {c : Cmd} : Pipe us c → ∀ w ∈ c.words, (Kind.word, w) ∈ us
  | .last he, w, hw => he.words_mem w hw
  | .pipe x he hp, w, hw => by
    rcases mem_append.1 hw with hw | hw
    · simp [he.words_mem w hw]
    · simp [hp.words_mem w hw]

theorem Exec.words_mem {us : List Token} {c : Cmd} : Exec us c → ∀ w ∈ c.words, (Kind.word, w) ∈ us
  | .block x y hl hrs, w, hw => by
    rcases Cmd.mem_words_wrap.1 hw with hw | ⟨r, hr, rfl⟩
    · simp [hl.words_mem w hw]
    · simp [hrs.mem hr]
  | .simple hrs hargs _, w, hw => by
    rcases Cmd.mem_words_wrap.1 hw with hw | ⟨r, hr, rfl⟩
    · exact mem_append_right _ (hargs.mem.1 w hw)
    · rcases mem_append.1 hr with hr | hr
      · exact mem_append_left _ (hrs.mem hr)
      · exact mem_append_right _ (hargs.mem.2 r hr)

end

/-! ## NUL-termination -/

theorem foldl_clear (argv : List Span) (buf : ℕ → UInt8) (j : ℕ) :
    argv.foldl (fun buf a => update buf a.2 0) buf j =
      if j ∈ argv.map snd then 0 else buf j := by
  induction argv generalizing buf with
  | nil => simp
  | cons a argv ih =>
    rw [foldl_cons, ih]
    by_cases h : j = a.2
    · rw [h, update_self, ite_self, if_pos (mem_map_of_mem mem_cons_self)]
    · rw [update_of_ne h]
      simp only [map_cons, mem_cons, h, false_or]

/-- `nulterminate` clears the characters behind the words. -/
theorem nulterminate_eq (c : Cmd) (buf : ℕ → UInt8) (j : ℕ) :
    nulterminate c buf j = if j ∈ c.words.map snd then 0 else buf j := by
  induction c generalizing buf with
  | exec argv => exact foldl_clear argv buf j
  | redir cmd file mode fd ih =>
    rw [nulterminate, Cmd.words]
    by_cases h : j = file.2
    · rw [h, update_self, if_pos (mem_map_of_mem mem_cons_self)]
    · rw [update_of_ne h, ih]
      simp only [map_cons, mem_cons, h, false_or]
  | pipe left right ih₁ ih₂ | list left right ih₁ ih₂ =>
    rw [nulterminate, ih₂, ih₁, Cmd.words]
    by_cases h : j ∈ right.words.map snd
    · rw [if_pos h, map_append, if_pos (mem_append_right _ h)]
    · simp only [map_append, mem_append, h, or_false, if_false]
  | back cmd ih => exact ih buf

/-- The words of a command are C strings after `nulterminate`, if they are words of the line. -/
theorem cstr_nulterminate (h0 : (0 : UInt8) ∉ s) (hc : ∀ w ∈ c.words, IsWord s w) (hw : w ∈ c.words) :
    CStr (nulterminate c (charAt s)) w.1 ((s.drop w.1).take (w.2 - w.1)) := by
  have hword := hc w hw
  have hlen : ((s.drop w.1).take (w.2 - w.1)).length = w.2 - w.1 := by
    have := hword.le
    rw [length_take, length_drop]
    omega
  have hchar : ∀ j (h : j < ((s.drop w.1).take (w.2 - w.1)).length),
      ((s.drop w.1).take (w.2 - w.1))[j] = charAt s (w.1 + j) := fun j h => by
    rw [getElem_take, getElem_drop, charAt, getD_eq_getElem]
  have hin : ∀ j < w.2 - w.1, isWord (charAt s (w.1 + j)) = true := fun j hj =>
    hword.chars _ (Nat.le_add_right ..) (by omega)
  refine ⟨fun j h => ?_, fun hm => h0 (mem_of_mem_drop (mem_of_mem_take hm)), ?_⟩
  · -- no word ends inside of a word
    rw [hchar j h, nulterminate_eq, if_neg]
    intro hmem
    obtain ⟨w', hw', he⟩ := mem_map.1 hmem
    have hstop := (hc w' hw').stop
    have := hword.le
    rw [he, hin j (by omega)] at hstop
    exact absurd (hstop (by omega)) (by decide)
  · have hlt := hword.lt
    rw [hlen, show w.1 + (w.2 - w.1) = w.2 by omega, nulterminate_eq,
      if_pos (mem_map_of_mem hw)]

/-! ## `parsecmd` -/

theorem left_zero (s : List UInt8) : Left s (tokens s 0) 0 := ⟨Nat.zero_le _, rfl⟩

variable {n : ℕ}

/-- What `parsecmd` returns is derivable. -/
theorem wp_parsecmd_sound (h0 : (0 : UInt8) ∉ s) (hn : 4 * s.length + 4 ≤ n) :
    wp (parsecmd s n) (fun r _ => Line (tokens s 0) r.1 ∧ r.2 = nulterminate r.1 (charAt s))
      (fun e _ => e ≠ .fuel) 0 := by
  have hle : (tokens s 0).length ≤ s.length := length_tokens_le
  rw [parsecmd, wp_bind]
  refine (parser_sound s n).1 s.length hn (left_zero s) hle (fun e he p => he)
    fun us rest c hts hus p h => ?_
  rw [wp_bind]
  unfold peek
  simp only [wp_bind, wp_modify, wp_get, wp_pure, wp_ite]
  split
  · exact fun e => by cases e
  · rename_i hend
    have hrest : rest = [] := (h.nil_iff h0).2 (not_not.1 hend)
    rw [hts, hrest, append_nil]
    exact ⟨hus, trivial⟩

theorem parsecmd_ok (h0 : (0 : UInt8) ∉ s) (hn : 4 * s.length + 4 ≤ n) {buf : ℕ → UInt8}
    (h : (parsecmd s n 0).1 = .ok (c, buf)) : Line (tokens s 0) c ∧ buf = nulterminate c (charAt s) := by
  have hrun : parsecmd s n 0 = (.ok (c, buf), (parsecmd s n 0).2) := Prod.ext h rfl
  exact wp_ok (f := parsecmd s n) (wp_parsecmd_sound h0 hn) hrun

theorem wp_parsecmd_complete (h0 : (0 : UInt8) ∉ s) (hn : 4 * s.length + 4 ≤ n) (hc : Line (tokens s 0) c) :
    wp (parsecmd s n) (fun r _ => r = (c, nulterminate c (charAt s))) (fun _ _ => False) 0 := by
  have hle : (tokens s 0).length ≤ s.length := length_tokens_le
  have hleft : Left s (tokens s 0 ++ []) 0 := by
    rw [append_nil]
    exact left_zero s
  rw [parsecmd, wp_bind]
  refine (parser_complete s n).1 s.length hn hc hleft hle (fun t ht => by cases ht) fun p h => ?_
  rw [wp_bind]
  unfold peek
  simp only [wp_bind, wp_modify, wp_get, wp_pure]
  rw [if_neg (not_not.2 ((h.nil_iff h0).1 rfl))]
  rfl

/-- For every line, with a bound in proportion to its length: `parsecmd` does not run out of the bound; it
returns a command exactly if the tokens are derivable, and then the command of the derivation; and the words
of the command are C strings. -/
theorem parsecmd_iff {s : List UInt8} (h0 : (0 : UInt8) ∉ s) {n : ℕ} (hn : 4 * s.length + 4 ≤ n) :
    (parsecmd s n 0).1 ≠ .error .fuel ∧
    (∀ c, (∃ buf, (parsecmd s n 0).1 = .ok (c, buf)) ↔ Line (tokens s 0) c) ∧
    ∀ c buf, (parsecmd s n 0).1 = .ok (c, buf) →
      ∀ w ∈ c.words, CStr buf w.1 ((s.drop w.1).take (w.2 - w.1)) := by
  have hsound := wp_parsecmd_sound h0 hn
  refine ⟨fun h => ?_, fun c => ⟨fun ⟨buf, h⟩ => (parsecmd_ok h0 hn h).1, fun hc => ?_⟩, fun c buf h w hw => ?_⟩
  · unfold wp at hsound
    split at hsound
    · rename_i heq
      rw [heq] at h
      cases h
    · rename_i heq
      rw [heq] at h
      exact hsound (Except.error.inj h)
  · obtain ⟨r, p, hrun, rfl⟩ := wp_total (wp_parsecmd_complete h0 hn hc)
    exact ⟨_, by rw [hrun]⟩
  · obtain ⟨hline, rfl⟩ := parsecmd_ok h0 hn h
    exact cstr_nulterminate h0 (fun w' hw' => isWord_of_mem_tokens w' (hline.words_mem w' hw')) hw

/-- The line "a|b". -/
theorem parsecmd_pipe : ∃ buf, (parsecmd (chars ['a', '|', 'b']) 16 0).1 =
    .ok (.pipe (.exec [(0, 1)]) (.exec [(2, 3)]), buf) := by
  have ht : tokens (chars ['a', '|', 'b']) 0 = [(.word, 0, 1), (.bar, 1, 2), (.word, 2, 3)] := by
    have h₁ : gettoken (chars ['a', '|', 'b']) 0 = (.ok (.word, 0, 1), 1) := by decide
    have h₂ : gettoken (chars ['a', '|', 'b']) 1 = (.ok (.bar, 1, 2), 2) := by decide
    have h₃ : gettoken (chars ['a', '|', 'b']) 2 = (.ok (.word, 2, 3), 3) := by decide
    have h₄ : gettoken (chars ['a', '|', 'b']) 3 = (.ok (.eof, 3, 3), 3) := by decide
    rw [tokens_of_gettoken h₁, tokens_of_gettoken h₂, tokens_of_gettoken h₃, tokens_of_gettoken h₄]
    rfl
  have word (w : Span) : Exec [(.word, w)] (.exec [w]) :=
    @Exec.simple [] [(.word, w)] [] [w] [] .nil (.cons w .nil .nil) (show 1 ≤ MAXARGS - 1 by decide)
  have hline : Line [(.word, 0, 1), (.bar, 1, 2), (.word, 2, 3)] (.pipe (.exec [(0, 1)]) (.exec [(2, 3)])) :=
    Line.last (.pipe (1, 2) (word (0, 1)) (.last (word (2, 3)))) fun t ht => absurd ht List.not_mem_nil
  rw [← ht] at hline
  exact ((parsecmd_iff (s := chars ['a', '|', 'b']) (by decide) (by decide)).2.1 _).2 hline

end Sh

end Xv6
