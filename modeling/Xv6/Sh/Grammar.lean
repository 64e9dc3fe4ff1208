import Mathlib.Logic.Function.Iterate
import Xv6.Sh.Tokens

/-!
# The grammar of the shell

The grammar of command lines over the tokens of `gettoken`, with the command that a derivation denotes:

* a line is a pipe, any number of '&' and possibly ';' and a line;
* a pipe is an exec and possibly '|' and a pipe;
* an exec is a line in parentheses with redirections behind it, or redirections and words.

The parser returns a command exactly if the tokens of the line are derivable, and it is the command of the
derivation.
-/

namespace Xv6

open Prog List

namespace Sh

/-! ## Derivations -/

/-- A redirection: the file, the mode in which it is opened and the descriptor. -/
structure Redirection where
  file : Span
  mode : ℕ
  fd : ℕ

/-- The command with redirections around it, the first one inside. -/
def Cmd.wrap (cmd : Cmd) (rs : List Redirection) : Cmd :=
  rs.foldl (fun cmd r => .redir cmd r.file r.mode r.fd) cmd

/-- The command in the background, once for every '&'. -/
def Cmd.backs (cmd : Cmd) (k : ℕ) : Cmd := Cmd.back^[k] cmd

/-- A redirection operator with its mode and descriptor. -/
inductive RedirOp : Kind → ℕ → ℕ → Prop
  | input : RedirOp .lt O_RDONLY 0
  | output : RedirOp .gt (O_WRONLY ||| O_CREATE ||| O_TRUNC) 1
  | append : RedirOp .append (O_WRONLY ||| O_CREATE) 1

/-- `redir*` -/
inductive Redirs : List Token → List Redirection → Prop
  | nil : Redirs [] []
  | cons {k mode fd ts rs} (x w : Span) : RedirOp k mode fd → Redirs ts rs →
      Redirs ((k, x) :: (.word, w) :: ts) (⟨w, mode, fd⟩ :: rs)

/-- `(word redir*)*` -/
inductive Args : List Token → List Span → List Redirection → Prop
  | nil : Args [] [] []
  | cons {ts us rs ws qs} (w : Span) : Redirs ts rs → Args us ws qs →
      Args ((.word, w) :: ts ++ us) (w :: ws) (rs ++ qs)

mutual

/-- `line := pipe '&'* [';' line]` -/
inductive Line : List Token → Cmd → Prop
  | last {ts as c} : Pipe ts c → (∀ t ∈ as, t.1 = Kind.amp) → Line (ts ++ as) (c.backs as.length)
  | list {ts as us c d} (x : Span) : Pipe ts c → (∀ t ∈ as, t.1 = Kind.amp) → Line us d →
      Line (ts ++ as ++ (.semi, x) :: us) (.list (c.backs as.length) d)

/-- `pipe := exec ['|' pipe]` -/
inductive Pipe : List Token → Cmd → Prop
  | last {ts c} : Exec ts c → Pipe ts c
  | pipe {ts us c d} (x : Span) : Exec ts c → Pipe us d → Pipe (ts ++ (.bar, x) :: us) (.pipe c d)

/-- `exec := '(' line ')' redir* | redir* (word redir*)*`, with fewer than `MAXARGS` words. -/
inductive Exec : List Token → Cmd → Prop
  | block {ts us c rs} (x y : Span) : Line ts c → Redirs us rs →
      Exec ((.lpar, x) :: ts ++ (.rpar, y) :: us) (c.wrap rs)
  | simple {ts us rs ws qs} : Redirs ts rs → Args us ws qs → ws.length ≤ MAXARGS - 1 →
      Exec (ts ++ us) ((Cmd.exec ws).wrap (rs ++ qs))

end

/-! ## Commands under construction -/

theorem Cmd.wrap_append (cmd : Cmd) (rs qs : List Redirection) :
    cmd.wrap (rs ++ qs) = (cmd.wrap rs).wrap qs := foldl_append ..

theorem Cmd.pushArg_wrap (cmd : Cmd) (w : Span) (rs : List Redirection) :
    (cmd.wrap rs).pushArg w = (cmd.pushArg w).wrap rs := by
  induction rs generalizing cmd with
  | nil => rfl
  | cons r rs ih => exact ih (.redir cmd r.file r.mode r.fd)

/-! ## The first token -/

/-- The first token is of one of the kinds. -/
def headIn (ks : List Kind) (ts : List Token) : Bool := ts.head?.any fun t => t.1 ∈ ks

theorem headIn_cons {ks : List Kind} {t : Token} {ts : List Token} : headIn ks (t :: ts) = decide (t.1 ∈ ks) :=
  rfl

theorem exists_of_headIn {ks : List Kind} {ts : List Token} (h : headIn ks ts = true) :
    ∃ k x ts', ts = (k, x) :: ts' ∧ k ∈ ks := by
  cases ts with
  | nil => cases h
  | cons t ts => exact ⟨t.1, t.2, ts, rfl, of_decide_eq_true h⟩

variable {s : List UInt8} {ts us rest : List Token} {p n : ℕ} {E : Bad → ℕ → Prop} {toks : List UInt8}
  {ks : List Kind}

/-- The characters of `toks` are symbols, and the tokens that start with one of them are those of the kinds `ks`. -/
structure Heads (toks : List UInt8) (ks : List Kind) : Prop where
  symbols : toks.all (fun c => decide (c ∈ Sh.symbols)) = true
  kinds : ∀ k, Kind.startsIn toks k = decide (k ∈ ks)

theorem wp_peek_headIn {Q : Bool → ℕ → Prop} (h : Left s ts p) (hks : Heads toks ks)
    (hQ : ∀ p', Left s ts p' → Q (headIn ks ts) p') : wp (peek s toks) Q E p := by
  refine wp_peek h (fun c hc => of_decide_eq_true (all_eq_true.1 hks.symbols c hc)) fun p' h' => ?_
  simp only [hks.kinds]
  exact hQ p' h'

/-- `gettoken` after a successful `peek`. -/
theorem wp_gettoken_cons {Q : Token → ℕ → Prop} {t : Token} (h : Left s (t :: ts) p)
    (hQ : ∀ p', Left s ts p' → Q t p') : wp (gettoken s) Q E p := by
  refine wp_gettoken h (fun hnil => absurd hnil (cons_ne_nil _ _)) fun t' ts' heq p' h' => ?_
  obtain ⟨rfl, rfl⟩ := List.cons.inj heq
  exact hQ p' h'

theorem heads_redir : Heads (chars ['<', '>']) [Kind.lt, .gt, .append] :=
  ⟨by decide, fun k => by cases k <;> decide⟩

theorem heads_stop : Heads (chars ['|', ')', '&', ';']) [Kind.bar, .rpar, .amp, .semi] :=
  ⟨by decide, fun k => by cases k <;> decide⟩

theorem heads_amp : Heads (chars ['&']) [Kind.amp] := ⟨by decide, fun k => by cases k <;> decide⟩

theorem heads_semi : Heads (chars [';']) [Kind.semi] := ⟨by decide, fun k => by cases k <;> decide⟩

theorem heads_bar : Heads (chars ['|']) [Kind.bar] := ⟨by decide, fun k => by cases k <;> decide⟩

theorem heads_lpar : Heads (chars ['(']) [Kind.lpar] := ⟨by decide, fun k => by cases k <;> decide⟩

theorem heads_rpar : Heads (chars [')']) [Kind.rpar] := ⟨by decide, fun k => by cases k <;> decide⟩

/-! ## Soundness -/

section Sound

variable {Q : Cmd → ℕ → Prop}

theorem wp_parseredirs_sound {cmd : Cmd} (hE : ∀ e ≠ Bad.fuel, ∀ p, E e p) (h : Left s ts p)
    (hn : ts.length < n)
    (hQ : ∀ us rest rs, ts = us ++ rest → Redirs us rs → ∀ p', Left s rest p' → Q (cmd.wrap rs) p') :
    wp (parseredirs s n cmd) Q E p := by
  induction n generalizing ts p cmd with
  | zero => omega
  | succ n ih =>
    rw [parseredirs, wp_bind]
    refine wp_peek_headIn h heads_redir fun p₁ h₁ => ?_
    split
    · rename_i hhead
      obtain ⟨k, x, ts, rfl, hk⟩ := exists_of_headIn hhead
      rw [wp_bind]
      refine wp_gettoken_cons h₁ fun p₂ h₂ => ?_
      rw [wp_bind]
      refine wp_gettoken h₂ (fun _ t p₃ ht _ => ?_) fun t ts' heq p₃ h₃ => ?_
      · rw [if_pos (by rw [ht]; decide)]
        exact hE _ (by decide) _
      · rw [wp_ite]
        split
        · exact hE _ (by decide) _
        · rename_i hword
          obtain ⟨k', w⟩ := t
          obtain rfl : k' = .word := not_not.1 hword
          subst heq
          -- the three operators
          have next (mode fd : ℕ) (hop : RedirOp k mode fd) :
              wp (parseredirs s n (.redir cmd w mode fd)) Q E p₃ := by
            refine ih h₃ (by simp only [length_cons] at hn; omega) fun us rest rs hts hrs p' h' => ?_
            subst hts
            exact hQ ((k, x) :: (.word, w) :: us) rest (⟨w, mode, fd⟩ :: rs) rfl (.cons x w hop hrs) p' h'
          cases k with
          | lt => exact next _ _ .input
          | gt => exact next _ _ .output
          | append => exact next _ _ .append
          | _ => exact absurd hk (by decide)
    · exact hQ [] ts [] rfl .nil p₁ h₁

theorem wp_parseargs_sound (ws : List Span) {rs : List Redirection} (hE : ∀ e ≠ Bad.fuel, ∀ p, E e p)
    (h : Left s ts p) (hn : ts.length < n) (hlen : ws.length ≤ MAXARGS - 1)
    (hQ : ∀ us rest ws' qs, ts = us ++ rest → Args us ws' qs → (ws ++ ws').length ≤ MAXARGS - 1 →
      ∀ p', Left s rest p' → Q ((Cmd.exec (ws ++ ws')).wrap (rs ++ qs)) p') :
    wp (parseargs s n ws.length ((Cmd.exec ws).wrap rs)) Q E p := by
  induction n generalizing ts p ws rs with
  | zero => omega
  | succ n ih =>
    -- no more words
    have done (p' : ℕ) (h' : Left s ts p') : Q ((Cmd.exec ws).wrap rs) p' := by
      have := hQ [] ts [] [] rfl .nil (by simpa using hlen) p' h'
      rwa [append_nil, append_nil] at this
    rw [parseargs, wp_bind]
    refine wp_peek_headIn h heads_stop fun p₁ h₁ => ?_
    split
    · exact done p₁ h₁
    · rw [wp_bind]
      refine wp_gettoken h₁ (fun hnil t p₂ ht h₂ => ?_) fun t ts' heq p₂ h₂ => ?_
      · subst hnil
        rw [if_pos ht]
        exact done p₂ h₂
      · subst heq
        obtain ⟨k, w⟩ := t
        rw [length_cons] at hn
        have hne : k ≠ .eof := kind_of_mem_tokens (k, w) (by rw [h.tokens]; exact mem_cons_self)
        rw [if_neg hne, wp_ite]
        split
        · exact hE _ (by decide) _
        · rename_i hword
          obtain rfl : k = .word := not_not.1 hword
          rw [wp_ite]
          split
          · exact hE _ (by decide) _
          · rename_i hmax
            rw [wp_bind, Cmd.pushArg_wrap]
            refine wp_parseredirs_sound hE h₂ (by omega) fun us rest rs' hts hrs p₃ h₃ => ?_
            subst hts
            rw [← Cmd.wrap_append]
            have hlen' : (ws ++ [w]).length ≤ MAXARGS - 1 := by
              rw [length_append, length_singleton]
              omega
            have hfuel : rest.length < n := by
              rw [length_append] at hn
              omega
            have step := @ih rest p₃ (ws ++ [w]) (rs ++ rs') h₃ hfuel hlen'
            rw [length_append, length_singleton] at step
            -- the word and its redirections are put in front of what follows
            refine step fun us₂ rest₂ ws₂ qs₂ hrest hargs hle p' h' => ?_
            subst hrest
            have := hQ ((.word, w) :: us ++ us₂) rest₂ (w :: ws₂) (rs' ++ qs₂) (by simp) (.cons w hrs hargs)
              (by simpa using hle) p' h'
            simpa using this

theorem wp_parsebacks_sound {cmd : Cmd} (h : Left s ts p) (hn : ts.length < n)
    (hQ : ∀ as rest, ts = as ++ rest → (∀ t ∈ as, t.1 = Kind.amp) → ∀ p', Left s rest p' →
      Q (cmd.backs as.length) p') : wp (parsebacks s n cmd) Q E p := by
  induction n generalizing ts p cmd with
  | zero => omega
  | succ n ih =>
    rw [parsebacks, wp_bind]
    refine wp_peek_headIn h heads_amp fun p₁ h₁ => ?_
    split
    · rename_i hhead
      obtain ⟨k, x, ts, rfl, hk⟩ := exists_of_headIn hhead
      obtain rfl : k = .amp := mem_singleton.1 hk
      rw [wp_bind]
      refine wp_gettoken_cons h₁ fun p₂ h₂ => ?_
      refine ih h₂ (by simp only [length_cons] at hn; omega) fun as rest hts has p' h' => ?_
      subst hts
      exact hQ ((.amp, x) :: as) rest rfl (forall_mem_cons.2 ⟨rfl, has⟩) p' h'
    · exact hQ [] ts rfl (fun t ht => absurd ht not_mem_nil) p₁ h₁

/-- What a parser returns is derivable from the tokens it takes, and it does not run out of the bound on a
line with at most `m` tokens. -/
def Sound (s : List UInt8) (G : List Token → Cmd → Prop) (f : ShM Cmd) (m : ℕ) : Prop :=
  ∀ {ts p} {Q : Cmd → ℕ → Prop} {E : Bad → ℕ → Prop}, Left s ts p → ts.length ≤ m →
    (∀ e ≠ Bad.fuel, ∀ p, E e p) →
    (∀ us rest c, ts = us ++ rest → G us c → ∀ p', Left s rest p' → Q c p') → wp f Q E p

theorem sound_parseline {m : ℕ} (hn : m < n) (hpipe : Sound s Pipe (parsepipe s n) m)
    (hline : ∀ k < m, Sound s Line (parseline s n) k) : Sound s Line (parseline s (n + 1)) m := by
  intro ts p Q E h hm hE hQ
  rw [parseline, wp_bind]
  refine hpipe h hm hE fun us rest c hts hus p₁ h₁ => ?_
  subst hts
  rw [length_append] at hm
  rw [wp_bind]
  refine wp_parsebacks_sound h₁ (by omega) fun as rest hts has p₂ h₂ => ?_
  subst hts
  rw [length_append] at hm
  rw [wp_bind]
  refine wp_peek_headIn h₂ heads_semi fun p₃ h₃ => ?_
  split
  · rename_i hhead
    obtain ⟨k, x, rest, rfl, hk⟩ := exists_of_headIn hhead
    obtain rfl : k = .semi := mem_singleton.1 hk
    rw [length_cons] at hm
    rw [wp_bind]
    refine wp_gettoken_cons h₃ fun p₄ h₄ => ?_
    rw [wp_bind]
    refine hline rest.length (by omega) h₄ le_rfl hE fun us' rest' d hts hus' p₅ h₅ => ?_
    subst hts
    exact hQ (us ++ as ++ (.semi, x) :: us') rest' _ (by simp) (.list x hus has hus') p₅ h₅
  · exact hQ (us ++ as) rest _ (by simp) (.last hus has) p₃ h₃

theorem sound_parsepipe {m : ℕ} (hexec : Sound s Exec (parseexec s n) m)
    (hpipe : ∀ k < m, Sound s Pipe (parsepipe s n) k) : Sound s Pipe (parsepipe s (n + 1)) m := by
  intro ts p Q E h hm hE hQ
  rw [parsepipe, wp_bind]
  refine hexec h hm hE fun us rest c hts hus p₁ h₁ => ?_
  subst hts
  rw [length_append] at hm
  rw [wp_bind]
  refine wp_peek_headIn h₁ heads_bar fun p₂ h₂ => ?_
  split
  · rename_i hhead
    obtain ⟨k, x, rest, rfl, hk⟩ := exists_of_headIn hhead
    obtain rfl : k = .bar := mem_singleton.1 hk
    rw [length_cons] at hm
    rw [wp_bind]
    refine wp_gettoken_cons h₂ fun p₃ h₃ => ?_
    rw [wp_bind]
    refine hpipe rest.length (by omega) h₃ le_rfl hE fun us' rest' d hts hus' p₄ h₄ => ?_
    subst hts
    exact hQ (us ++ (.bar, x) :: us') rest' _ (by simp) (.pipe x hus hus') p₄ h₄
  · exact hQ us rest _ rfl (.last hus) p₂ h₂

theorem sound_parseexec {m : ℕ} (hn : m < n) (hblock : Sound s Exec (parseblock s n) m) :
    Sound s Exec (parseexec s (n + 1)) m := by
  intro ts p Q E h hm hE hQ
  rw [parseexec, wp_bind]
  refine wp_peek_headIn h heads_lpar fun p₁ h₁ => ?_
  split
  · exact hblock h₁ hm hE hQ
  · rw [wp_bind]
    refine wp_parseredirs_sound hE h₁ (by omega) fun us rest rs hts hrs p₂ h₂ => ?_
    subst hts
    rw [length_append] at hm
    refine wp_parseargs_sound [] hE h₂ (by omega) (Nat.zero_le _)
      fun us' rest' ws qs hts hargs hlen p₃ h₃ => ?_
    subst hts
    exact hQ (us ++ us') rest' _ (by simp) (.simple hrs hargs hlen) p₃ h₃

theorem sound_parseblock {m : ℕ} (hn : m ≤ n) (hline : ∀ k < m, Sound s Line (parseline s n) k) :
    Sound s Exec (parseblock s (n + 1)) m := by
  intro ts p Q E h hm hE hQ
  rw [parseblock, wp_bind]
  refine wp_peek_headIn h heads_lpar fun p₁ h₁ => ?_
  split
  · rename_i hhead
    obtain ⟨k, x, rest, rfl, hk⟩ := exists_of_headIn hhead
    obtain rfl : k = .lpar := mem_singleton.1 hk
    rw [length_cons] at hm
    rw [wp_bind]
    refine wp_gettoken_cons h₁ fun p₂ h₂ => ?_
    rw [wp_bind]
    refine hline rest.length (by omega) h₂ le_rfl hE fun us rest c hts hus p₃ h₃ => ?_
    subst hts
    rw [length_append] at hm
    rw [wp_bind]
    refine wp_peek_headIn h₃ heads_rpar fun p₄ h₄ => ?_
    split
    · rename_i hhead
      obtain ⟨k, y, rest, rfl, hk⟩ := exists_of_headIn hhead
      obtain rfl : k = .rpar := mem_singleton.1 hk
      rw [length_cons] at hm
      rw [wp_bind]
      refine wp_gettoken_cons h₄ fun p₅ h₅ => ?_
      refine wp_parseredirs_sound hE h₅ (by omega) fun us' rest' rs hts hrs p₆ h₆ => ?_
      subst hts
      exact hQ ((.lpar, x) :: us ++ (.rpar, y) :: us') rest' _ (by simp) (.block x y hus hrs) p₆ h₆
    · exact hE _ (by decide) _
  · exact hE _ (by decide) _

/-- The parser is sound, and its calls are no deeper than four times the number of tokens. -/
theorem parser_sound (s : List UInt8) (n : ℕ) :
    (∀ m, 4 * m + 4 ≤ n → Sound s Line (parseline s n) m) ∧
    (∀ m, 4 * m + 3 ≤ n → Sound s Pipe (parsepipe s n) m) ∧
    (∀ m, 4 * m + 2 ≤ n → Sound s Exec (parseexec s n) m) ∧
    (∀ m, 4 * m + 1 ≤ n → Sound s Exec (parseblock s n) m) := by
  induction n with
  | zero => exact ⟨fun m h => by omega, fun m h => by omega, fun m h => by omega, fun m h => by omega⟩
  | succ n ih =>
    obtain ⟨hline, hpipe, hexec, hblock⟩ := ih
    refine ⟨fun m h => ?_, fun m h => ?_, fun m h => ?_, fun m h => ?_⟩
    · exact sound_parseline (by omega) (hpipe m (by omega)) fun k hk => hline k (by omega)
    · exact sound_parsepipe (hexec m (by omega)) fun k hk => hpipe k (by omega)
    · exact sound_parseexec (by omega) (hblock m (by omega))
    · exact sound_parseblock (by omega) fun k hk => hline k (by omega)

end Sound

/-! ## Completeness -/

section Complete

variable {Q : Cmd → ℕ → Prop}

/-- The tokens end or go on with one of the kinds. -/
def Follows (ks : List Kind) (ts : List Token) : Prop := ∀ t ∈ ts.head?, t.1 ∈ ks

variable {m : ℕ} {cmd : Cmd} {rs : List Redirection} {ks' : List Kind}

theorem Follows.headIn_eq_false (h : Follows ks ts) (hd : ∀ k ∈ ks, k ∉ ks') :
    headIn ks' ts = false := by
  cases ts with
  | nil => rfl
  | cons t ts =>
    rw [headIn_cons]
    exact decide_eq_false (hd _ (h t rfl))

theorem Follows.mono (h : Follows ks ts) (hs : ∀ k ∈ ks, k ∈ ks') : Follows ks' ts :=
  fun t ht => hs _ (h t ht)

theorem follows_cons {t : Token} (h : t.1 ∈ ks) : Follows ks (t :: ts) := fun t' ht => by
  obtain rfl : t = t' := Option.some.inj ht
  exact h

/-- What may follow a line, a pipe, an exec and redirections. -/
def lineEnd : List Kind := [.rpar]
def pipeEnd : List Kind := [.amp, .semi, .rpar]
def execEnd : List Kind := [.bar, .amp, .semi, .rpar]
def redirsEnd : List Kind := [.word, .bar, .amp, .semi, .rpar]

theorem Args.follows {ws : List Span} {qs : List Redirection} (h : Args us ws qs) (hf : Follows execEnd rest) :
    Follows redirsEnd (us ++ rest) := by
  cases h with
  | nil => exact hf.mono (by decide)
  | cons w hrs hargs => exact follows_cons (show Kind.word ∈ redirsEnd by decide)

theorem wp_parseredirs_complete (hrs : Redirs us rs)
    (h : Left s (us ++ rest) p) (hn : us.length < n) (hf : Follows redirsEnd rest)
    (hQ : ∀ p', Left s rest p' → Q (cmd.wrap rs) p') : wp (parseredirs s n cmd) Q E p := by
  induction hrs generalizing n p cmd with
  | nil =>
    obtain ⟨n, rfl⟩ : ∃ k, n = k + 1 := ⟨n - 1, by simp at hn; omega⟩
    rw [parseredirs, wp_bind]
    refine wp_peek_headIn h heads_redir fun p₁ h₁ => ?_
    rw [nil_append, hf.headIn_eq_false (by decide), if_neg Bool.false_ne_true]
    exact hQ p₁ h₁
  | @cons k mode fd ts rs x w hop hrs ih =>
    obtain ⟨n, rfl⟩ : ∃ k, n = k + 1 := ⟨n - 1, by simp at hn; omega⟩
    rw [parseredirs, wp_bind]
    refine wp_peek_headIn h heads_redir fun p₁ h₁ => ?_
    have hk : k ∈ [Kind.lt, .gt, .append] := by cases hop <;> decide
    rw [cons_append, headIn_cons, if_pos (decide_eq_true hk), wp_bind]
    refine wp_gettoken_cons h₁ fun p₂ h₂ => ?_
    rw [wp_bind]
    refine wp_gettoken_cons h₂ fun p₃ h₃ => ?_
    rw [if_neg (not_not.2 rfl)]
    have next : wp (parseredirs s n (.redir cmd w mode fd)) Q E p₃ :=
      ih h₃ (by simp only [length_cons] at hn; omega) hQ
    cases hop with
    | input | output | append => exact next

theorem wp_parseargs_complete (ws : List Span) {ws' : List Span} {rs qs : List Redirection} (hargs : Args us ws' qs)
    (h : Left s (us ++ rest) p) (hn : us.length < n) (hf : Follows execEnd rest)
    (hlen : (ws ++ ws').length ≤ MAXARGS - 1)
    (hQ : ∀ p', Left s rest p' → Q ((Cmd.exec (ws ++ ws')).wrap (rs ++ qs)) p') :
    wp (parseargs s n ws.length ((Cmd.exec ws).wrap rs)) Q E p := by
  induction hargs generalizing n p ws rs with
  | nil =>
    obtain ⟨n, rfl⟩ : ∃ k, n = k + 1 := ⟨n - 1, by simp at hn; omega⟩
    rw [append_nil, append_nil] at hQ
    rw [parseargs, wp_bind]
    refine wp_peek_headIn h heads_stop fun p₁ h₁ => ?_
    rw [nil_append] at h₁ ⊢
    cases rest with
    | nil =>
      rw [if_neg (by decide), wp_bind]
      refine wp_gettoken h₁ (fun _ t p₂ ht h₂ => ?_) fun t ts heq => by cases heq
      rw [if_pos ht]
      exact hQ p₂ h₂
    | cons t rest =>
      have ht : t.1 ∈ [Kind.bar, .rpar, .amp, .semi] := (hf.mono (by decide)) t rfl
      rw [headIn_cons, if_pos (decide_eq_true ht)]
      exact hQ p₁ h₁
  | @cons ts us rs' ws' qs w hrs hargs ih =>
    obtain ⟨n, rfl⟩ : ∃ k, n = k + 1 := ⟨n - 1, by simp at hn; omega⟩
    simp only [cons_append, append_assoc] at h
    simp only [length_append, length_cons] at hn hlen
    rw [parseargs, wp_bind]
    refine wp_peek_headIn h heads_stop fun p₁ h₁ => ?_
    rw [headIn_cons, if_neg (by simp), wp_bind]
    refine wp_gettoken_cons h₁ fun p₂ h₂ => ?_
    have hmax : ¬ MAXARGS ≤ ws.length + 1 := by
      unfold MAXARGS at hlen ⊢
      omega
    rw [if_neg (by simp), if_neg (not_not.2 rfl), if_neg hmax, wp_bind, Cmd.pushArg_wrap]
    refine wp_parseredirs_complete hrs h₂ (by omega) (hargs.follows hf) fun p₃ h₃ => ?_
    rw [← Cmd.wrap_append]
    have step := @ih p₃ n (ws ++ [w]) (rs ++ rs') h₃ (by omega)
      (by simp only [length_append, length_singleton]; omega) fun p' h' => by
        simpa using hQ p' h'
    rwa [length_append, length_singleton] at step

theorem wp_parsebacks_complete {as : List Token} (has : ∀ t ∈ as, t.1 = Kind.amp)
    (h : Left s (as ++ rest) p) (hn : as.length < n) (hf : headIn [.amp] rest = false)
    (hQ : ∀ p', Left s rest p' → Q (cmd.backs as.length) p') : wp (parsebacks s n cmd) Q E p := by
  induction as generalizing n p cmd with
  | nil =>
    obtain ⟨n, rfl⟩ : ∃ k, n = k + 1 := ⟨n - 1, by simp at hn; omega⟩
    rw [parsebacks, wp_bind]
    refine wp_peek_headIn h heads_amp fun p₁ h₁ => ?_
    rw [nil_append, hf, if_neg Bool.false_ne_true]
    exact hQ p₁ h₁
  | cons t as ih =>
    obtain ⟨n, rfl⟩ : ∃ k, n = k + 1 := ⟨n - 1, by simp at hn; omega⟩
    obtain ⟨ht, has⟩ := forall_mem_cons.1 has
    rw [parsebacks, wp_bind]
    refine wp_peek_headIn h heads_amp fun p₁ h₁ => ?_
    rw [cons_append, headIn_cons, if_pos (by simp [ht]), wp_bind]
    refine wp_gettoken_cons h₁ fun p₂ h₂ => ?_
    exact ih has h₂ (by simp only [length_cons] at hn; omega) hQ

/-- A derivation of at most `m` tokens, with the right tokens behind it, is found. -/
def Complete (s : List UInt8) (G : List Token → Cmd → Prop) (f : ShM Cmd) (ks : List Kind) (m : ℕ) : Prop :=
  ∀ {us rest c p} {Q : Cmd → ℕ → Prop} {E : Bad → ℕ → Prop}, G us c → Left s (us ++ rest) p →
    us.length ≤ m → Follows ks rest → (∀ p', Left s rest p' → Q c p') → wp f Q E p

theorem complete_parseline (hn : m < n) (hpipe : Complete s Pipe (parsepipe s n) pipeEnd m)
    (hline : ∀ k < m, Complete s Line (parseline s n) lineEnd k) :
    Complete s Line (parseline s (n + 1)) lineEnd m := by
  intro us rest c p Q E hus h hm hf hQ
  rw [parseline, wp_bind]
  cases hus with
  | @last ts as c hts has =>
    rw [length_append] at hm
    rw [append_assoc] at h
    have hfollow : Follows pipeEnd (as ++ rest) := by
      cases as with
      | nil => exact hf.mono (by decide)
      | cons t as => exact follows_cons (by rw [has t mem_cons_self]; decide)
    refine hpipe hts h (by omega) hfollow fun p₁ h₁ => ?_
    rw [wp_bind]
    refine wp_parsebacks_complete has h₁ (by omega) (hf.headIn_eq_false (by decide)) fun p₂ h₂ => ?_
    rw [wp_bind]
    refine wp_peek_headIn h₂ heads_semi fun p₃ h₃ => ?_
    rw [hf.headIn_eq_false (by decide), if_neg Bool.false_ne_true]
    exact hQ p₃ h₃
  | @list ts as us c d x hts has hus =>
    simp only [length_append, length_cons] at hm
    simp only [append_assoc, cons_append] at h
    have hfollow : Follows pipeEnd (as ++ (.semi, x) :: (us ++ rest)) := by
      cases as with
      | nil => exact follows_cons (show Kind.semi ∈ pipeEnd by decide)
      | cons t as => exact follows_cons (by rw [has t mem_cons_self]; decide)
    refine hpipe hts h (by omega) hfollow fun p₁ h₁ => ?_
    rw [wp_bind]
    refine wp_parsebacks_complete has h₁ (by omega) rfl fun p₂ h₂ => ?_
    rw [wp_bind]
    refine wp_peek_headIn h₂ heads_semi fun p₃ h₃ => ?_
    rw [headIn_cons, if_pos (by simp), wp_bind]
    refine wp_gettoken_cons h₃ fun p₄ h₄ => ?_
    rw [wp_bind]
    exact hline us.length (by omega) hus h₄ le_rfl hf fun p₅ h₅ => hQ p₅ h₅

theorem complete_parsepipe (hexec : Complete s Exec (parseexec s n) execEnd m)
    (hpipe : ∀ k < m, Complete s Pipe (parsepipe s n) pipeEnd k) :
    Complete s Pipe (parsepipe s (n + 1)) pipeEnd m := by
  intro us rest c p Q E hus h hm hf hQ
  rw [parsepipe, wp_bind]
  cases hus with
  | last hts =>
    refine hexec hts h hm (hf.mono (by decide)) fun p₁ h₁ => ?_
    rw [wp_bind]
    refine wp_peek_headIn h₁ heads_bar fun p₂ h₂ => ?_
    rw [hf.headIn_eq_false (by decide), if_neg Bool.false_ne_true]
    exact hQ p₂ h₂
  | @pipe ts us c d x hts hus =>
    simp only [length_append, length_cons] at hm
    rw [append_assoc, cons_append] at h
    refine hexec hts h (by omega) (follows_cons (show Kind.bar ∈ execEnd by decide)) fun p₁ h₁ => ?_
    rw [wp_bind]
    refine wp_peek_headIn h₁ heads_bar fun p₂ h₂ => ?_
    rw [headIn_cons, if_pos (by simp), wp_bind]
    refine wp_gettoken_cons h₂ fun p₃ h₃ => ?_
    rw [wp_bind]
    exact hpipe us.length (by omega) hus h₃ le_rfl hf fun p₄ h₄ => hQ p₄ h₄

/-- `'(' line ')' redir*` -/
inductive Block : List Token → Cmd → Prop
  | mk {ts us c rs} (x y : Span) : Line ts c → Redirs us rs →
      Block ((.lpar, x) :: ts ++ (.rpar, y) :: us) (c.wrap rs)

theorem complete_parseblock (hn : m ≤ n)
    (hline : ∀ k < m, Complete s Line (parseline s n) lineEnd k) :
    Complete s Block (parseblock s (n + 1)) execEnd m := by
  intro us rest c p Q E hus h hm hf hQ
  obtain ⟨x, y, hts, hrs⟩ := hus
  simp only [length_append, length_cons] at hm
  simp only [append_assoc, cons_append] at h
  rw [parseblock, wp_bind]
  refine wp_peek_headIn h heads_lpar fun p₁ h₁ => ?_
  rw [headIn_cons, if_pos (by simp), wp_bind]
  refine wp_gettoken_cons h₁ fun p₂ h₂ => ?_
  rw [wp_bind]
  refine hline _ (by omega) hts h₂ le_rfl (follows_cons (show Kind.rpar ∈ lineEnd by decide))
    fun p₃ h₃ => ?_
  rw [wp_bind]
  refine wp_peek_headIn h₃ heads_rpar fun p₄ h₄ => ?_
  rw [headIn_cons, if_pos (by simp), wp_bind]
  refine wp_gettoken_cons h₄ fun p₅ h₅ => ?_
  exact wp_parseredirs_complete hrs h₅ (by omega) (hf.mono (by decide)) hQ

theorem Redirs.headIn_lpar (h : Redirs us rs) (hf : Follows redirsEnd rest) :
    headIn [.lpar] (us ++ rest) = false := by
  cases h with
  | nil => exact hf.headIn_eq_false (by decide)
  | cons x w hop hrs =>
    rw [cons_append, headIn_cons]
    cases hop <;> simp

theorem complete_parseexec (hn : m < n) (hblock : Complete s Block (parseblock s n) execEnd m) :
    Complete s Exec (parseexec s (n + 1)) execEnd m := by
  intro us rest c p Q E hus h hm hf hQ
  rw [parseexec, wp_bind]
  cases hus with
  | @block ts us c rs x y hts hrs =>
    refine wp_peek_headIn h heads_lpar fun p₁ h₁ => ?_
    rw [cons_append, cons_append, headIn_cons, if_pos (by simp)]
    exact hblock (.mk x y hts hrs) h₁ hm hf hQ
  | @simple ts us rs ws qs hrs hargs hlen =>
    rw [length_append] at hm
    rw [append_assoc] at h
    have hfollow := hargs.follows hf
    refine wp_peek_headIn h heads_lpar fun p₁ h₁ => ?_
    rw [hrs.headIn_lpar hfollow, if_neg Bool.false_ne_true, wp_bind]
    refine wp_parseredirs_complete hrs h₁ (by omega) hfollow fun p₂ h₂ => ?_
    exact wp_parseargs_complete [] hargs h₂ (by omega) hf hlen hQ

/-- Every derivation is found. -/
theorem parser_complete (s : List UInt8) (n : ℕ) :
    (∀ m, 4 * m + 4 ≤ n → Complete s Line (parseline s n) lineEnd m) ∧
    (∀ m, 4 * m + 3 ≤ n → Complete s Pipe (parsepipe s n) pipeEnd m) ∧
    (∀ m, 4 * m + 2 ≤ n → Complete s Exec (parseexec s n) execEnd m) ∧
    (∀ m, 4 * m + 1 ≤ n → Complete s Block (parseblock s n) execEnd m) := by
  induction n with
  | zero => exact ⟨fun m h => by omega, fun m h => by omega, fun m h => by omega, fun m h => by omega⟩
  | succ n ih =>
    obtain ⟨hline, hpipe, hexec, hblock⟩ := ih
    refine ⟨fun m h => ?_, fun m h => ?_, fun m h => ?_, fun m h => ?_⟩
    · exact complete_parseline (by omega) (hpipe m (by omega)) fun k hk => hline k (by omega)
    · exact complete_parsepipe (hexec m (by omega)) fun k hk => hpipe k (by omega)
    · exact complete_parseexec (by omega) (hblock m (by omega))
    · exact complete_parseblock (by omega) fun k hk => hline k (by omega)

end Complete

end Sh

end Xv6
