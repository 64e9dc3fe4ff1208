import Xv6.Sh.Command

/-!
# The words of simple commands

The tokens of a line fall into segments between the operators other than redirections. The arguments of the
simple commands of a line, from left to right, are the words of its segments without the files of
redirections. Segments without words belong to no command, or to one without arguments.
-/

namespace Xv6

open List

namespace Sh

/-- The arguments of the simple commands, from left to right. -/
def Cmd.argvs : Cmd → List (List Span)
  | exec argv => [argv]
  | redir cmd _ _ _ => cmd.argvs
  | pipe left right => left.argvs ++ right.argvs
  | list left right => left.argvs ++ right.argvs
  | back cmd => cmd.argvs

/-- The words of each segment, without the files of redirections. -/
def segments : List Token → List (List Span)
  | [] => [[]]
  | (.word, w) :: ts => (segments ts).modifyHead (w :: ·)
  | (.lt, _) :: _ :: ts => segments ts
  | (.gt, _) :: _ :: ts => segments ts
  | (.append, _) :: _ :: ts => segments ts
  | _ :: ts => [] :: segments ts

/-- The lists with elements. -/
def nonempty (l : List (List Span)) : List (List Span) := l.filter (!·.isEmpty)

theorem nonempty_append (l m : List (List Span)) : nonempty (l ++ m) = nonempty l ++ nonempty m :=
  filter_append ..

variable {us rest : List Token} {c : Cmd} {ks : List Kind}

theorem Cmd.argvs_backs (c : Cmd) (k : ℕ) : (c.backs k).argvs = c.argvs := by
  induction k generalizing c with
  | zero => rfl
  | succ k ih => exact ih c.back

theorem Cmd.argvs_wrap (c : Cmd) (rs : List Redirection) : (c.wrap rs).argvs = c.argvs := by
  induction rs generalizing c with
  | nil => rfl
  | cons r rs ih => exact ih (.redir c r.file r.mode r.fd)

/-- A segment ends at an operator. -/
theorem segments_follows (h : Follows execEnd rest) : ∃ l, segments rest = [] :: l := by
  cases rest with
  | nil => exact ⟨[], rfl⟩
  | cons t ts =>
    obtain ⟨k, x⟩ := t
    have hk := h (k, x) rfl
    cases k <;> first | exact ⟨_, rfl⟩ | simp [execEnd] at hk

theorem nonempty_segments_cons {t : Token} (h : t.1 ∈ Kind.lpar :: execEnd) :
    nonempty (segments (t :: rest)) = nonempty (segments rest) := by
  obtain ⟨k, x⟩ := t
  cases k <;> first | rfl | simp [execEnd] at h

theorem Redirs.segments {rs : List Redirection} (h : Redirs us rs) : segments (us ++ rest) = Sh.segments rest := by
  induction h with
  | nil => rfl
  | cons x w hop _ ih => cases hop <;> exact ih

theorem Args.segments {ws : List Span} {qs : List Redirection} (h : Args us ws qs) {l : List (List Span)}
    (hr : Sh.segments rest = [] :: l) : Sh.segments (us ++ rest) = ws :: l := by
  induction h with
  | nil => exact hr
  | @cons ts us rs ws qs w hrs _ ih =>
    rw [cons_append, cons_append, append_assoc, Sh.segments, hrs.segments, ih]
    rfl

theorem nonempty_segments_amps {as : List Token} (h : ∀ t ∈ as, t.1 = Kind.amp) :
    nonempty (segments (as ++ rest)) = nonempty (segments rest) := by
  induction as with
  | nil => rfl
  | cons t as ih =>
    obtain ⟨ht, has⟩ := forall_mem_cons.1 h
    rw [cons_append, nonempty_segments_cons (by simp [ht, execEnd]), ih has]

theorem follows_amps {as : List Token} (h : ∀ t ∈ as, t.1 = Kind.amp) (hr : Follows pipeEnd rest) :
    Follows pipeEnd (as ++ rest) := by
  cases as with
  | nil => exact hr
  | cons t as => exact follows_cons (by simp [h t mem_cons_self, pipeEnd])

theorem pipeEnd_execEnd (h : Follows pipeEnd rest) : Follows execEnd rest :=
  h.mono fun k hk => by simp_all [pipeEnd, execEnd]

mutual

theorem Line.argvs {us rest : List Token} {c : Cmd} : Line us c → Follows lineEnd rest →
    nonempty (segments (us ++ rest)) = nonempty c.argvs ++ nonempty (segments rest)
  | .last hp ha, hr => by
    have hr' : Follows pipeEnd rest := hr.mono fun k hk => by simp_all [lineEnd, pipeEnd]
    rw [append_assoc, hp.argvs (follows_amps ha hr'), nonempty_segments_amps ha, Cmd.argvs_backs]
  | .list x hp ha hl, hr => by
    rw [append_assoc, append_assoc, cons_append,
      hp.argvs (follows_amps ha (follows_cons (by simp [pipeEnd]))), nonempty_segments_amps ha,
      nonempty_segments_cons (by simp [execEnd]), hl.argvs hr, Cmd.argvs, nonempty_append, Cmd.argvs_backs,
      append_assoc]

theorem Pipe.argvs {us rest : List Token} {c : Cmd} : Pipe us c → Follows pipeEnd rest →
    nonempty (segments (us ++ rest)) = nonempty c.argvs ++ nonempty (segments rest)
  | .last he, hr => he.argvs (pipeEnd_execEnd hr)
  | .pipe x he hp, hr => by
    rw [append_assoc, cons_append, he.argvs (follows_cons (by simp [execEnd])),
      nonempty_segments_cons (by simp [execEnd]), hp.argvs hr, Cmd.argvs, nonempty_append, append_assoc]

theorem Exec.argvs {us rest : List Token} {c : Cmd} : Exec us c → Follows execEnd rest →
    nonempty (segments (us ++ rest)) = nonempty c.argvs ++ nonempty (segments rest)
  | .block x y hl hrs, hr => by
    rw [cons_append, cons_append, append_assoc, nonempty_segments_cons (by simp), cons_append,
      hl.argvs (follows_cons (by simp [lineEnd])), nonempty_segments_cons (by simp [execEnd]), hrs.segments,
      Cmd.argvs_wrap]
  | .simple hrs hargs _, hr => by
    obtain ⟨l, hl⟩ := segments_follows hr
    rw [append_assoc, hrs.segments, hargs.segments hl, hl, Cmd.argvs_wrap, Cmd.argvs, ← nonempty_append]
    simp [nonempty, filter_cons]

end

/-- For every line that `parsecmd` accepts: every argument and file of the command is a word token of the line
and a C string with its characters, and the arguments of the simple commands are the words of the
segments of the line. -/
theorem parsecmd_words {s : List UInt8} (h0 : (0 : UInt8) ∉ s) {n : ℕ} (hn : 4 * s.length + 4 ≤ n) {c : Cmd}
    {buf : ℕ → UInt8} (h : (parsecmd s n 0).1 = .ok (c, buf)) :
    (∀ w ∈ c.words, (Kind.word, w) ∈ tokens s 0 ∧ CStr buf w.1 ((s.drop w.1).take (w.2 - w.1))) ∧
      nonempty c.argvs = nonempty (segments (tokens s 0)) := by
  obtain ⟨hline, rfl⟩ := parsecmd_ok h0 hn h
  refine ⟨fun w hw => ⟨hline.words_mem w hw, ?_⟩, ?_⟩
  · exact cstr_nulterminate h0 (fun w' hw' => isWord_of_mem_tokens w' (hline.words_mem w' hw')) hw
  · have hargs := @Line.argvs _ [] _ hline fun t ht => by cases ht
    rw [List.append_nil] at hargs
    exact (hargs.trans (List.append_nil _)).symm

/-- The line "a>b". -/
theorem parsecmd_words_redir :
    nonempty (segments (tokens (chars ['a', '>', 'b']) 0)) = [[(0, 1)]] :=
  (parsecmd_words (s := chars ['a', '>', 'b']) (by decide) (n := 16) (by decide)
    (c := .redir (.exec [(0, 1)]) (2, 3) (O_WRONLY ||| O_CREATE ||| O_TRUNC) 1) rfl).2.symm

end Sh

end Xv6
