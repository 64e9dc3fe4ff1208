import Xv6.Sh.Grammar

/-!
# How the shell connects its commands

`runcmd` sets up descriptors with `close`, `dup`, `open` and `pipe`, which take the lowest free one, in a
tree of processes. The meaning of a command is only which files are the standard files of each program.
-/

namespace Xv6.Sh

open Function List

/-- The `NOFILE` descriptors of a process. -/
abbrev Fds (F : Type) : Type := List (Option F)

variable {F : Type}

/-- The lowest free descriptor gets `f`. -/
def fdalloc (f : F) (t : Fds F) : Option (ℕ × Fds F) :=
  (t.findIdx? Option.isNone).map fun fd => (fd, t.set fd (some f))

def close (fd : ℕ) (t : Fds F) : Fds F := t.set fd none

def dup (fd : ℕ) (t : Fds F) : Fds F :=
  match t[fd]?.join.bind (fdalloc · t) with
  | some (_, t) => t
  | none => t

/-- What the system calls do in the process at a place of the tree: the file opened, the ends of the
pipe, and whether the `k`-th `fork` succeeds. -/
structure Calls (F : Type) where
  opens : List ℕ → Span → ℕ → Option F
  pipes : List ℕ → Option (F × F)
  forks : List ℕ → ℕ → Bool

/-- A call of `exec` or `wait`, with the descriptors at the call. -/
inductive Act (D : Type)
  | exec (argv : List Span) (fds : D)
  | wait (fds : D)

def Act.map {D E : Type} (f : D → E) : Act D → Act E
  | exec argv d => exec argv (f d)
  | wait d => wait (f d)

variable (W : Calls F)

/-- The calls of `runcmd` and of its children, process by process. -/
def runcmd : Cmd → List ℕ → Fds F → List (Act (Fds F))
  | .exec argv, _, t => if argv = [] then [] else [.exec argv t]
  | .redir cmd file mode fd, l, t =>
    match (W.opens l file mode).bind (fdalloc · (close fd t)) with
    | none => []
    | some (_, t) => runcmd cmd (2 :: l) t
  | .list left right, l, t =>
    if W.forks l 0 then runcmd left (0 :: l) t ++ .wait t :: runcmd right (1 :: l) t else []
  | .pipe left right, l, t =>
    match (do
      let (r, w) ← W.pipes l
      let (p₀, t) ← fdalloc r t
      let (p₁, t) ← fdalloc w t
      return (p₀, p₁, t)) with
    | none => []
    | some (p₀, p₁, t) =>
      let both := fun t => close p₁ (close p₀ t)
      if W.forks l 0 then
        runcmd left (0 :: l) (both (dup p₁ (close 1 t))) ++
        if W.forks l 1 then
          runcmd right (1 :: l) (both (dup p₀ (close 0 t))) ++ [.wait (both t), .wait (both t)]
        else []
      else []
  | .back cmd, l, t => if W.forks l 0 then runcmd cmd (0 :: l) t else []

/-- The meaning of a command with the standard files `io 0`, `io 1` and `io 2`. -/
def Cmd.meaning : Cmd → List ℕ → (ℕ → F) → List (Act (ℕ → F))
  | exec argv, _, io => if argv = [] then [] else [.exec argv io]
  | redir cmd file mode fd, l, io =>
    match W.opens l file mode with
    | none => []
    | some f => cmd.meaning (2 :: l) (update io fd f)
  | list left right, l, io =>
    if W.forks l 0 then left.meaning (0 :: l) io ++ .wait io :: right.meaning (1 :: l) io else []
  | pipe left right, l, io =>
    match W.pipes l with
    | none => []
    | some (r, w) =>
      if W.forks l 0 then
        left.meaning (0 :: l) (update io 1 w) ++
        if W.forks l 1 then right.meaning (1 :: l) (update io 0 r) ++ [.wait io, .wait io] else []
      else []
  | back cmd, l, io => if W.forks l 0 then cmd.meaning (0 :: l) io else []

/-- All redirections are of standard files. -/
def Cmd.Standard : Cmd → Prop
  | exec _ => True
  | redir cmd _ _ fd => fd < 3 ∧ cmd.Standard
  | pipe left right | list left right => left.Standard ∧ right.Standard
  | back cmd => cmd.Standard

/-- Only the standard files are open. -/
def table (io : ℕ → F) : Fds F :=
  some (io 0) :: some (io 1) :: some (io 2) :: replicate 13 none

theorem fdalloc_close {fd : ℕ} (h : fd < 3) (io : ℕ → F) (f : F) :
    fdalloc f (close fd (table io)) = some (fd, table (update io fd f)) := by
  obtain rfl | rfl | rfl : fd = 0 ∨ fd = 1 ∨ fd = 2 := by omega
  all_goals rfl

variable {ts : List Token} {ws : List Span} {rs : List Redirection} {c : Cmd}

theorem Redirs.standard (h : Redirs ts rs) : ∀ r ∈ rs, r.fd < 3 := by
  induction h with
  | nil => simp
  | cons _ _ hop _ ih => cases hop <;> simpa using ih

theorem Args.standard (h : Args ts ws rs) : ∀ r ∈ rs, r.fd < 3 := by
  induction h with
  | nil => simp
  | cons _ hr _ ih => exact forall_mem_append.2 ⟨hr.standard, ih⟩

theorem Cmd.Standard.wrap (h : c.Standard) (hr : ∀ r ∈ rs, r.fd < 3) : (c.wrap rs).Standard := by
  induction rs generalizing c with
  | nil => exact h
  | cons r rs ih =>
    rw [forall_mem_cons] at hr
    exact ih ⟨hr.1, h⟩ hr.2

theorem Cmd.Standard.backs (h : c.Standard) : ∀ k, (c.backs k).Standard :=
  Iterate.rec Standard h (f := Cmd.back) fun _ h => h

mutual

theorem Line.standard {ts : List Token} {c : Cmd} : Line ts c → c.Standard
  | .last hp _ => hp.standard.backs _
  | .list _ hp _ hl => ⟨hp.standard.backs _, hl.standard⟩

theorem Pipe.standard {ts : List Token} {c : Cmd} : Pipe ts c → c.Standard
  | .last he => he.standard
  | .pipe _ he hp => ⟨he.standard, hp.standard⟩

theorem Exec.standard {ts : List Token} {c : Cmd} : Exec ts c → c.Standard
  | .block _ _ hl hr => hl.standard.wrap hr.standard
  | .simple hr ha _ => Cmd.Standard.wrap trivial (forall_mem_append.2 ⟨hr.standard, ha.standard⟩)

end

/-- **The shell connects its commands as they say.** At every `exec` and `wait`, in whatever process of
the tree and whichever system calls fail, the standard files are those of the meaning of the command
and no other descriptor is open. -/
theorem runcmd_plumbs (hc : c.Standard) (l : List ℕ) (io : ℕ → F) :
    runcmd W c l (table io) = (c.meaning W l io).map (Act.map table) := by
  induction c generalizing l io with
  | exec argv => by_cases h : argv = [] <;> simp [runcmd, Cmd.meaning, h, Act.map]
  | redir cmd file mode fd ih =>
    cases h : W.opens l file mode with
    | none => simp [runcmd, Cmd.meaning, h]
    | some f => simp [runcmd, Cmd.meaning, h, fdalloc_close hc.1, ih hc.2]
  | pipe left right ihl ihr =>
    cases h : W.pipes l with
    | none => simp [runcmd, Cmd.meaning, h]
    | some p =>
      -- the pipe has the descriptors 3 and 4, and the children move their end to 1 or 0
      rw [runcmd, Cmd.meaning, h]
      change (if W.forks l 0 then runcmd W left _ (table (update io 1 p.2)) ++
        if W.forks l 1 then
          runcmd W right _ (table (update io 0 p.1)) ++ [.wait (table io), .wait (table io)]
        else [] else []) = _
      rw [ihl hc.1, ihr hc.2]
      cases W.forks l 0 <;> cases W.forks l 1 <;> simp [Act.map]
  | list left right ihl ihr =>
    cases h : W.forks l 0 <;> simp [runcmd, Cmd.meaning, h, ihl hc.1, ihr hc.2, Act.map]
  | back cmd ih => cases h : W.forks l 0 <;> simp [runcmd, Cmd.meaning, h, ih hc]

theorem runcmd_plumbs_redir : runcmd (F := ℕ) ⟨fun _ _ _ => some 9, fun _ => none, fun _ _ => true⟩
    (.redir (.exec [(0, 1)]) (2, 3) 0 0) [] (table id) = [.exec [(0, 1)] (table (update id 0 9))] :=
  runcmd_plumbs (c := .redir (.exec _) _ _ 0) _ ⟨by decide, trivial⟩ [] id

end Xv6.Sh
