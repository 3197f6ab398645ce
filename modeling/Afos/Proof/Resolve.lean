import Afos.Lib.Moves
import Afos.Lib.Run
import Afos.Proof.Launch

/-!
# Resolving is lexical

`normalizePath` is a walk in the sense of `Lib.Moves`, from the names of the directory (or from none):
an empty component and a dot do nothing, two dots go up, everything else goes down. So what it answers
can be said without its stack, and so can when it refuses: the names left after striking out, and the
components of which some first few go up more often than there is anything above them.

Two consequences for what is built on it. Resolving a path in one step or piece by piece is the same,
since a walk can be cut anywhere. And the shell, which sets its directory in one place only, to a path it
has resolved, always has a directory of plain names.
-/

set_option autoImplicit false

namespace Afos

open Lib

/-! ## Components as moves -/

/-- What a component of a path does: nothing, a step up, or a step down into a directory of this name. -/
def move (component : Str) : Move Str :=
  if component = [] ∨ component = ".".toList then .stay
  else if component = "..".toList then .up
  else .down component

theorem pushComponent_eq (stack : List Str) (c : Str) :
    pushComponent stack c = ((move c).apply stack).elim (.error .invalidPath) .ok := by
  -- the two branches for dots are those of the move, and so is the rest
  rw [pushComponent, move]
  by_cases hstay : c = [] ∨ c = ".".toList
  · rw [if_pos hstay, if_pos hstay]
    rfl
  rw [if_neg hstay, if_neg hstay]
  by_cases hup : c = "..".toList
  · rw [if_pos hup, if_pos hup, Move.apply]
    split
    · rfl
    · rfl
  · rw [if_neg hup, if_neg hup]
    rfl

/-- The loop of `normalizePath` follows the moves of the components. -/
theorem foldlM_pushComponent_eq (cs stack : List Str) :
    cs.foldlM pushComponent stack =
      (Move.follow (cs.map move) stack).elim (.error .invalidPath) .ok := by
  induction cs generalizing stack with
  | nil => rfl
  | cons c cs ih =>
    rw [List.foldlM_cons, List.map_cons, Move.follow_cons, pushComponent_eq]
    cases (move c).apply stack with
    | none => rfl
    | some stack' => exact ih stack'

theorem move_isUp (c : Str) : (move c).isUp = decide (c = "..".toList) := by
  rw [move]
  by_cases hstay : c = [] ∨ c = ".".toList
  · rw [if_pos hstay]
    refine (decide_eq_false fun h => ?_).symm
    subst h
    exact absurd hstay (by decide)
  rw [if_neg hstay]
  by_cases hup : c = "..".toList
  · rw [if_pos hup, decide_eq_true hup]
    rfl
  · rw [if_neg hup, decide_eq_false hup]
    rfl

theorem move_isDown {c : Str} (hslash : '/' ∉ c) : (move c).isDown = decide (IsOrdinary c) := by
  rw [move]
  by_cases hstay : c = [] ∨ c = ".".toList
  · rw [if_pos hstay]
    exact (decide_eq_false fun h => hstay.elim h.1.1 h.2.1).symm
  rw [if_neg hstay]
  by_cases hup : c = "..".toList
  · rw [if_pos hup]
    exact (decide_eq_false fun h => h.2.2 hup).symm
  · rw [if_neg hup]
    exact (decide_eq_true ⟨⟨fun h => hstay (Or.inl h), hslash⟩, fun h => hstay (Or.inr h), hup⟩).symm

/-! ## What is refused, and what is left -/

/-- Some first components of the input go up more often than there are names above them: those of the
    directory, for a relative input, and the ordinary ones that came before. -/
def Escapes (cwd input : Str) : Prop :=
  ∃ pre, pre <+: input.splitOn '/' ∧
    (startNames cwd input).length + pre.countP (fun c => decide (IsOrdinary c)) <
      pre.count "..".toList

/-- The names are what is left of those of the directory and the components of the input, when every step up has
    struck out the step down before it. -/
def Resolves (cwd input : Str) (left : List Str) : Prop :=
  Move.Leaves ((startNames cwd input).map .down ++ (input.splitOn '/').map move) left

/-- The walk gets stuck exactly if some first few components go up too often. -/
theorem follow_eq_none_iff_escapes {cwd input : Str} :
    Move.follow ((input.splitOn '/').map move) (startNames cwd input) = none ↔ Escapes cwd input := by
  -- components are counted as the moves they are
  have hcount : ∀ pre, pre <+: input.splitOn '/' →
      (pre.map move).countP Move.isDown = pre.countP (fun c => decide (IsOrdinary c)) ∧
        (pre.map move).countP Move.isUp = pre.count "..".toList := by
    intro pre hpre
    rw [List.countP_map, List.countP_map, List.count]
    refine ⟨List.countP_congr fun c hc => ?_, List.countP_congr fun c hc => ?_⟩
    · rw [Function.comp_apply, move_isDown (slash_notMem_of_mem_splitOn (hpre.subset hc))]
    · rw [Function.comp_apply, move_isUp, decide_eq_true_iff, beq_iff_eq]
  rw [Move.follow_eq_none_iff, Escapes]
  constructor
  · rintro ⟨moves, hmoves, hlt⟩
    obtain ⟨pre, hpre, rfl⟩ := List.prefix_map_iff.mp hmoves
    rw [(hcount pre hpre).1, (hcount pre hpre).2] at hlt
    exact ⟨pre, hpre, hlt⟩
  · rintro ⟨pre, hpre, hlt⟩
    refine ⟨pre.map move, hpre.map move, ?_⟩
    rw [(hcount pre hpre).1, (hcount pre hpre).2]
    exact hlt

/-- A character that no path may have. -/
def Unclean (input : Str) : Prop := '\x00' ∈ input ∨ '\\' ∈ input

theorem normalizePath_eq (cwd : Str) {input : Str} (hclean : ¬ Unclean input) :
    normalizePath cwd input =
      (Move.follow ((input.splitOn '/').map move) (startNames cwd input)).elim (.error .invalidPath)
        fun out => .ok ('/' :: join out) := by
  rw [normalizePath, if_neg (by simpa [List.contains_iff_mem, Unclean] using hclean)]
  dsimp only
  rw [foldlM_pushComponent_eq, startNames]
  cases Move.follow ((input.splitOn '/').map move) (if input.head? = some '/' then [] else names cwd) with
  | none => rfl
  | some out => rfl

theorem normalizePath_unclean {input : Str} (h : Unclean input) (cwd : Str) :
    normalizePath cwd input = .error .invalidPath :=
  if_pos (by simpa [List.contains_iff_mem, Unclean] using h)

theorem normalizePath_of_resolves {cwd input : Str} {out : List Str} (hclean : ¬ Unclean input)
    (h : Resolves cwd input out) : normalizePath cwd input = .ok ('/' :: join out) := by
  rw [normalizePath_eq cwd hclean, Move.follow_eq_some_iff.mpr h]
  rfl

theorem eq_invalidPath {cwd input : Str} {e : Error} (h : normalizePath cwd input = .error e) :
    e = .invalidPath := by
  by_cases hclean : Unclean input
  · rw [normalizePath_unclean hclean] at h
    exact (Except.error.inj h).symm
  rw [normalizePath_eq cwd hclean] at h
  cases hfollow : Move.follow ((input.splitOn '/').map move) (startNames cwd input) with
  | none =>
    rw [hfollow] at h
    exact (Except.error.inj h).symm
  | some out =>
    rw [hfollow] at h
    cases h

theorem normalizePath_error_iff {cwd input : Str} :
    normalizePath cwd input = .error .invalidPath ↔ Unclean input ∨ Escapes cwd input := by
  by_cases hclean : Unclean input
  · exact iff_of_true (normalizePath_unclean hclean cwd) (Or.inl hclean)
  rw [or_iff_right hclean, ← follow_eq_none_iff_escapes, normalizePath_eq cwd hclean]
  cases Move.follow ((input.splitOn '/').map move) (startNames cwd input) with
  | none => exact iff_of_true rfl rfl
  | some out => exact ⟨fun h => (by cases h), fun h => (by cases h)⟩

/-- What is not refused is resolved, and to one list of names only: striking out in another order comes to the
    same. -/
theorem exists_resolves {cwd input : Str} (h : ¬ Escapes cwd input) :
    ∃ out, ∀ left, Resolves cwd input left ↔ left = out := by
  cases hfollow : Move.follow ((input.splitOn '/').map move) (startNames cwd input) with
  | none => exact absurd (follow_eq_none_iff_escapes.mp hfollow) h
  | some out =>
    refine ⟨out, fun left => ?_⟩
    rw [Resolves, ← Move.follow_eq_some_iff, hfollow, Option.some.injEq]
    exact eq_comm

/-! ## The directory of the shell -/

theorem rooted_user : Rooted "/user".toList := ⟨["user".toList], by decide, rfl⟩

namespace Shell

section Directory

variable {σ : Type} [Platform σ] [Argon2]

open Op (Keeps Same)

theorem keeps_cwd_executeApp (command : Str) (args : List Str) :
    Keeps (Same cwd) (executeApp command args : Op Error (Shell σ) Int) := by
  have hresolve : Keeps (Same cwd) (resolveCommand command : Op Error (Shell σ) Str) := by
    have hexists : ∀ path, Keeps (Same cwd) (onVfs (Vfs.existsAt path) : Op Error (Shell σ) Bool) :=
      fun path s => rfl
    -- a command with a slash, and one that is looked for in the directories
    refine Keeps.ite ?_ ?_
    · refine Keeps.bind Keeps.read fun s => Keeps.bind (Keeps.ofExcept _) fun path => ?_
      refine Keeps.bind (hexists path) fun present => Keeps.bind Keeps.read fun s => ?_
      refine Keeps.ite (Keeps.pure _) (Keeps.ite (Keeps.bind (hexists _) fun present => ?_)
        (Keeps.throw _))
      exact Keeps.ite (Keeps.pure _) (Keeps.throw _)
    · generalize ["/sys/apps".toList, "/apps".toList] = roots
      induction roots with
      | nil => exact Keeps.throw _
      | cons root rest ih =>
        rw [searchRoots_cons]
        refine Keeps.bind (hexists _) fun present => Keeps.bind Keeps.read fun s => ?_
        exact Keeps.ite (Keeps.pure _) ih
  refine Keeps.bind (Keeps.bind hresolve fun path => ?_) fun launch => fun s => rfl
  refine Keeps.bind (fun s => rfl) fun source => Keeps.ite (Keeps.throw _) ?_
  exact Keeps.bind (Keeps.ofExcept _) fun identity => Keeps.pure _

/-- A command leaves the directory alone, unless it is a `cd` that succeeds. Applications run with a copy of it. -/
theorem runCommand_cwd_cases (line : Str) (s : Shell σ) :
    (runCommand line s).2.cwd = s.cwd ∨
      ∃ args, splitCommandLine line = .ok ("cd".toList :: args) ∧
        (runCommand line s).1 = .ok (.next 0) ∧
        normalizePath s.cwd (args.headD "/user".toList) = .ok (runCommand line s).2.cwd := by
  cases hsplit : splitCommandLine line with
  | error e =>
    unfold runCommand
    rw [hsplit]
    exact Or.inl rfl
  | ok tokens =>
  cases tokens with
  | nil =>
    unfold runCommand
    rw [hsplit]
    exact Or.inl rfl
  | cons command args =>
  rw [runCommand_of_split hsplit]
  unfold dispatch
  -- `cd` is the one command that sets the directory
  by_cases hcd : command = "cd".toList
  · rw [if_pos hcd, hcd]
    cases hrun : changeDirectory args s with
    | mk r s' =>
    rw [changeDirectory, Op.run_bind_ok (Op.run_read s)] at hrun
    rcases Op.bind_cases hrun with ⟨e, hn, -⟩ | ⟨target, s₁, hn, hrun⟩
    · obtain ⟨-, rfl⟩ := Prod.mk.inj hn
      exact Or.inl rfl
    obtain ⟨htarget, rfl⟩ := Prod.mk.inj hn
    -- the directory is listed before it is entered, and a failed listing leaves the old one
    have hlists : Keeps (Same cwd) (onVfs (Vfs.list target) : Op Error (Shell σ) _) := fun _ => rfl
    rcases Op.bind_cases hrun with ⟨e, hlist, -⟩ | ⟨entries, s₂, hlist, hrun⟩
    · exact Or.inl (hlists.eq hlist)
    · cases hrun
      exact Or.inr ⟨args, rfl, rfl, htarget⟩
  rw [if_neg hcd]
  have hkeeps : ∀ {x : Op Error (Shell σ) CommandOutcome}, Keeps (Same cwd) x → (x s).2.cwd = s.cwd :=
    fun hx => hx s
  refine Or.inl (hkeeps (Keeps.ite (Keeps.map _ (Keeps.ofExcept _)) (Keeps.ite ?_ (Keeps.ite ?_ ?_))))
  · exact Keeps.bind (fun s => rfl) fun _ => Keeps.pure _
  · exact Keeps.bind (fun s => rfl) fun _ => Keeps.bind (fun s => rfl) fun _ => Keeps.pure _
  · refine Keeps.ite ?_ (Keeps.map _ (keeps_cwd_executeApp command args))
    cases args with
    | nil => exact Keeps.throw _
    | cons path rest => exact Keeps.map _ (keeps_cwd_executeApp path rest)

/-- The shell after a line, whatever came of it. -/
def afterLine (s : Shell σ) (line : Str) : Shell σ := (runCommand line s).2

theorem rooted_afterLine (line : Str) {s : Shell σ} (h : Rooted s.cwd) : Rooted (afterLine s line).cwd := by
  rcases runCommand_cwd_cases line s with hsame | ⟨args, -, -, hn⟩
  · rw [afterLine, hsame]
    exact h
  · exact h.normalizePath hn

theorem rooted_runFrom (lines : List Str) {s : Shell σ} (h : Rooted s.cwd) :
    Rooted (runFrom afterLine s lines).cwd :=
  Along.invariant (fun s => Rooted s.cwd) (fun _ line hs _ => rooted_afterLine line hs)
    (Along.of_forall (fun _ _ => trivial) s lines) h

/-- **Paths are resolved lexically.** Against a directory of plain names: a path is refused exactly if it
    has a forbidden character or goes up too often, and otherwise its answer is a path of plain names,
    those left after striking out, which resolves to itself from anywhere. The directory of the shell is
    such a path after any commands, and a command that changes it is a `cd` that succeeded. -/
theorem paths_resolved_lexically :
    (∀ cwd input, Rooted cwd →
      (normalizePath cwd input = .error .invalidPath ↔ Unclean input ∨ Escapes cwd input) ∧
        (¬ (Unclean input ∨ Escapes cwd input) → ∃ out,
          normalizePath cwd input = .ok ('/' :: join out) ∧ Rooted ('/' :: join out) ∧
            (∀ left, Resolves cwd input left ↔ left = out) ∧
            ∀ cwd', normalizePath cwd' ('/' :: join out) = .ok ('/' :: join out))) ∧
      ∀ (s : Shell σ) (lines : List Str), Rooted s.cwd →
        Rooted (runFrom afterLine s lines).cwd ∧
          ∀ line, (afterLine (runFrom afterLine s lines) line).cwd ≠ (runFrom afterLine s lines).cwd →
            ∃ args, splitCommandLine line = .ok ("cd".toList :: args) ∧
              (runCommand line (runFrom afterLine s lines)).1 = .ok (.next 0) ∧
              normalizePath (runFrom afterLine s lines).cwd (args.headD "/user".toList) =
                .ok (afterLine (runFrom afterLine s lines) line).cwd := by
  refine ⟨fun cwd input hcwd => ⟨normalizePath_error_iff, fun h => ?_⟩, fun s lines hcwd => ?_⟩
  · rw [not_or] at h
    obtain ⟨out, hout⟩ := exists_resolves h.2
    have hok := normalizePath_of_resolves h.1 ((hout out).mpr rfl)
    have hrooted := hcwd.normalizePath hok
    exact ⟨out, hok, hrooted, hout, normalizePath_self hrooted⟩
  · refine ⟨rooted_runFrom lines hcwd, fun line hchanged => ?_⟩
    exact (runCommand_cwd_cases line _).resolve_left hchanged

end Directory

section User

attribute [local instance] lengthArgon2

/-- From `/user`: two steps up are too many, a step up and one down are not, and after two commands the
    shell is in a directory of plain names. -/
theorem paths_resolved_from_user :
    (normalizePath "/user".toList "../..".toList = .error .invalidPath ↔
        Unclean "../..".toList ∨ Escapes "/user".toList "../..".toList) ∧
      (∃ out, normalizePath "/user".toList "./..//apps/".toList = .ok ('/' :: join out) ∧
        Rooted ('/' :: join out)) ∧
      Rooted (runFrom afterLine (tableShell [] []) ["cd /apps".toList, "cd ../..".toList]).cwd := by
  have hpaths := paths_resolved_lexically (σ := Obliging)
  have hclean : ¬ (Unclean "./..//apps/".toList ∨ Escapes "/user".toList "./..//apps/".toList) := by
    rw [← (hpaths.1 "/user".toList "./..//apps/".toList rooted_user).1]
    decide
  obtain ⟨out, hok, hrooted, -⟩ := (hpaths.1 _ _ rooted_user).2 hclean
  exact ⟨(hpaths.1 _ _ rooted_user).1, ⟨out, hok, hrooted⟩, (hpaths.2 _ _ rooted_user).1⟩

end User

end Shell

/-! ## Piece by piece -/

theorem startNames_append {a : Str} (ha : a ≠ []) (cwd b : Str) :
    startNames cwd (a ++ b) = startNames cwd a := by
  rw [startNames, startNames, List.head?_append_of_ne_nil _ ha]

theorem unclean_append_slash {a b : Str} : Unclean (a ++ '/' :: b) ↔ Unclean a ∨ Unclean b := by
  simp only [Unclean, List.mem_append, List.mem_cons]
  have hnul : '\x00' ≠ '/' := by decide
  have hback : '\\' ≠ '/' := by decide
  tauto

/-- A path that was resolved is where a relative one starts from. -/
theorem startNames_slash_join {out : List Str} (hout : ∀ c ∈ out, Plain c) {b : Str}
    (hb : b.head? ≠ some '/') : startNames ('/' :: join out) b = out := by
  rw [startNames, if_neg hb, names_slash, names_join (isName_of_plain hout)]

/-- The walk of a path that is cut at a slash is the walk of the first part, and then of the second. The second is
    relative, or it would start over. -/
theorem normalizePath_append {cwd a b : Str} (hcwd : Rooted cwd) (ha : a ≠ [])
    (hb : b.head? ≠ some '/') :
    normalizePath cwd (a ++ '/' :: b) = normalizePath cwd a >>= fun p => normalizePath p b := by
  -- a forbidden character in either part is one in the whole
  by_cases hua : Unclean a
  · rw [normalizePath_unclean hua, normalizePath_unclean (unclean_append_slash.mpr (Or.inl hua))]
    rfl
  by_cases hub : Unclean b
  · rw [normalizePath_unclean (unclean_append_slash.mpr (Or.inr hub))]
    cases hn : normalizePath cwd a with
    | error e => rw [eq_invalidPath hn]; rfl
    | ok p => exact (normalizePath_unclean hub p).symm
  have huab : ¬ Unclean (a ++ '/' :: b) := fun h => (unclean_append_slash.mp h).elim hua hub
  rw [normalizePath_eq cwd huab, List.splitOn_append_cons_self, List.map_append, Move.follow_append,
    startNames_append ha, normalizePath_eq cwd hua]
  cases hfollow : Move.follow ((a.splitOn '/').map move) (startNames cwd a) with
  | none => rfl
  | some out =>
    -- the first part leaves plain names, so that the second starts from these
    have hfold : (a.splitOn '/').foldlM pushComponent (startNames cwd a) = .ok out := by
      rw [foldlM_pushComponent_eq, hfollow]
      rfl
    have hplain := plain_of_foldlM hcwd (not_or.mp hua) hfold
    show (Move.follow _ out).elim _ _ = normalizePath ('/' :: join out) b
    rw [normalizePath_eq _ hub, startNames_slash_join hplain hb]

theorem join_merge (a b : Str) (pieces : List Str) :
    join (a :: b :: pieces) = join ((a ++ '/' :: b) :: pieces) := by
  cases pieces with
  | nil => rw [join_cons_cons, join_singleton, join_singleton]
  | cons c pieces =>
    rw [join_cons_cons, join_cons_cons, join_cons_cons, List.append_assoc, List.cons_append]

/-- A path written from pieces, resolved one piece after the other, as a user would with `cd`. -/
theorem normalizePath_join {cwd a : Str} {pieces : List Str} (hcwd : Rooted cwd) (ha : a ≠ [])
    (hpieces : ∀ b ∈ pieces, b.head? ≠ some '/') :
    normalizePath cwd (join (a :: pieces)) = (a :: pieces).foldlM normalizePath cwd := by
  -- by the pieces, the first two of them taken together
  induction pieces generalizing a with
  | nil =>
    rw [join_singleton, List.foldlM_cons]
    cases normalizePath cwd a with
    | error e => rfl
    | ok p => rfl
  | cons b pieces ih =>
    rw [join_merge, ih (List.append_ne_nil_of_left_ne_nil ha _) fun c hc => hpieces c (List.mem_cons_of_mem b hc),
      List.foldlM_cons, List.foldlM_cons, normalizePath_append hcwd ha (hpieces b List.mem_cons_self)]
    cases normalizePath cwd a with
    | error e => rfl
    | ok p => rfl

/-- **Resolving composes.** In one step or piece by piece, with the same answer, success or not. -/
theorem resolving_composes {cwd : Str} (hcwd : Rooted cwd) :
    (∀ a b, a ≠ [] → b.head? ≠ some '/' →
      normalizePath cwd (a ++ "/".toList ++ b) =
        normalizePath cwd a >>= fun p => normalizePath p b) ∧
      ∀ a pieces, a ≠ [] → (∀ b ∈ pieces, b.head? ≠ some '/') →
        normalizePath cwd (join (a :: pieces)) = (a :: pieces).foldlM normalizePath cwd := by
  refine ⟨fun a b ha hb => ?_, fun a pieces ha hpieces => normalizePath_join hcwd ha hpieces⟩
  rw [List.append_assoc]
  exact normalizePath_append hcwd ha hb

theorem resolving_composes_from_user :
    normalizePath "/user".toList ("../a".toList ++ "/".toList ++ "../..".toList) =
        (normalizePath "/user".toList "../a".toList >>= fun p => normalizePath p "../..".toList) ∧
      normalizePath "/user".toList "../a".toList = .ok "/a".toList ∧
      normalizePath "/a".toList "../..".toList = .error .invalidPath :=
  ⟨(resolving_composes rooted_user).1 _ _ (by decide) (by decide), by decide, by decide⟩

end Afos
