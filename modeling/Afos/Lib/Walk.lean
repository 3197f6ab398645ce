import Afos.Lib.Posix

/-!
# Where paths lead

The rules of a walk, and what follows from them: a walk can be cut in two anywhere, a walk along a
real path comes to that path, and a walk that arrives still arrives when entries are added. Each is
an induction over the walk itself (`walk_induction`), through the links it follows.

From these, what `createDirAll` does. Walking its path either comes to a directory, and then
nothing happens; or it stops in a directory at a name that is missing (`StopsAt`), and then that
name and all after it are made, *there*, wherever links have led the walk by then; or there is
something else in the way, and then it fails and nothing has changed.
-/

set_option autoImplicit false

namespace Afos.Lib

namespace Host

variable {h : Host} {cur d : List Str} {left : Nat} {c : Str} {x : Component}

/-! ## One step -/

theorem step_of_not_dir (hn : h.node cur ≠ some .dir) (x : Component) :
    h.step cur x = .fails .notDirectory := by rw [step.eq_def, if_pos hn]

theorem step_here (hd : h.node cur = some .dir) : h.step cur .here = .enters cur := by
  rw [step, if_neg (not_not.mpr hd)]

theorem step_up (hd : h.node cur = some .dir) : h.step cur .up = .enters cur.dropLast := by
  rw [step, if_neg (not_not.mpr hd)]

theorem step_missing (hd : h.node cur = some .dir) (hn : h.node (cur ++ [c]) = none) :
    h.step cur (.name c) = .fails .noEntry := by
  rw [step, if_neg (not_not.mpr hd)]
  simp only [hn]

theorem step_link (hd : h.node cur = some .dir) {target : Str}
    (hn : h.node (cur ++ [c]) = some (.link target)) :
    h.step cur (.name c) = .follows (linkStart cur target) (linkComponents target) := by
  rw [step, if_neg (not_not.mpr hd)]
  simp only [hn]

theorem step_entry (hd : h.node cur = some .dir) {n : Inode} (hn : h.node (cur ++ [c]) = some n)
    (hl : n.isLink = false) : h.step cur (.name c) = .enters (cur ++ [c]) := by
  rw [step, if_neg (not_not.mpr hd)]
  cases n with
  | link target => cases hl
  | file data => simp only [hn]
  | dir => simp only [hn]

/-- The directory above a directory. -/
theorem node_dropLast (hd : h.node cur = some .dir) : h.node cur.dropLast = some .dir := by
  induction cur using List.reverseRecOn with
  | nil => exact hd
  | append_singleton p c _ =>
    rw [List.dropLast_concat]
    exact h.node_parent hd

theorem node_linkStart (hd : h.node cur = some .dir) (target : Str) :
    h.node (linkStart cur target) = some .dir := by
  rw [linkStart]
  split
  · exact h.root
  · exact hd

/-- A step goes on from something that is there and is no link, or it fails, or it has come to a link. The three cases
    of every induction along a walk. -/
theorem step_cases (h : Host) (cur : List Str) (x : Component) :
    (∃ e, h.step cur x = .fails e) ∨
      (∃ p n, h.step cur x = .enters p ∧ h.node p = some n ∧ n.isLink = false) ∨
      ∃ start cs, h.step cur x = .follows start cs ∧ h.node start = some .dir := by
  by_cases hd : h.node cur = some .dir
  · cases x with
    | here => exact Or.inr (Or.inl ⟨cur, .dir, step_here hd, hd, rfl⟩)
    | up => exact Or.inr (Or.inl ⟨cur.dropLast, .dir, step_up hd, node_dropLast hd, rfl⟩)
    | name c =>
      cases hn : h.node (cur ++ [c]) with
      | none => exact Or.inl ⟨.noEntry, step_missing hd hn⟩
      | some n =>
        cases n with
        | link target => exact Or.inr (Or.inr ⟨_, _, step_link hd hn, node_linkStart hd target⟩)
        | file data => exact Or.inr (Or.inl ⟨cur ++ [c], .file data, step_entry hd hn rfl, hn, rfl⟩)
        | dir => exact Or.inr (Or.inl ⟨cur ++ [c], .dir, step_entry hd hn rfl, hn, rfl⟩)
  · exact Or.inl ⟨.notDirectory, step_of_not_dir hd x⟩

/-- Further entries do not change a step that does not fail. A step that fails may well succeed then, so it is the
    only case left out. -/
theorem step_of_extends {h' : Host} (hext : ∀ p n, h.node p = some n → h'.node p = some n)
    (hno : ∀ e, h.step cur x ≠ .fails e) : h'.step cur x = h.step cur x := by
  by_cases hd : h.node cur = some .dir
  · have hd' := hext _ _ hd
    cases x with
    | here => rw [step_here hd, step_here hd']
    | up => rw [step_up hd, step_up hd']
    | name c =>
      cases hn : h.node (cur ++ [c]) with
      | none => exact absurd (step_missing hd hn) (hno _)
      | some n =>
        have hn' := hext _ _ hn
        cases n with
        | link target => rw [step_link hd hn, step_link hd' hn']
        | file data => rw [step_entry hd hn rfl, step_entry hd' hn' rfl]
        | dir => rw [step_entry hd hn rfl, step_entry hd' hn' rfl]
  · exact absurd (step_of_not_dir hd x) (hno _)

/-! ## Whole walks -/

@[simp] theorem walk_nil (h : Host) (left : Nat) (cur : List Str) :
    h.walk left cur [] = .ok (cur, left) := by
  cases left with
  | zero => rfl
  | succ left => rfl

theorem walk_fails {e : Errno} (hs : h.step cur x = .fails e) (cs : List Component) :
    h.walk left cur (x :: cs) = .error e := by
  cases left <;> simp only [walk, walkWith, hs]

theorem walk_enters {p : List Str} (hs : h.step cur x = .enters p) (cs : List Component) :
    h.walk left cur (x :: cs) = h.walk left p cs := by
  cases left <;> simp only [walk, walkWith, hs]

theorem walk_follows {start : List Str} {target : List Component}
    (hs : h.step cur x = .follows start target) (cs : List Component) :
    h.walk (left + 1) cur (x :: cs) = h.walk left start (target ++ cs) := by
  simp only [walk, walkWith, hs]

theorem walk_exhausted {start : List Str} {target : List Component}
    (hs : h.step cur x = .follows start target) (cs : List Component) :
    h.walk 0 cur (x :: cs) = .error .tooManyLinks := by
  simp only [walk, walkWith, hs]

/-- Induction along a walk: over the links it may follow, and between two of them over the
    components. -/
theorem walk_induction {P : Nat → List Str → List Component → Prop}
    (nil : ∀ left cur, P left cur [])
    (fails : ∀ left cur x cs e, (∀ ys, h.walk left cur (x :: ys) = .error e) → P left cur (x :: cs))
    (enters : ∀ left cur x cs p n, h.step cur x = .enters p → h.node p = some n →
      n.isLink = false → P left p cs → P left cur (x :: cs))
    (follows : ∀ left cur x cs start target, h.step cur x = .follows start target →
      h.node start = some .dir → P left start (target ++ cs) → P (left + 1) cur (x :: cs)) :
    ∀ left cur cs, P left cur cs := by
  intro left
  induction left with
  | zero =>
    intro cur cs
    induction cs generalizing cur with
    | nil => exact nil 0 cur
    | cons x cs ih =>
      rcases h.step_cases cur x with ⟨e, hs⟩ | ⟨p, n, hs, hn, hl⟩ | ⟨start, target, hs, -⟩
      · exact fails 0 cur x cs e (walk_fails hs)
      · exact enters 0 cur x cs p n hs hn hl (ih p)
      · exact fails 0 cur x cs .tooManyLinks (walk_exhausted hs)
  | succ left ihl =>
    intro cur cs
    induction cs generalizing cur with
    | nil => exact nil (left + 1) cur
    | cons x cs ih =>
      rcases h.step_cases cur x with ⟨e, hs⟩ | ⟨p, n, hs, hn, hl⟩ | ⟨start, target, hs, hd⟩
      · exact fails (left + 1) cur x cs e (walk_fails hs)
      · exact enters (left + 1) cur x cs p n hs hn hl (ih p)
      · exact follows left cur x cs start target hs hd (ihl start _)

/-- Walking two stretches is walking one and then the other, with the links the first has left. It splits a path at
    any of its names. -/
theorem walk_append (h : Host) (left : Nat) (cur : List Str) (xs ys : List Component) :
    h.walk left cur (xs ++ ys) = (h.walk left cur xs).bind fun r => h.walk r.2 r.1 ys := by
  induction left, cur, xs using h.walk_induction with
  | nil left cur => rw [List.nil_append, walk_nil]; rfl
  | fails left cur x xs e he => rw [List.cons_append, he, he]; rfl
  | enters left cur x xs p n hs _ _ ih => rw [List.cons_append, walk_enters hs, walk_enters hs, ih]
  | follows left cur x xs start target hs _ ih =>
    rw [List.cons_append, walk_follows hs, walk_follows hs, ← List.append_assoc, ih]

/-- Where a walk arrives there is something, and it is no link, provided that it has set out from such a place. -/
theorem node_of_walk {cs : List Component} {p : List Str} {m : Nat} {n : Inode}
    (hcur : h.node cur = some n) (hl : n.isLink = false) (hw : h.walk left cur cs = .ok (p, m)) :
    ∃ k, h.node p = some k ∧ k.isLink = false := by
  induction left, cur, cs using h.walk_induction generalizing n with
  | nil left cur =>
    rw [walk_nil] at hw
    cases hw
    exact ⟨n, hcur, hl⟩
  | fails left cur x cs e he => rw [he] at hw; cases hw
  | enters left cur x cs q k hs hk hkl ih => exact ih hk hkl (walk_enters hs cs ▸ hw)
  | follows left cur x cs start target hs hd ih => exact ih hd rfl (walk_follows hs cs ▸ hw)

/-- A walk along real entries comes to them, and follows no link. -/
theorem walk_real {n : Inode} (r : List Str) (hn : h.node (cur ++ r) = some n)
    (hl : n.isLink = false) : h.walk left cur (r.map .name) = .ok (cur ++ r, left) := by
  induction r generalizing cur with
  | nil => rw [List.map_nil, walk_nil, List.append_nil]
  | cons c r ih =>
    have hd : h.node cur = some .dir := h.node_above (by simp) hn
    rw [List.append_cons] at hn ⊢
    have hc : ∃ m, h.node (cur ++ [c]) = some m ∧ m.isLink = false := by
      cases r with
      | nil => exact ⟨n, by simpa using hn, hl⟩
      | cons x xs => exact ⟨.dir, h.node_above (by simp) hn, rfl⟩
    obtain ⟨m, hm, hml⟩ := hc
    rw [List.map_cons, walk_enters (step_entry hd hm hml), ih hn]

/-- A walk that arrives still does when there are more entries, at the same place and with as many links left. -/
theorem walk_of_extends {h' : Host} (hext : ∀ p n, h.node p = some n → h'.node p = some n)
    {cs : List Component} {r : List Str × Nat} (hw : h.walk left cur cs = .ok r) :
    h'.walk left cur cs = .ok r := by
  induction left, cur, cs using h.walk_induction with
  | nil left cur => rw [walk_nil] at hw ⊢; exact hw
  | fails left cur x cs e he => rw [he] at hw; cases hw
  | enters left cur x cs p n hs _ _ ih =>
    have hs' := (step_of_extends hext (by rw [hs]; exact fun _ hf => by cases hf)).trans hs
    rw [walk_enters hs']
    exact ih (walk_enters hs cs ▸ hw)
  | follows left cur x cs start target hs _ ih =>
    have hs' := (step_of_extends hext (by rw [hs]; exact fun _ hf => by cases hf)).trans hs
    rw [walk_follows hs']
    exact ih (walk_follows hs cs ▸ hw)

/-! ## Resolving -/

variable {pre cs : List Component} {p : List Str} {n : Inode}

theorem resolve_eq_ok_iff : h.resolve cs = .ok p ↔ ∃ m, h.walk maxLinks [] cs = .ok (p, m) := by
  rw [resolve]
  cases hw : h.walk maxLinks [] cs with
  | error e => exact ⟨fun hr => (by cases hr), fun ⟨m, hm⟩ => by cases hm⟩
  | ok r =>
    obtain ⟨q, m⟩ := r
    exact ⟨fun hr => ⟨m, by cases hr; rfl⟩, fun ⟨k, hk⟩ => by cases hk; rfl⟩

theorem node_of_resolve (hr : h.resolve cs = .ok p) : ∃ k, h.node p = some k ∧ k.isLink = false := by
  obtain ⟨m, hm⟩ := resolve_eq_ok_iff.mp hr
  exact node_of_walk h.root rfl hm

theorem resolve_real (hn : h.node p = some n) (hl : n.isLink = false) :
    h.resolve (p.map .name) = .ok p :=
  resolve_eq_ok_iff.mpr ⟨maxLinks, walk_real p hn hl⟩

theorem resolve_of_extends {h' : Host} (hext : ∀ p n, h.node p = some n → h'.node p = some n)
    (hr : h.resolve cs = .ok p) : h'.resolve cs = .ok p := by
  obtain ⟨m, hm⟩ := resolve_eq_ok_iff.mp hr
  exact resolve_eq_ok_iff.mpr ⟨m, walk_of_extends hext hm⟩

theorem resolve_append_error {e : Errno} (hr : h.resolve pre = .error e) (cs : List Component) :
    h.resolve (pre ++ cs) = .error e := by
  rw [resolve] at hr ⊢
  rw [walk_append]
  cases hw : h.walk maxLinks [] pre with
  | error e' => rw [hw] at hr; cases hr; rfl
  | ok r => rw [hw] at hr; cases hr

theorem resolve_append_not_dir (hr : h.resolve pre = .ok d) (hn : h.node d ≠ some .dir)
    (x : Component) (cs : List Component) : h.resolve (pre ++ x :: cs) = .error .notDirectory := by
  obtain ⟨m, hm⟩ := resolve_eq_ok_iff.mp hr
  rw [resolve, walk_append, hm]
  exact congrArg (Except.map Prod.fst) (walk_fails (step_of_not_dir hn x) cs)

theorem resolve_append_missing (hr : h.resolve pre = .ok d) (hd : h.node d = some .dir)
    (hn : h.node (d ++ [c]) = none) (cs : List Component) :
    h.resolve (pre ++ .name c :: cs) = .error .noEntry := by
  obtain ⟨m, hm⟩ := resolve_eq_ok_iff.mp hr
  rw [resolve, walk_append, hm]
  exact congrArg (Except.map Prod.fst) (walk_fails (step_missing hd hn) cs)

theorem resolve_append_real (hr : h.resolve pre = .ok d) {r : List Str}
    (hn : h.node (d ++ r) = some n) (hl : n.isLink = false) :
    h.resolve (pre ++ r.map .name) = .ok (d ++ r) := by
  obtain ⟨m, hm⟩ := resolve_eq_ok_iff.mp hr
  rw [resolve, walk_append, hm]
  exact congrArg (Except.map Prod.fst) (walk_real r hn hl)

/-! ## The last component -/

variable {ns : List Str} {tail : Tail}

theorem locate_of_error {e : Errno} (hnul : HostPath.hasNul ⟨ns ++ [c], tail⟩ = false)
    (hr : h.resolve (ns.map .name) = .error e) : h.locate ⟨ns ++ [c], tail⟩ = .error e := by
  rw [locate, if_neg (by rw [hnul]; exact Bool.false_ne_true)]
  simp only [List.getLast?_concat, List.dropLast_concat, hr]
  cases tail with
  | plain => rfl
  | slash => rfl
  | dot =>
    simp only [HostPath.components, List.map_append, List.append_assoc, resolve_append_error hr]
    rfl

theorem locate_of_not_dir (hnul : HostPath.hasNul ⟨ns ++ [c], tail⟩ = false)
    (hr : h.resolve (ns.map .name) = .ok d) (hn : h.node d ≠ some .dir) :
    h.locate ⟨ns ++ [c], tail⟩ = .error .notDirectory := by
  rw [locate, if_neg (by rw [hnul]; exact Bool.false_ne_true)]
  simp only [List.getLast?_concat, List.dropLast_concat, hr, if_pos hn]
  cases tail with
  | plain => rfl
  | slash => rfl
  | dot =>
    simp only [HostPath.components, List.map_append, List.append_assoc, List.map_cons,
      List.cons_append, resolve_append_not_dir hr hn]
    rfl

theorem locate_of_dir (hnul : HostPath.hasNul ⟨ns ++ [c], tail⟩ = false) (ht : tail ≠ .dot)
    (hr : h.resolve (ns.map .name) = .ok d) (hd : h.node d = some .dir) :
    h.locate ⟨ns ++ [c], tail⟩ = .ok (some (d, c)) := by
  rw [locate, if_neg (by rw [hnul]; exact Bool.false_ne_true)]
  simp only [List.getLast?_concat, List.dropLast_concat, hr, if_neg (not_not.mpr hd)]

/-- What the last component of a path can come to: an error on the way, nothing to give a name to, or an entry of a
    directory. -/
theorem locate_cases (h : Host) (ns : List Str) (c : Str) (tail : Tail) :
    (∃ e, h.locate ⟨ns ++ [c], tail⟩ = .error e) ∨ h.locate ⟨ns ++ [c], tail⟩ = .ok none ∨
      ∃ d, h.resolve (ns.map .name) = .ok d ∧ h.node d = some .dir ∧
        h.locate ⟨ns ++ [c], tail⟩ = .ok (some (d, c)) := by
  cases hnul : HostPath.hasNul ⟨ns ++ [c], tail⟩ with
  | true => exact Or.inl ⟨.nul, by rw [locate, if_pos hnul]⟩
  | false =>
    cases hr : h.resolve (ns.map .name) with
    | error e => exact Or.inl ⟨e, locate_of_error hnul hr⟩
    | ok d =>
      by_cases hd : h.node d = some .dir
      · by_cases ht : tail = .dot
        · subst ht
          rw [locate, if_neg (by rw [hnul]; exact Bool.false_ne_true)]
          simp only [List.getLast?_concat]
          cases h.resolve (HostPath.components ⟨ns ++ [c], .dot⟩) with
          | error e => exact Or.inl ⟨e, rfl⟩
          | ok p => exact Or.inr (Or.inl rfl)
        · exact Or.inr (Or.inr ⟨d, rfl, hd, locate_of_dir hnul ht hr hd⟩)
      · exact Or.inl ⟨.notDirectory, locate_of_not_dir hnul hr hd⟩

/-- The entry a path stands for lies where its directory leads, and has the last name of the path. -/
theorem resolve_of_locate {x : Str} (hl : h.locate ⟨ns ++ [c], tail⟩ = .ok (some (d, x))) :
    h.resolve (ns.map .name) = .ok d ∧ x = c := by
  rcases h.locate_cases ns c tail with ⟨e, he⟩ | hnone | ⟨d', hr, -, hl'⟩
  · rw [he] at hl; cases hl
  · rw [hnone] at hl; cases hl
  · rw [hl'] at hl
    cases hl
    exact ⟨hr, rfl⟩

/-- The entry a real path stands for is the one at that path, since nothing is followed on the way to it. -/
theorem locate_real (hn : h.node p = some n) {x : Str}
    (hl : h.locate ⟨p, .plain⟩ = .ok (some (d, x))) : d ++ [x] = p := by
  induction p using List.reverseRecOn with
  | nil => cases hl
  | append_singleton q c _ =>
    obtain ⟨hr, rfl⟩ := resolve_of_locate hl
    rw [resolve_real (h.node_parent hn) rfl] at hr
    rw [Except.ok.inj hr]

theorem isDir_iff {q : HostPath} :
    h.isDir q = true ↔ ∃ d, h.canonicalize q = .ok d ∧ h.node d = some .dir := by
  rw [isDir]
  cases h.canonicalize q with
  | error e => exact ⟨fun ht => (by cases ht), fun ⟨d, hd, _⟩ => by cases hd⟩
  | ok p =>
    simp only [decide_eq_true_eq]
    exact ⟨fun hd => ⟨p, rfl, hd⟩, fun ⟨d, hp, hd⟩ => by cases hp; exact hd⟩

theorem canonicalize_plain (hnul : HostPath.hasNul ⟨ns, .plain⟩ = false) :
    h.canonicalize ⟨ns, .plain⟩ = h.resolve (ns.map .name) := by
  rw [canonicalize, if_neg (by rw [hnul]; exact Bool.false_ne_true)]
  simp only [HostPath.components, if_true, List.append_nil]

/-! ## Missing names -/

/-- Walking `ns` stops in the directory `d`, because `c` is not in it; the names `post` are those
    after it. -/
def StopsAt (h : Host) (ns d : List Str) (c : Str) (post : List Str) : Prop :=
  ∃ pre, ns = pre ++ c :: post ∧ h.resolve (pre.map .name) = .ok d ∧ h.node d = some .dir ∧
    h.node (d ++ [c]) = none

theorem StopsAt.resolve_eq {post : List Str} (hs : h.StopsAt ns d c post) :
    h.resolve (ns.map .name) = .error .noEntry := by
  obtain ⟨pre, rfl, hr, hd, hn⟩ := hs
  rw [List.map_append, List.map_cons]
  exact resolve_append_missing hr hd hn _

/-- One name more at the end of a path: it is the one that is missing, or it comes after that. -/
theorem stopsAt_concat_iff {x : Str} {post : List Str} :
    h.StopsAt (ns ++ [x]) d c post ↔
      (post = [] ∧ c = x ∧ h.resolve (ns.map .name) = .ok d ∧ h.node d = some .dir ∧
          h.node (d ++ [c]) = none) ∨
        ∃ post', post = post' ++ [x] ∧ h.StopsAt ns d c post' := by
  constructor
  · rintro ⟨pre, heq, hr, hd, hn⟩
    induction post using List.reverseRecOn with
    | nil =>
      obtain ⟨rfl, hx⟩ := List.append_inj' heq rfl
      exact Or.inl ⟨rfl, (List.cons.inj hx).1.symm, hr, hd, hn⟩
    | append_singleton post y _ =>
      rw [← List.cons_append, ← List.append_assoc] at heq
      obtain ⟨hns, hx⟩ := List.append_inj' heq rfl
      rw [← (List.cons.inj hx).1]
      exact Or.inr ⟨post, rfl, pre, hns, hr, hd, hn⟩
  · rintro (⟨rfl, rfl, hr, hd, hn⟩ | ⟨post', rfl, pre, rfl, hr, hd, hn⟩)
    · exact ⟨ns, rfl, hr, hd, hn⟩
    · exact ⟨pre, by simp, hr, hd, hn⟩

theorem StopsAt.unique {d' : List Str} {c' : Str} {post post' : List Str}
    (hs : h.StopsAt ns d c post) (hs' : h.StopsAt ns d' c' post') :
    d = d' ∧ c = c' ∧ post = post' := by
  induction ns using List.reverseRecOn generalizing post post' with
  | nil =>
    obtain ⟨pre, heq, -⟩ := hs
    simp at heq
  | append_singleton ns x ih =>
    rcases stopsAt_concat_iff.mp hs with ⟨rfl, rfl, hr, -⟩ | ⟨q, rfl, hq⟩
    · rcases stopsAt_concat_iff.mp hs' with ⟨rfl, rfl, hr', -⟩ | ⟨q', -, hq'⟩
      · exact ⟨Except.ok.inj (hr.symm.trans hr'), rfl, rfl⟩
      · rw [hq'.resolve_eq] at hr; cases hr
    · rcases stopsAt_concat_iff.mp hs' with ⟨-, -, hr', -⟩ | ⟨q', rfl, hq'⟩
      · rw [hq.resolve_eq] at hr'; cases hr'
      · obtain ⟨hd, hc, hp⟩ := ih hq hq'
        exact ⟨hd, hc, by rw [hp]⟩

/-- Directories, one in the other, from `d` down. Each is put into the one before it, so only the first has to have a
    place. -/
def putDirs (h : Host) (d : List Str) : List Str → Host
  | [] => h
  | c :: cs => (h.put d c .dir).putDirs (d ++ [c]) cs

theorem putDirs_concat (h : Host) (d cs : List Str) (c : Str) :
    h.putDirs d (cs ++ [c]) = (h.putDirs d cs).put (d ++ cs) c .dir := by
  induction cs generalizing h d with
  | nil => rw [List.nil_append, List.append_nil]; rfl
  | cons x xs ih =>
    rw [List.cons_append, putDirs, ih, putDirs, List.append_assoc]
    rfl

theorem node_putDirs (hd : h.node d = some .dir) (hn : h.node (d ++ [c]) = none) (post q : List Str) :
    (h.putDirs d (c :: post)).node q =
      if d ++ [c] <+: q ∧ q <+: d ++ c :: post then some .dir else h.node q := by
  induction post using List.reverseRecOn generalizing q with
  | nil =>
    rw [putDirs, putDirs, node_put hd (by rw [hn]; exact fun hf => by cases hf)]
    refine if_congr ⟨?_, ?_⟩ rfl rfl
    · rintro rfl
      exact ⟨List.prefix_refl _, List.prefix_refl _⟩
    · exact fun ⟨hle, hge⟩ => hge.eq_of_length_le hle.length_le
  | append_singleton post x ih =>
    have hnone : h.node (d ++ c :: post ++ [x]) = none := by
      rw [show d ++ c :: post ++ [x] = d ++ [c] ++ (post ++ [x]) by simp]
      exact h.node_below (by rw [hn]; exact fun hf => by cases hf) (by simp)
    have hdir : (h.putDirs d (c :: post)).node (d ++ c :: post) = some .dir := by
      rw [ih, if_pos ⟨⟨post, by simp⟩, List.prefix_refl _⟩]
    have hfree : (h.putDirs d (c :: post)).node (d ++ c :: post ++ [x]) ≠ some .dir := by
      rw [ih, if_neg fun hle => by simpa using hle.2.length_le, hnone]
      exact fun hf => by cases hf
    rw [← List.cons_append, putDirs_concat, node_put hdir hfree, ih, ← List.append_assoc]
    by_cases hq : q = d ++ c :: post ++ [x]
    · rw [if_pos hq, if_pos ⟨hq ▸ ⟨post ++ [x], by simp⟩, hq ▸ List.prefix_refl _⟩]
    · rw [if_neg hq]
      refine if_congr (and_congr_right fun _ => ?_) rfl rfl
      rw [List.prefix_concat_iff]
      exact ⟨Or.inr, fun hor => hor.resolve_left hq⟩

/-- Making what is missing leaves what is there. It is the premise that `walk_of_extends` asks for. -/
theorem putDirs_extends (hd : h.node d = some .dir) (hn : h.node (d ++ [c]) = none)
    (post : List Str) {q : List Str} {n : Inode} (hq : h.node q = some n) :
    (h.putDirs d (c :: post)).node q = some n := by
  rw [node_putDirs hd hn, if_neg, hq]
  rintro ⟨⟨r, rfl⟩, -⟩
  -- what is there is not below a name that is missing
  cases r with
  | nil => rw [List.append_nil, hn] at hq; cases hq
  | cons x xs =>
    rw [h.node_below (by rw [hn]; exact fun hf => by cases hf) (by simp)] at hq
    cases hq

/-! ## Making directories -/

theorem hasNul_of_append {xs ys : List Str} {t t' : Tail}
    (hnul : HostPath.hasNul ⟨xs ++ ys, t⟩ = false) : HostPath.hasNul ⟨xs, t'⟩ = false := by
  rw [HostPath.hasNul, List.any_append, Bool.or_eq_false_iff] at hnul
  exact hnul.1

/-- A failing `mkdir` has done nothing, so what comes before it in `createDirAll` is all that a failure leaves
    behind. -/
theorem mkdir_error {q : HostPath} {e : Errno} {h' : Host} (hm : mkdir q h = (.error e, h')) :
    h' = h := by
  unfold mkdir at hm
  revert hm
  cases h.locate q with
  | error e => exact fun hm => (Prod.mk.inj hm).2.symm
  | ok found =>
    cases found with
    | none => exact fun hm => (Prod.mk.inj hm).2.symm
    | some entry =>
      dsimp only
      split
      · exact fun hm => by cases (Prod.mk.inj hm).1
      · exact fun hm => (Prod.mk.inj hm).2.symm

section Mkdir

variable (hnul : HostPath.hasNul ⟨ns ++ [c], tail⟩ = false)
include hnul

theorem mkdir_of_error {e : Errno} (hr : h.resolve (ns.map .name) = .error e) :
    mkdir ⟨ns ++ [c], tail⟩ h = (.error e, h) := by
  rw [mkdir, locate_of_error hnul hr]

theorem mkdir_of_not_dir (hr : h.resolve (ns.map .name) = .ok d) (hn : h.node d ≠ some .dir) :
    mkdir ⟨ns ++ [c], tail⟩ h = (.error .notDirectory, h) := by
  rw [mkdir, locate_of_not_dir hnul hr hn]

variable (ht : tail ≠ .dot) (hr : h.resolve (ns.map .name) = .ok d) (hd : h.node d = some .dir)
include ht hr hd

theorem mkdir_of_missing (hn : h.node (d ++ [c]) = none) :
    mkdir ⟨ns ++ [c], tail⟩ h = (.ok (), h.put d c .dir) := by
  rw [mkdir, locate_of_dir hnul ht hr hd]
  simp only [hn, if_true]

theorem mkdir_of_existing {n : Inode} (hn : h.node (d ++ [c]) = some n) :
    mkdir ⟨ns ++ [c], tail⟩ h = (.error .fileExists, h) := by
  rw [mkdir, locate_of_dir hnul ht hr hd]
  simp only [hn, reduceCtorEq, if_false]

end Mkdir

theorem createDirAll_of_ok {h' : Host} (hm : mkdir ⟨ns ++ [c], tail⟩ h = (.ok (), h')) :
    createDirAll ⟨ns ++ [c], tail⟩ h = (.ok (), h') := by
  have hrev : ns ++ [c] = (c :: ns.reverse).reverse := by simp
  simp only [createDirAll, List.reverse_append, List.reverse_singleton, List.singleton_append,
    createUpwards, ← hrev, hm]

theorem createDirAll_of_noEntry {h' : Host} (hm : mkdir ⟨ns ++ [c], tail⟩ h = (.error .noEntry, h')) :
    createDirAll ⟨ns ++ [c], tail⟩ h =
      (createDirAll ⟨ns, .plain⟩ >>= fun _ => ensureDir ⟨ns ++ [c], tail⟩) h' := by
  have hrev : ns ++ [c] = (c :: ns.reverse).reverse := by simp
  simp only [createDirAll, List.reverse_append, List.reverse_singleton, List.singleton_append,
    createUpwards, ← hrev, hm]

theorem createDirAll_of_error {h' : Host} {e : Errno} (he : e ≠ .noEntry)
    (hm : mkdir ⟨ns ++ [c], tail⟩ h = (.error e, h')) :
    createDirAll ⟨ns ++ [c], tail⟩ h =
      if h'.isDir ⟨ns ++ [c], tail⟩ then (.ok (), h') else (.error e, h') := by
  have hrev : ns ++ [c] = (c :: ns.reverse).reverse := by simp
  simp only [createDirAll, List.reverse_append, List.reverse_singleton, List.singleton_append,
    createUpwards, ← hrev, hm]

/-- What `createDirAll` can do: find the directory, make all of the missing ones, or fail. It is proved once, and
    results about `createDirAll` are by cases on it. -/
inductive Created (h : Host) (ns : List Str) : Except Errno Unit × Host → Prop
  | there (d : List Str) (hr : h.resolve (ns.map .name) = .ok d) (hd : h.node d = some .dir) :
      Created h ns (.ok (), h)
  | made (d : List Str) (c : Str) (post : List Str) (hs : h.StopsAt ns d c post) :
      Created h ns (.ok (), h.putDirs d (c :: post))
  | failed (e : Errno) (hdir : ∀ d, h.resolve (ns.map .name) = .ok d → h.node d ≠ some .dir)
      (hs : ∀ d c post, ¬ h.StopsAt ns d c post) : Created h ns (.error e, h)

/-- After the missing directories are made, the path leads to the last of them. -/
theorem StopsAt.resolve_putDirs {post : List Str} (hs : h.StopsAt ns d c post) :
    (h.putDirs d (c :: post)).resolve (ns.map .name) = .ok (d ++ c :: post) ∧
      (h.putDirs d (c :: post)).node (d ++ c :: post) = some .dir := by
  obtain ⟨pre, rfl, hr, hd, hn⟩ := hs
  have hdir : (h.putDirs d (c :: post)).node (d ++ c :: post) = some .dir := by
    rw [node_putDirs hd hn, if_pos ⟨⟨post, by simp⟩, List.prefix_refl _⟩]
  refine ⟨?_, hdir⟩
  rw [List.map_append]
  exact resolve_append_real (resolve_of_extends (fun _ _ => putDirs_extends hd hn post) hr) hdir rfl

/-- The last step of making a path whose directory had to be made. -/
theorem StopsAt.ensureDir {x : Str} {post : List Str} (hs : h.StopsAt ns d c post)
    (hnul : HostPath.hasNul ⟨ns ++ [x], .plain⟩ = false) :
    Host.ensureDir ⟨ns ++ [x], .plain⟩ (h.putDirs d (c :: post)) =
      (.ok (), h.putDirs d (c :: (post ++ [x]))) := by
  obtain ⟨hr, hdir⟩ := hs.resolve_putDirs
  obtain ⟨-, -, -, hd, hn⟩ := hs
  have hnone : (h.putDirs d (c :: post)).node (d ++ c :: post ++ [x]) = none := by
    rw [node_putDirs hd hn, if_neg fun hle => by simpa using hle.2.length_le,
      show d ++ c :: post ++ [x] = d ++ [c] ++ (post ++ [x]) by simp]
    exact h.node_below (by rw [hn]; exact fun hf => by cases hf) (by simp)
  rw [Host.ensureDir, mkdir_of_missing hnul (by decide) hr hdir hnone, ← List.cons_append,
    putDirs_concat]

/-- Where nothing is missing, it is there or something is in the way. -/
theorem Created.of_isDir (hnul : HostPath.hasNul ⟨ns, .plain⟩ = false)
    (hs : ∀ d c post, ¬ h.StopsAt ns d c post) (e : Errno) :
    h.Created ns (if h.isDir ⟨ns, .plain⟩ then (.ok (), h) else (.error e, h)) := by
  split
  case isTrue ht =>
    obtain ⟨d, hd, hdir⟩ := isDir_iff.mp ht
    exact .there d (canonicalize_plain hnul ▸ hd) hdir
  case isFalse hf =>
    refine .failed e (fun d hr hdir => hf (isDir_iff.mpr ⟨d, ?_, hdir⟩)) hs
    rw [canonicalize_plain hnul, hr]

theorem createDirAll_created (hnul : HostPath.hasNul ⟨ns, .plain⟩ = false) :
    h.Created ns (createDirAll ⟨ns, .plain⟩ h) := by
  induction ns using List.reverseRecOn with
  | nil =>
    have hrun : createDirAll ⟨[], .plain⟩ h = (.ok (), h) := by
      have hroot : h.isDir ⟨[], .plain⟩ = true :=
        isDir_iff.mpr ⟨[], (canonicalize_plain hnul).trans (resolve_real h.root rfl), h.root⟩
      simp only [createDirAll, List.reverse_nil, createUpwards, ensureDir, mkdir, locate, hnul,
        Bool.false_eq_true, if_false, List.getLast?_nil, hroot, if_true]
    rw [hrun]
    exact .there [] (resolve_real h.root rfl) h.root
  | append_singleton ns x ih =>
    cases hr : h.resolve (ns.map .name) with
    | error e =>
      -- where the walk stops is in the part of the path before its last name
      have hearlier : ∀ d c post, h.StopsAt (ns ++ [x]) d c post →
          ∃ post', post = post' ++ [x] ∧ h.StopsAt ns d c post' := by
        intro d c post hst
        rcases stopsAt_concat_iff.mp hst with ⟨-, -, hok, -⟩ | hlater
        · rw [hr] at hok; cases hok
        · exact hlater
      by_cases he : e = .noEntry
      · rw [createDirAll_of_noEntry (he ▸ mkdir_of_error hnul hr)]
        generalize hrun : createDirAll ⟨ns, .plain⟩ h = out at ih
        cases ih (hasNul_of_append hnul) with
        | there d hr' => rw [hr] at hr'; cases hr'
        | made d c post hs =>
          rw [Op.run_bind_ok hrun, hs.ensureDir hnul]
          exact .made d c (post ++ [x]) (stopsAt_concat_iff.mpr (Or.inr ⟨post, rfl, hs⟩))
        | failed e' _ hs =>
          rw [Op.run_bind_error hrun]
          refine .failed e' (fun d hd => ?_) fun d c post hst => ?_
          · rw [List.map_append, resolve_append_error hr] at hd
            cases hd
          · obtain ⟨post', -, hs'⟩ := hearlier d c post hst
            exact hs d c post' hs'
      · rw [createDirAll_of_error he (mkdir_of_error hnul hr)]
        refine .of_isDir hnul (fun d c post hst => ?_) e
        obtain ⟨post', -, hs'⟩ := hearlier d c post hst
        rw [hs'.resolve_eq] at hr
        exact he (Except.error.inj hr).symm
    | ok d =>
      have hlast : ∀ d' c post, h.StopsAt (ns ++ [x]) d' c post →
          h.node d = some .dir ∧ h.node (d ++ [x]) = none := by
        intro d' c post hst
        rcases stopsAt_concat_iff.mp hst with ⟨-, rfl, hr', hd, hn⟩ | ⟨post', -, hs'⟩
        · obtain rfl := Except.ok.inj (hr.symm.trans hr')
          exact ⟨hd, hn⟩
        · rw [hs'.resolve_eq] at hr; cases hr
      by_cases hd : h.node d = some .dir
      · cases hn : h.node (d ++ [x]) with
        | none =>
          rw [createDirAll_of_ok (mkdir_of_missing hnul (by decide) hr hd hn)]
          exact .made d x [] (stopsAt_concat_iff.mpr (Or.inl ⟨rfl, rfl, hr, hd, hn⟩))
        | some n =>
          rw [createDirAll_of_error (by decide) (mkdir_of_existing hnul (by decide) hr hd hn)]
          refine .of_isDir hnul (fun d' c post hst => ?_) _
          rw [(hlast d' c post hst).2] at hn
          cases hn
      · rw [createDirAll_of_error (by decide) (mkdir_of_not_dir hnul hr hd)]
        exact .of_isDir hnul (fun d' c post hst => hd (hlast d' c post hst).1) _

/-- A path with a NUL in it is refused before anything is done, also when the NUL is in a later name than the first
    one that is missing. -/
theorem createDirAll_of_nul {q : HostPath} (hnul : q.hasNul = true) :
    createDirAll q h = (.error .nul, h) := by
  obtain ⟨ns, tail⟩ := q
  have hmk : mkdir ⟨ns, tail⟩ h = (.error .nul, h) := by
    rw [mkdir, locate, if_pos hnul]
  have hdir : h.isDir ⟨ns, tail⟩ = false := by
    rw [isDir, canonicalize, if_pos hnul]
  induction ns using List.reverseRecOn with
  | nil => cases hnul
  | append_singleton ns c _ =>
    rw [createDirAll_of_error (by decide) hmk, if_neg (by rw [hdir]; exact Bool.false_ne_true)]

/-! ## Entries of directories -/

theorem openEntry_of_dir (hr : h.resolve (ns.map .name) = .ok d) (hd : h.node d = some .dir)
    (hl : ∀ n, h.node (d ++ [c]) = some n → n.isLink = false) :
    h.openEntry (maxLinks + 1) maxLinks [] (HostPath.components ⟨ns ++ [c], .plain⟩) = .ok (d, c) := by
  obtain ⟨m, hm⟩ := resolve_eq_ok_iff.mp hr
  simp only [HostPath.components, if_true, List.append_nil, List.map_append, List.map_cons,
    List.map_nil, openEntry, List.getLast?_concat, List.dropLast_concat, hm, hd, ne_eq,
    not_true_eq_false, if_false]
  cases hn : h.node (d ++ [c]) with
  | none => rfl
  | some n =>
    cases n with
    | link target => cases hl _ hn
    | file data => rfl
    | dir => rfl

section Entry

variable (hnul : HostPath.hasNul ⟨ns ++ [c], .plain⟩ = false) (hr : h.resolve (ns.map .name) = .ok d)
  (hd : h.node d = some .dir)
include hnul hr hd

theorem writeFile_of_dir (data : Bytes) (hn : h.node (d ++ [c]) = some .dir) :
    writeFile ⟨ns ++ [c], .plain⟩ data h = (.error .isDirectory, h) := by
  have ho := openEntry_of_dir hr hd fun n hn' => by rw [hn] at hn'; cases hn'; rfl
  simp only [writeFile, hnul, Bool.false_eq_true, if_false, ho, hn, if_true]

theorem writeFile_of_not_dir (data : Bytes) (hn : h.node (d ++ [c]) ≠ some .dir)
    (hl : ∀ n, h.node (d ++ [c]) = some n → n.isLink = false) :
    writeFile ⟨ns ++ [c], .plain⟩ data h = (.ok (), h.put d c (.file data)) := by
  simp only [writeFile, hnul, Bool.false_eq_true, if_false, openEntry_of_dir hr hd hl, hn]

theorem removeFile_of_file {data : Bytes} (hn : h.node (d ++ [c]) = some (.file data)) :
    removeFile ⟨ns ++ [c], .plain⟩ h = (.ok (), h.prune (d ++ [c])) := by
  simp only [removeFile, locate_of_dir hnul (by decide) hr hd, hn, if_true]

theorem removeDirAll_of_dir (hn : h.node (d ++ [c]) = some .dir) :
    removeDirAll ⟨ns ++ [c], .plain⟩ h = (.ok (), h.prune (d ++ [c])) := by
  simp only [removeDirAll, locate_of_dir hnul (by decide) hr hd, hn]

end Entry

section Rename

variable {ss st : List Str} {cs ct : Str} {source target : HostPath}
  (hls : h.locate source = .ok (some (ss, cs))) (hlt : h.locate target = .ok (some (st, ct)))
  (hps : source.tail = .plain) (hpt : target.tail = .plain)
  (hn : h.node (ss ++ [cs]) = some n)
include hls hlt hps hpt hn

theorem rename_self (heq : ss ++ [cs] = st ++ [ct]) : rename source target h = (.ok (), h) := by
  simp only [rename, hls, hlt, hn, hps, hpt, ne_eq, not_true_eq_false, or_self, and_false, if_false,
    if_pos heq]

theorem rename_below (hne : ss ++ [cs] ≠ st ++ [ct]) (hle : ss ++ [cs] <+: st ++ [ct]) :
    rename source target h = (.error .invalid, h) := by
  simp only [rename, hls, hlt, hn, hps, hpt, ne_eq, not_true_eq_false, or_self, and_false, if_false,
    if_neg hne, if_pos (List.isPrefixOf_iff_prefix.mpr hle)]

theorem rename_above (hne : ss ++ [cs] ≠ st ++ [ct]) (hle : st ++ [ct] <+: ss ++ [cs]) :
    rename source target h = (.error .notEmpty, h) := by
  have hnot : ¬ (ss ++ [cs]).isPrefixOf (st ++ [ct]) = true := fun hge =>
    hne (hle.eq_of_length_le (List.isPrefixOf_iff_prefix.mp hge).length_le).symm
  simp only [rename, hls, hlt, hn, hps, hpt, ne_eq, not_true_eq_false, or_self, and_false, if_false,
    if_neg hne, if_neg hnot, if_pos (List.isPrefixOf_iff_prefix.mpr hle)]

variable (hap : Apart (ss ++ [cs]) (st ++ [ct]))
include hap

theorem rename_displaces {res : Except Errno Unit} (hdis : h.displaces n (st ++ [ct]) = res) :
    rename source target h = (res, if res = .ok () then h.relocate (ss ++ [cs]) st ct else h) := by
  have hne : ss ++ [cs] ≠ st ++ [ct] := fun heq => hap.1 (heq ▸ List.prefix_refl _)
  have h1 : ¬ (ss ++ [cs]).isPrefixOf (st ++ [ct]) = true := fun hle =>
    hap.1 (List.isPrefixOf_iff_prefix.mp hle)
  have h2 : ¬ (st ++ [ct]).isPrefixOf (ss ++ [cs]) = true := fun hle =>
    hap.2 (List.isPrefixOf_iff_prefix.mp hle)
  simp only [rename, hls, hlt, hn, hps, hpt, ne_eq, not_true_eq_false, or_self, and_false, if_false,
    if_neg hne, if_neg h1, if_neg h2, hdis]
  cases res with
  | error e => simp
  | ok u => simp

end Rename

end Host

end Afos.Lib
