import Afos.Desktop
import Afos.Lib.Confined
import Afos.Proof.StorageCalls

/-!
# What desktop storage can reach

A storage call of the desktop platform on any host, with links anywhere. `existing` gives out only
real paths inside the root, so reading, listing and removing stay there. `writable` decides by where
the directory of the path leads; but it has *made* that directory before it looks. If the walk to it
leaves the root through a link and then stops at a missing name, the missing directories are made
outside, and the refusal comes after (`Strays`). Nothing else gets out: the theorem at the end is
that a call touches only what is at or below the root, and answers only with what is there, exactly
if it does not stray.
-/

set_option autoImplicit false

namespace Afos

open Lib

namespace DesktopPlatform

variable {α : Type} {P P' : DesktopPlatform} {relative : Str} {path : HostPath}

@[simp] theorem run_onHost (x : Op Errno Host α) (P : DesktopPlatform) :
    onHost x P = ((x P.host).1.mapError ioError, { P with host := (x P.host).2 }) := by
  rw [onHost, Op.run_zoom, Op.mapError]
  cases x P.host with
  | mk r h =>
    cases r with
    | ok a => rfl
    | error e => rfl

/-! ## Paths of things that are there -/

/-- The real path that a relative path leads to. -/
def LeadsTo (P : DesktopPlatform) (relative : Str) (p : List Str) : Prop :=
  ∃ path, P.joined relative = .ok path ∧ P.host.canonicalize path = .ok p

/-- `existing` gives out real paths of what is there, inside the root. A real path has no link on its way, so what is
    done with it is done there, as long as nobody changes the host in between. -/
theorem existing_ok {p : List Str} (h : P.existing relative = .ok p) :
    P.LeadsTo relative p ∧ P.root <+: p ∧ ∃ n, P.host.node p = some n ∧ n.isLink = false := by
  unfold existing at h
  cases hj : P.joined relative with
  | error e => rw [hj] at h; cases h
  | ok path =>
    simp only [hj, bind, Except.bind] at h
    cases hc : P.host.canonicalize path with
    | error e => rw [hc] at h; cases e <;> cases h
    | ok q =>
      simp only [hc] at h
      split at h
      case isFalse => cases h
      case isTrue hpre =>
        obtain rfl := Except.ok.inj h
        refine ⟨⟨path, hj, hc⟩, List.isPrefixOf_iff_prefix.mp hpre, ?_⟩
        rw [Host.canonicalize] at hc
        split at hc
        · cases hc
        · exact Host.node_of_resolve hc

/-- Asking for the real path of something by its real path. -/
theorem canonicalize_real {h : Host} {p q : List Str} {n : Inode} (hn : h.node p = some n)
    (hl : n.isLink = false) (hc : h.canonicalize ⟨p, .plain⟩ = .ok q) : q = p := by
  cases hnul : HostPath.hasNul ⟨p, .plain⟩ with
  | true => rw [Host.canonicalize, if_pos hnul] at hc; cases hc
  | false =>
    rw [Host.canonicalize_plain hnul, Host.resolve_real hn hl] at hc
    exact (Except.ok.inj hc).symm

/-! ## Paths of things to be made -/

/-- Making the directories above a path starts with `c` in `d`: the walk along the names gets to the real path `d`, in
    which the next name is missing. The names after it are `post`. -/
def Grows (P : DesktopPlatform) (relative : Str) (d : List Str) (c : Str) (post : List Str) : Prop :=
  ∃ path, P.joined relative = .ok path ∧
    HostPath.hasNul ⟨path.names.dropLast, .plain⟩ = false ∧
    P.host.StopsAt path.names.dropLast d c post

/-- What `writable` leaves behind: the directories it had to make, if any. It leaves them also when it then refuses the
    path. -/
inductive Settled (P : DesktopPlatform) (relative : Str) : DesktopPlatform → Prop
  | same (hno : ∀ d c post, ¬ P.Grows relative d c post) : Settled P relative P
  | grown (d : List Str) (c : Str) (post : List Str) (hg : P.Grows relative d c post) :
      Settled P relative { P with host := P.host.putDirs d (c :: post) }

/-- What `writable` vouches for: the path is that of an entry of a directory inside the root, and
    it is not the path of a link. -/
structure Vouched (P : DesktopPlatform) (path : HostPath) (ns d : List Str) (c : Str) : Prop where
  names : path.names = ns ++ [c]
  leads : P.host.resolve (ns.map .name) = .ok d
  dir : P.host.node d = some .dir
  inside : P.root <+: d
  notLink : path.hasNul = false → path.tail = .plain →
    ∀ n, P.host.node (d ++ [c]) = some n → n.isLink = false

theorem isSymlink_of_link {h : Host} {ns d : List Str} {c : Str} {n : Inode}
    (hnul : HostPath.hasNul ⟨ns ++ [c], .plain⟩ = false) (hr : h.resolve (ns.map .name) = .ok d)
    (hd : h.node d = some .dir) (hn : h.node (d ++ [c]) = some n) :
    isSymlink h ⟨ns ++ [c], .plain⟩ = n.isLink := by
  have hstat : h.lstat ⟨ns ++ [c], .plain⟩ = .ok n := by
    simp only [Host.lstat, Host.locate_of_dir hnul (by decide) hr hd, hn]
  rw [isSymlink, hstat]

/-- The checks that `writable` makes once the directory is there: where it leads to, and that the entry is no link. -/
theorem checkTarget_ok {ns : List Str} {c : Str} {q : HostPath} (hns : path.names = ns ++ [c])
    (hdir : ∀ d, P.host.resolve (ns.map .name) = .ok d → P.host.node d = some .dir)
    (hok : P.checkTarget path ⟨ns, .plain⟩ = .ok q) : q = path ∧ ∃ d, P.Vouched path ns d c := by
  unfold checkTarget at hok
  cases hc : P.host.canonicalize ⟨ns, .plain⟩ with
  | error e => rw [hc] at hok; cases hok
  | ok d =>
    simp only [hc, bind, Except.bind, Except.mapError, Bool.not_eq_true'] at hok
    split at hok
    case isTrue => cases hok
    case isFalse hpre =>
      split at hok
      case isTrue => cases hok
      case isFalse hlink =>
        have hr : P.host.resolve (ns.map .name) = .ok d := by
          cases hnul : HostPath.hasNul ⟨ns, .plain⟩ with
          | true => rw [Host.canonicalize, if_pos hnul] at hc; cases hc
          | false => rw [← Host.canonicalize_plain hnul, hc]
        refine ⟨(Except.ok.inj hok).symm, d, hns, hr, hdir d hr, ?_, fun hnul ht n hn => ?_⟩
        · exact List.isPrefixOf_iff_prefix.mp (Bool.of_not_eq_false hpre)
        · obtain ⟨names, tail⟩ := path
          obtain rfl : names = ns ++ [c] := hns
          obtain rfl : tail = .plain := ht
          rw [isSymlink_of_link hnul hr (hdir d hr) hn] at hlink
          exact Bool.eq_false_iff.mpr hlink

section Writable

variable {ns : List Str} {c : Str} {h : Host}

/-- `writable`, on the path of an entry, as far as the directories are made. -/
theorem writable_eq (hj : P.joined relative = .ok path) (hns : path.names = ns ++ [c]) :
    writable relative P =
      (onHost (Host.createDirAll ⟨ns, .plain⟩) >>= fun _ => Op.read >>= fun P' =>
        Op.ofExcept (P'.checkTarget path ⟨ns, .plain⟩)) P := by
  simp only [writable]
  rw [Op.run_bind, Op.run_read]
  dsimp only
  rw [Op.run_bind, Op.run_ofExcept, hj]
  dsimp only
  rw [if_neg (by rw [hns]; simp), hns, List.dropLast_concat]

theorem writable_of_created (hj : P.joined relative = .ok path) (hns : path.names = ns ++ [c])
    (hrun : Host.createDirAll ⟨ns, .plain⟩ P.host = (.ok (), h)) :
    writable relative P =
      (checkTarget path ⟨ns, .plain⟩ { P with host := h }, { P with host := h }) := by
  have hhost : onHost (Host.createDirAll ⟨ns, .plain⟩) P = (.ok (), { P with host := h }) := by
    rw [run_onHost, hrun]
    rfl
  rw [writable_eq hj hns, Op.run_bind_ok hhost]
  rfl

theorem writable_of_failed {e : Errno} (hj : P.joined relative = .ok path)
    (hns : path.names = ns ++ [c])
    (hrun : Host.createDirAll ⟨ns, .plain⟩ P.host = (.error e, P.host)) :
    writable relative P = (.error (ioError e), P) := by
  have hhost : onHost (Host.createDirAll ⟨ns, .plain⟩) P = (.error (ioError e), P) := by
    rw [run_onHost, hrun]
    rfl
  rw [writable_eq hj hns, Op.run_bind_error hhost]

theorem grows_iff (hj : P.joined relative = .ok path) (hns : path.names = ns ++ [c])
    {d : List Str} {x : Str} {post : List Str} :
    P.Grows relative d x post ↔
      HostPath.hasNul ⟨ns, .plain⟩ = false ∧ P.host.StopsAt ns d x post := by
  constructor
  · rintro ⟨q, hq, hnul, hs⟩
    obtain rfl := Except.ok.inj (hj.symm.trans hq)
    rw [hns, List.dropLast_concat] at hnul hs
    exact ⟨hnul, hs⟩
  · rintro ⟨hnul, hs⟩
    refine ⟨path, hj, ?_, ?_⟩
    · rw [hns, List.dropLast_concat]; exact hnul
    · rw [hns, List.dropLast_concat]; exact hs

/-- What `writable` has done by the time it answers, and what its answer is worth. The cases are those in which it
    stops: no path, a path without names, a name with a NUL, and the three ways in which making the directories can
    go on the host. -/
theorem writable_settled (P : DesktopPlatform) (relative : Str) :
    P.Settled relative (writable relative P).2 ∧
      ∀ path P', writable relative P = (.ok path, P') → ∃ ns d c, P'.Vouched path ns d c := by
  cases hj : P.joined relative with
  | error e =>
    have hrun : writable relative P = (.error e, P) := by
      simp only [writable]
      rw [Op.run_bind, Op.run_read]
      dsimp only
      rw [Op.run_bind, Op.run_ofExcept, hj]
    rw [hrun]
    refine ⟨.same ?_, fun path P' h => (by cases h)⟩
    rintro d c post ⟨path, hp, -⟩
    rw [hj] at hp
    cases hp
  | ok path =>
    rcases List.eq_nil_or_concat' path.names with hnil | ⟨ns, c, hns⟩
    · have hrun : writable relative P = (.error .invalidPath, P) := by
        simp only [writable]
        rw [Op.run_bind, Op.run_read]
        dsimp only
        rw [Op.run_bind, Op.run_ofExcept, hj]
        dsimp only
        rw [if_pos hnil, Op.run_throw]
      rw [hrun]
      refine ⟨.same ?_, fun path P' h => (by cases h)⟩
      rintro d c post ⟨q, hq, -, pre, heq, -⟩
      obtain rfl := Except.ok.inj (hj.symm.trans hq)
      rw [hnil] at heq
      simp at heq
    · cases hnul : HostPath.hasNul ⟨ns, .plain⟩ with
      | true =>
        rw [writable_of_failed hj hns (Host.createDirAll_of_nul hnul)]
        refine ⟨.same fun d c post hg => ?_, fun path P' h => (by cases h)⟩
        have hno := ((grows_iff hj hns).mp hg).1
        rw [hnul] at hno
        cases hno
      | false =>
        have hcr : P.host.Created ns (Host.createDirAll ⟨ns, .plain⟩ P.host) :=
          Host.createDirAll_created hnul
        generalize hrun : Host.createDirAll ⟨ns, .plain⟩ P.host = out at hcr
        cases hcr with
        | there d hr hd =>
          -- all the directories are there already: nothing was made
          rw [writable_of_created hj hns hrun]
          refine ⟨.same fun d' x post hg => ?_, fun q P' h => ?_⟩
          · have hs := ((grows_iff hj hns).mp hg).2.resolve_eq
            rw [hr] at hs
            cases hs
          · obtain ⟨hok, rfl⟩ := Prod.mk.inj h
            obtain ⟨rfl, d', hv⟩ := checkTarget_ok hns
              (fun d' hr' => Except.ok.inj (hr.symm.trans hr') ▸ hd) hok
            exact ⟨ns, d', c, hv⟩
        | made d x post hs =>
          rw [writable_of_created hj hns hrun]
          refine ⟨.grown d x post ((grows_iff hj hns).mpr ⟨hnul, hs⟩), fun q P' h => ?_⟩
          obtain ⟨hok, rfl⟩ := Prod.mk.inj h
          obtain ⟨hr, hdir⟩ := hs.resolve_putDirs
          obtain ⟨rfl, d', hv⟩ := checkTarget_ok hns
            (fun d' hr' => Except.ok.inj (hr.symm.trans hr') ▸ hdir) hok
          exact ⟨ns, d', c, hv⟩
        | failed e hdir hs =>
          rw [writable_of_failed hj hns hrun]
          exact ⟨.same fun d' x post hg => hs d' x post ((grows_iff hj hns).mp hg).2,
            fun path P' h => (by cases h)⟩

end Writable

/-- The directories that `writable` makes are outside the root. It takes a link on the way whose target is outside, and
    a name behind it that is missing. -/
def StraysOn (P : DesktopPlatform) (relative : Str) : Prop :=
  ∃ d c post, P.Grows relative d c post ∧ ¬ P.root <+: d

theorem Settled.root (hs : P.Settled relative P') : P'.root = P.root := by
  cases hs with
  | same hno => rfl
  | grown d c post hg => rfl

/-- Making directories leaves everything outside as it was, unless it strays; and if it strays, something outside has
    changed, since the first directory it makes was not there. -/
theorem Settled.within_iff (hs : P.Settled relative P') (hroot : P.host.node P.root = some .dir) :
    Host.Within P.root P.host P'.host ↔ ¬ P.StraysOn relative := by
  cases hs with
  | same hno => exact ⟨fun _ ⟨d, c, post, hg, _⟩ => hno d c post hg, fun _ => Host.Within.refl _ _⟩
  | grown d c post hg =>
    have hg' := hg
    obtain ⟨path, hj, hnul, hs⟩ := hg
    have hs' := hs
    obtain ⟨-, -, -, hd, hn⟩ := hs
    constructor
    · rintro hin ⟨d', c', post', ⟨path', hj', -, hst⟩, hout⟩
      obtain rfl := Except.ok.inj (hj.symm.trans hj')
      obtain ⟨rfl, rfl, rfl⟩ := hs'.unique hst
      -- the first directory made is outside: it was not there, and the root is
      have hp : ¬ P.root <+: d ++ [c] := by
        intro hle
        rcases List.prefix_concat_iff.mp hle with heq | hle
        · rw [heq, hn] at hroot
          cases hroot
        · exact hout hle
      have hnew := hin (d ++ [c]) hp
      rw [hn, Host.node_putDirs hd hn, if_pos ⟨List.prefix_refl _, ⟨post, by simp⟩⟩] at hnew
      cases hnew
    · intro hno
      refine Host.within_putDirs (not_not.mp fun hout => ?_) hd hn post
      exact hno ⟨d, c, post, hg', hout⟩

/-! ## What is done with such paths -/

namespace Vouched

variable {ns d : List Str} {c : Str}

theorem locate (hv : P.Vouched path ns d c) {d' : List Str} {x : Str}
    (hl : P.host.locate path = .ok (some (d', x))) : P.root <+: d' := by
  obtain ⟨names, tail⟩ := path
  obtain rfl : names = ns ++ [c] := hv.names
  have hr := (Host.resolve_of_locate hl).1
  rw [hv.leads] at hr
  exact Except.ok.inj hr ▸ hv.inside

/-- What `writable` vouches for is not opened through a link: the last name is not one, and the ones before it have
    been resolved. -/
theorem openEntry (hv : P.Vouched path ns d c) (hnul : path.hasNul = false) {d' : List Str} {x : Str}
    (ho : P.host.openEntry (maxLinks + 1) maxLinks [] path.components = .ok (d', x)) :
    d' = d ∧ x = c := by
  obtain ⟨names, tail⟩ := path
  obtain rfl : names = ns ++ [c] := hv.names
  by_cases ht : tail = .plain
  · subst ht
    rw [Host.openEntry_of_dir hv.leads hv.dir (hv.notLink hnul rfl)] at ho
    cases ho
    exact ⟨rfl, rfl⟩
  · -- a path that ends in a slash or in a dot opens nothing
    simp only [HostPath.components, if_neg ht, Host.openEntry, List.getLast?_concat] at ho
    cases ho

theorem writeFile_within (hv : P.Vouched path ns d c) (data : Bytes) :
    Host.Within P.root P.host (Host.writeFile path data P.host).2 := by
  cases hnul : path.hasNul with
  | true =>
    rw [Host.writeFile, if_pos hnul]
    exact Host.Within.refl _ _
  | false =>
    refine Host.writeFile_within fun d' x ho => ?_
    rw [(hv.openEntry hnul ho).1]
    exact hv.inside

theorem createDirAll_within (hv : P.Vouched path ns d c) :
    Host.Within P.root P.host (Host.createDirAll path P.host).2 := by
  obtain ⟨names, tail⟩ := path
  obtain rfl : names = ns ++ [c] := hv.names
  exact Host.createDirAll_within hv.leads hv.dir hv.inside tail

theorem rename_within (hv : P.Vouched path ns d c) {p : List Str} {n : Inode}
    (hin : P.root <+: p) (hn : P.host.node p = some n) :
    Host.Within P.root P.host (Host.rename ⟨p, .plain⟩ path P.host).2 := by
  refine Host.rename_within (fun d' x hl => ?_) fun d' x hl => hv.locate hl
  rw [Host.locate_real hn hl]
  exact hin

end Vouched

/-- A call that asks for a writable path and then does something inside changes what is outside just if the asking did.
    Writing a file and making directories are both of this form. -/
theorem writable_bind_within_iff (hroot : P.host.node P.root = some .dir)
    {act : HostPath → Op Errno Host Unit}
    (hact : ∀ path P' ns d c, P.Settled relative P' → P'.Vouched path ns d c →
      Host.Within P'.root P'.host (act path P'.host).2) :
    Host.Within P.root P.host ((writable relative >>= fun path => onHost (act path)) P).2.host ↔
      ¬ P.StraysOn relative := by
  obtain ⟨hs, hok⟩ := writable_settled P relative
  cases hw : writable relative P with
  | mk res P' =>
    rw [hw] at hs
    cases res with
    | error e =>
      rw [Op.run_bind_error hw]
      exact hs.within_iff hroot
    | ok path =>
      obtain ⟨ns, d, c, hv⟩ := hok path P' hw
      rw [Op.run_bind_ok hw, run_onHost, ← hs.within_iff hroot]
      have hin := hact path P' ns d c hs hv
      rw [hs.root] at hin
      exact hin.trans_iff

theorem storageWrite_within_iff (hroot : P.host.node P.root = some .dir) (data : Bytes) :
    Host.Within P.root P.host (storageWrite relative data P).2.host ↔ ¬ P.StraysOn relative :=
  writable_bind_within_iff hroot fun _ _ _ _ _ _ hv => hv.writeFile_within data

theorem storageCreateDirAll_within_iff (hroot : P.host.node P.root = some .dir) :
    Host.Within P.root P.host (storageCreateDirAll relative P).2.host ↔ ¬ P.StraysOn relative :=
  writable_bind_within_iff hroot fun _ _ _ _ _ _ hv => hv.createDirAll_within

/-- What is there is still there after directories have been made. -/
theorem Settled.extends (hs : P.Settled relative P') {p : List Str} {n : Inode}
    (hn : P.host.node p = some n) : P'.host.node p = some n := by
  cases hs with
  | same hno => exact hn
  | grown d c post hg =>
    obtain ⟨-, -, -, -, -, -, hd, hfree⟩ := hg
    exact Host.putDirs_extends hd hfree post hn

theorem storageRename_within_iff (hroot : P.host.node P.root = some .dir) (source target : Str) :
    Host.Within P.root P.host (storageRename source target P).2.host ↔
      ¬ ((∃ p, P.existing source = .ok p) ∧ P.StraysOn target) := by
  cases he : P.existing source with
  | error e =>
    have hrun : storageRename source target P = (.error e, P) := by
      simp only [storageRename]
      rw [Op.run_bind, Op.run_read]
      dsimp only
      rw [Op.run_bind, Op.run_ofExcept, he]
    rw [hrun]
    exact ⟨fun _ h => (by obtain ⟨⟨p, hp⟩, -⟩ := h; cases hp), fun _ => Host.Within.refl _ _⟩
  | ok p =>
    obtain ⟨-, hin, n, hn, -⟩ := existing_ok he
    have hrun : storageRename source target P =
        (writable target >>= fun path => onHost (Host.rename ⟨p, .plain⟩ path)) P := by
      simp only [storageRename]
      rw [Op.run_bind, Op.run_read]
      dsimp only
      rw [Op.run_bind, Op.run_ofExcept, he]
    rw [hrun, writable_bind_within_iff hroot fun path P' ns d c hs hv =>
      hv.rename_within (hs.root ▸ hin) (hs.extends hn)]
    exact not_congr ⟨fun hst => ⟨⟨p, rfl⟩, hst⟩, fun hst => hst.2⟩

theorem storageRemove_within (P : DesktopPlatform) (relative : Str) :
    Host.Within P.root P.host (storageRemove relative P).2.host := by
  simp only [storageRemove]
  rw [Op.run_bind, Op.run_read]
  dsimp only
  rw [Op.run_bind, Op.run_ofExcept]
  cases he : P.existing relative with
  | error e => exact Host.Within.refl _ _
  | ok p =>
    obtain ⟨-, hin, n, hn, hl⟩ := existing_ok he
    have hentry : ∀ d c, P.host.locate ⟨p, .plain⟩ = .ok (some (d, c)) → P.root <+: d ++ [c] :=
      fun d c hloc => Host.locate_real hn hloc ▸ hin
    dsimp only
    split
    · rw [run_onHost]
      refine Host.removeDirAll_within hentry fun _ => ⟨p, ?_, hin⟩
      rw [HostPath.components, if_pos rfl, List.append_nil]
      exact Host.resolve_real hn hl
    · rw [run_onHost]
      exact Host.removeFile_within hentry

/-! ## Answers -/

/-- What is read is a file inside the root: the one that the path leads to. -/
theorem storageRead_ok {data : Bytes} (h : (storageRead relative P).1 = .ok data) :
    ∃ p, P.LeadsTo relative p ∧ P.root <+: p ∧ P.host.node p = some (.file data) := by
  simp only [storageRead] at h
  rw [Op.run_bind, Op.run_read] at h
  dsimp only at h
  rw [Op.run_bind, Op.run_ofExcept] at h
  cases he : P.existing relative with
  | error e => rw [he] at h; cases h
  | ok p =>
    obtain ⟨hleads, hin, n, hn, hl⟩ := existing_ok he
    simp only [he, askHost, Host.readFile] at h
    refine ⟨p, hleads, hin, ?_⟩
    cases hc : P.host.canonicalize ⟨p, .plain⟩ with
    | error e => rw [hc] at h; cases h
    | ok q =>
      obtain rfl := canonicalize_real hn hl hc
      simp only [hc, hn] at h
      cases n with
      | file bytes => rw [hn, ← Except.ok.inj h]
      | dir => cases h
      | link target => cases hl

variable [DirectoryLength]

/-- What is listed are the entries of a directory inside the root: the one that the path leads
    to. -/
theorem storageList_ok {entries : List StorageEntry} (h : (storageList relative P).1 = .ok entries) :
    ∃ d, P.LeadsTo relative d ∧ P.root <+: d ∧ P.host.node d = some .dir ∧
      ∀ e ∈ entries, ∃ n, P.host.node (d ++ [e.name]) = some n ∧
        e = storageEntry P.host d (e.name, n) := by
  simp only [storageList] at h
  rw [Op.run_bind, Op.run_read] at h
  dsimp only at h
  rw [Op.run_bind, Op.run_ofExcept] at h
  cases he : P.existing relative with
  | error e => rw [he] at h; cases h
  | ok p =>
    obtain ⟨hleads, hin, n, hn, hl⟩ := existing_ok he
    simp only [he] at h
    split at h
    case isTrue => cases h
    case isFalse hdir =>
      rw [Bool.not_eq_true', Bool.not_eq_false] at hdir
      obtain ⟨q, hc, hd⟩ := Host.isDir_iff.mp hdir
      obtain rfl := canonicalize_real hn hl hc
      simp only [Op.run_bind, askHost, Host.readDir, hc, hd, ne_eq, not_true_eq_false, if_false,
        Except.mapError, Op.run_pure, Except.ok.injEq] at h
      refine ⟨q, hleads, hin, hd, fun e hmem => ?_⟩
      rw [← h, List.mem_mergeSort, List.mem_map] at hmem
      obtain ⟨⟨c, k⟩, hck, rfl⟩ := hmem
      exact ⟨k, Host.mem_children_iff.mp hck, rfl⟩

omit [DirectoryLength] in
theorem storageRead_state (P : DesktopPlatform) (relative : Str) : (storageRead relative P).2 = P := by
  simp only [storageRead]
  rw [Op.run_bind, Op.run_read]
  dsimp only
  rw [Op.run_bind, Op.run_ofExcept]
  cases P.existing relative with
  | error e => rfl
  | ok p => rfl

theorem storageList_state (P : DesktopPlatform) (relative : Str) : (storageList relative P).2 = P := by
  simp only [storageList]
  rw [Op.run_bind, Op.run_read]
  dsimp only
  rw [Op.run_bind, Op.run_ofExcept]
  cases P.existing relative with
  | error e => rfl
  | ok p =>
    dsimp only
    split
    · rfl
    · rw [Op.run_bind, askHost]
      cases P.host.readDir ⟨p, .plain⟩ with
      | error e => rfl
      | ok found => rfl

omit [DirectoryLength] in
theorem storageExists_state (P : DesktopPlatform) (relative : Str) :
    (storageExists relative P).2 = P := by
  unfold storageExists
  split
  · rfl
  · rfl
  · rfl

end DesktopPlatform

/-! ## All storage calls -/

namespace StorageOp

/-- The same calls, of the desktop platform. -/
def onDesktop : StorageOp → Op Error DesktopPlatform Unit
  | write path data => DesktopPlatform.storageWrite path data
  | createDirAll path => DesktopPlatform.storageCreateDirAll path
  | remove path => DesktopPlatform.storageRemove path
  | rename source target => DesktopPlatform.storageRename source target

end StorageOp

/-- The storage calls of a platform. -/
inductive StorageCall where
  | read (path : Str)
  | list (path : Str)
  | probe (path : Str)
  | change (op : StorageOp)
  deriving DecidableEq

namespace StorageCall

/-- The call makes directories outside the root. A rename gets to it only if its source is there: `existing` is asked
    before `writable`. -/
def Strays (P : DesktopPlatform) : StorageCall → Prop
  | change (.write path _) | change (.createDirAll path) => P.StraysOn path
  | change (.rename source target) => (∃ p, P.existing source = .ok p) ∧ P.StraysOn target
  | _ => False

variable [DirectoryLength]

/-- The platform after a call, whatever it answered. -/
def after (P : DesktopPlatform) : StorageCall → DesktopPlatform
  | read path => (DesktopPlatform.storageRead path P).2
  | list path => (DesktopPlatform.storageList path P).2
  | probe path => (DesktopPlatform.storageExists path P).2
  | change op => (op.onDesktop P).2

/-- The contents a call answers with are those of something inside the root: of the file, or of the directory, that the
    path really leads to. -/
def AnswersFromInside (P : DesktopPlatform) : StorageCall → Prop
  | read path => ∀ data, (DesktopPlatform.storageRead path P).1 = .ok data →
      ∃ p, P.LeadsTo path p ∧ P.root <+: p ∧ P.host.node p = some (.file data)
  | list path => ∀ entries, (DesktopPlatform.storageList path P).1 = .ok entries →
      ∃ d, P.LeadsTo path d ∧ P.root <+: d ∧ P.host.node d = some .dir ∧
        ∀ e ∈ entries, ∃ n, P.host.node (d ++ [e.name]) = some n ∧
          e = DesktopPlatform.storageEntry P.host d (e.name, n)
  -- the others answer with a truth value or with nothing
  | probe _ | change _ => True

theorem answersFromInside (P : DesktopPlatform) (call : StorageCall) : call.AnswersFromInside P := by
  cases call with
  | read path => exact fun data h => DesktopPlatform.storageRead_ok h
  | list path => exact fun entries h => DesktopPlatform.storageList_ok h
  | probe path => exact trivial
  | change op => exact trivial

theorem within_iff {P : DesktopPlatform} (hroot : P.host.node P.root = some .dir)
    (call : StorageCall) :
    Host.Within P.root P.host (call.after P).host ↔ ¬ call.Strays P := by
  cases call with
  | read path =>
    rw [after, DesktopPlatform.storageRead_state]
    exact ⟨fun _ hs => hs, fun _ => Host.Within.refl _ _⟩
  | list path =>
    rw [after, DesktopPlatform.storageList_state]
    exact ⟨fun _ hs => hs, fun _ => Host.Within.refl _ _⟩
  | probe path =>
    rw [after, DesktopPlatform.storageExists_state]
    exact ⟨fun _ hs => hs, fun _ => Host.Within.refl _ _⟩
  | change op =>
    cases op with
    | write path data => exact DesktopPlatform.storageWrite_within_iff hroot data
    | createDirAll path => exact DesktopPlatform.storageCreateDirAll_within_iff hroot
    | remove path => exact ⟨fun _ hs => hs, fun _ => DesktopPlatform.storageRemove_within P path⟩
    | rename source target => exact DesktopPlatform.storageRename_within_iff hroot source target

/-- A storage call of the desktop platform, on any host and whatever it answers, changes nothing outside the root and
    answers with nothing from there, *unless* it is to make a path whose directory is missing behind a link that
    leaves the root: then the directory is made outside. The source makes the directory first and asks afterwards
    where it leads, because a path can be made real only once it is there. -/
theorem storage_contained_iff (P : DesktopPlatform) (hroot : P.host.node P.root = some .dir)
    (call : StorageCall) :
    (Host.Within P.root P.host (call.after P).host ∧ call.AnswersFromInside P) ↔
      ¬ call.Strays P := by
  rw [within_iff hroot]
  exact and_iff_left (answersFromInside P call)

end StorageCall

/-! ### A link out of the root -/

/-- A host on which the data directory holds a link to a directory next to it. -/
def linkedHost : Host :=
  ((Host.bare.put [] "data".toList .dir).put [] "outside".toList .dir).put ["data".toList]
    "link".toList (.link "/outside".toList)

def linkedPlatform : DesktopPlatform := ⟨["data".toList], linkedHost⟩

namespace StorageCall

/-- Writing below a directory that is missing behind the link is refused, and the directory is
    there afterwards, outside the data directory. -/
theorem refused_write_makes_outside :
    (DesktopPlatform.storageWrite "link/new/file".toList [] linkedPlatform).1 =
        .error escapesDirectory ∧
      ¬ linkedPlatform.root <+: ["outside".toList, "new".toList] ∧
      linkedPlatform.host.node ["outside".toList, "new".toList] = none ∧
      (DesktopPlatform.storageWrite "link/new/file".toList [] linkedPlatform).2.host.node
          ["outside".toList, "new".toList] = some .dir ∧
      linkedPlatform.host.node linkedPlatform.root = some .dir := by
  decide +kernel

/-- Making a directory in the data directory itself does not stray. -/
theorem plain_write_not_strays :
    ¬ (change (.write "notes/a".toList [1])).Strays linkedPlatform := by
  rintro ⟨d, c, post, ⟨path, hj, -, hs⟩, hout⟩
  have hpath : path = ⟨["data".toList, "notes".toList, "a".toList], .plain⟩ := by
    refine (Except.ok.inj (hj.symm.trans ?_))
    decide +kernel
  subst hpath
  have hst : linkedPlatform.host.StopsAt ["data".toList, "notes".toList] ["data".toList]
      "notes".toList [] :=
    ⟨["data".toList], rfl, by decide +kernel, by decide +kernel, by decide +kernel⟩
  obtain ⟨rfl, -, -⟩ := hs.unique hst
  exact hout (List.prefix_refl _)

/-- A host whose directories are a block long. -/
@[reducible] def blockDirectories : DirectoryLength := ⟨fun _ _ => 4096⟩

attribute [local instance] blockDirectories

theorem plain_write_contained :
    linkedPlatform.host.node linkedPlatform.root = some .dir ∧
      Host.Within linkedPlatform.root linkedPlatform.host
        ((change (.write "notes/a".toList [1])).after linkedPlatform).host ∧
      (change (.write "notes/a".toList [1])).AnswersFromInside linkedPlatform :=
  ⟨by decide +kernel,
    (storage_contained_iff linkedPlatform (by decide +kernel) _).mpr plain_write_not_strays⟩

end StorageCall

end Afos
