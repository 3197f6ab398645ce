import Afos.Lib.Walk

/-!
# Calls that stay below a directory

For each call that changes the file system, what has to be known about its path for the change to
be at or below `root`. A call that takes entries away, or moves them, is inside if the entry is; a
call that makes one is inside if the directory is.
-/

set_option autoImplicit false

namespace Afos.Lib

namespace Host

variable {root : List Str} {h : Host} {q : HostPath}

theorem within_putDirs {d : List Str} {c : Str} (hin : root <+: d) (hd : h.node d = some .dir)
    (hn : h.node (d ++ [c]) = none) (post : List Str) : Within root h (h.putDirs d (c :: post)) := by
  intro p hp
  rw [node_putDirs hd hn, if_neg]
  rintro ⟨hle, -⟩
  exact hp ((hin.trans (List.prefix_append d [c])).trans hle)

theorem mkdir_within (hq : ∀ d c, h.locate q = .ok (some (d, c)) → root <+: d) :
    Within root h (mkdir q h).2 := by
  unfold mkdir
  cases hl : h.locate q with
  | error e => exact Within.refl root h
  | ok found =>
    cases found with
    | none => exact Within.refl root h
    | some entry =>
      dsimp only
      split
      · exact within_put (hq _ _ hl) h _ _
      · exact Within.refl root h

theorem ensureDir_within (hq : ∀ d c, h.locate q = .ok (some (d, c)) → root <+: d) :
    Within root h (ensureDir q h).2 := by
  have hmk := mkdir_within hq
  unfold ensureDir
  generalize mkdir q h = out at hmk
  obtain ⟨res, h'⟩ := out
  cases res with
  | ok u => exact hmk
  | error e =>
    dsimp only
    split
    · exact hmk
    · exact hmk

/-- A path whose directory is there, and inside: at most one directory is made, as an entry of that one, and so inside
    too. -/
theorem createDirAll_within {ns d : List Str} {c : Str} (hr : h.resolve (ns.map .name) = .ok d)
    (hd : h.node d = some .dir) (hin : root <+: d) (tail : Tail) :
    Within root h (createDirAll ⟨ns ++ [c], tail⟩ h).2 := by
  have hloc : ∀ d' x, h.locate ⟨ns ++ [c], tail⟩ = .ok (some (d', x)) → root <+: d' := by
    intro d' x hl
    rw [(resolve_of_locate hl).1] at hr
    exact Except.ok.inj hr ▸ hin
  cases hnul : HostPath.hasNul ⟨ns ++ [c], tail⟩ with
  | true =>
    rw [createDirAll_of_nul hnul]
    exact Within.refl root h
  | false =>
    have hmk := mkdir_within hloc
    cases hm : mkdir ⟨ns ++ [c], tail⟩ h with
    | mk res h' =>
      rw [hm] at hmk
      cases res with
      | ok u => rw [createDirAll_of_ok hm]; exact hmk
      | error e =>
        by_cases he : e = .noEntry
        · -- the directory is there, so nothing is made before the second attempt
          subst he
          obtain rfl := mkdir_error hm
          have hthere : h'.Created ns (createDirAll ⟨ns, .plain⟩ h') :=
            createDirAll_created (hasNul_of_append hnul)
          generalize hrun : createDirAll ⟨ns, .plain⟩ h' = out at hthere
          rw [createDirAll_of_noEntry hm]
          cases hthere with
          | there d' hr' hd' =>
            rw [Op.run_bind_ok hrun]
            exact ensureDir_within hloc
          | made d' c' post hs => rw [hs.resolve_eq] at hr; cases hr
          | failed e' hdir hs => exact absurd hd (hdir d hr)
        · rw [createDirAll_of_error he hm]
          split
          · exact hmk
          · exact hmk

theorem writeFile_within {data : Bytes}
    (hq : ∀ d c, h.openEntry (maxLinks + 1) maxLinks [] q.components = .ok (d, c) → root <+: d) :
    Within root h (writeFile q data h).2 := by
  unfold writeFile
  split
  · exact Within.refl root h
  · cases ho : h.openEntry (maxLinks + 1) maxLinks [] q.components with
    | error e => exact Within.refl root h
    | ok entry =>
      dsimp only
      split
      · exact Within.refl root h
      · exact within_put (hq _ _ ho) h _ _

theorem removeFile_within (hq : ∀ d c, h.locate q = .ok (some (d, c)) → root <+: d ++ [c]) :
    Within root h (removeFile q h).2 := by
  unfold removeFile
  split
  · exact Within.refl root h
  · exact Within.refl root h
  case h_3 d c hl =>
    split
    · exact Within.refl root h
    · exact Within.refl root h
    · split
      · exact within_prune (hq d c hl) h
      · exact Within.refl root h

theorem removeDirAll_within (hq : ∀ d c, h.locate q = .ok (some (d, c)) → root <+: d ++ [c])
    (hself : h.locate q = .ok none → ∃ p, h.resolve q.components = .ok p ∧ root <+: p) :
    Within root h (removeDirAll q h).2 := by
  unfold removeDirAll
  split
  · exact Within.refl root h
  case h_2 hl =>
    obtain ⟨p, hp, hin⟩ := hself hl
    rw [hp]
    exact within_clear hin h
  case h_3 d c hl =>
    split
    · exact Within.refl root h
    · exact Within.refl root h
    · exact within_prune (hq d c hl) h

theorem rename_within {source target : HostPath}
    (hs : ∀ d c, h.locate source = .ok (some (d, c)) → root <+: d ++ [c])
    (ht : ∀ d c, h.locate target = .ok (some (d, c)) → root <+: d) :
    Within root h (rename source target h).2 := by
  unfold rename
  cases hls : h.locate source with
  | error e => exact Within.refl root h
  | ok s =>
    cases hlt : h.locate target with
    | error e => cases s <;> exact Within.refl root h
    | ok t =>
      cases s with
      | none => cases t <;> exact Within.refl root h
      | some se =>
        cases t with
        | none => exact Within.refl root h
        | some te =>
          dsimp only
          repeat' split
          all_goals first
            | exact Within.refl root h
            | exact within_relocate (hs _ _ hls) (ht _ _ hlt) h _

end Host

end Afos.Lib
