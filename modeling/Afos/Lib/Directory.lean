import Afos.Lib.Posix

/-!
# Directories as they are walked

A directory is the sequence of its entries, in the order in which reading it gives them, and an entry that is a
directory has its own sequence inside. Its files are the paths from the top down to them, with what they hold
(`files`). In a directory without duplicate names no file has the path of another, or one above it
(`Distinct.eq_of_prefix`).

`retain` leaves out entries by their names, and `createDirAll` makes the directories on a path, for which no file may
be in the way; neither changes the files that are kept.
-/

set_option autoImplicit false

namespace Afos.Lib

inductive Directory (N D : Type) where
  | nil
  | file (name : N) (data : D) (rest : Directory N D)
  | sub (name : N) (inner rest : Directory N D)
  | link (name : N) (rest : Directory N D)
  | other (name : N) (rest : Directory N D)

namespace Directory

variable {N D : Type}

def entryNames : Directory N D → List N
  | nil => []
  | file name _ rest => name :: rest.entryNames
  | sub name _ rest => name :: rest.entryNames
  | link name rest => name :: rest.entryNames
  | other name rest => name :: rest.entryNames

def files : Directory N D → List (List N × D)
  | nil => []
  | file name data rest => ([name], data) :: rest.files
  | sub name inner rest => inner.files.map (fun f => (name :: f.1, f.2)) ++ rest.files
  | link _ rest => rest.files
  | other _ rest => rest.files

/-- No directory has two entries of one name, at any depth. A host keeps to it, and the type does not. -/
def Distinct : Directory N D → Prop
  | nil => True
  | file name _ rest => name ∉ rest.entryNames ∧ rest.Distinct
  | sub name inner rest => name ∉ rest.entryNames ∧ inner.Distinct ∧ rest.Distinct
  | link name rest => name ∉ rest.entryNames ∧ rest.Distinct
  | other name rest => name ∉ rest.entryNames ∧ rest.Distinct

/-- The files and directories with a name that is kept, with what is kept in them. Links and other kinds of entries
    are dropped. -/
def retain (keep : N → Bool) : Directory N D → Directory N D
  | nil => nil
  | file name data rest => if keep name then file name data (rest.retain keep) else rest.retain keep
  | sub name inner rest => if keep name then sub name (inner.retain keep) (rest.retain keep) else rest.retain keep
  | link _ rest => rest.retain keep
  | other _ rest => rest.retain keep

/-! ## Files -/

theorem exists_cons_of_mem_files : ∀ {d : Directory N D} {f : List N × D}, f ∈ d.files →
    ∃ name rest, f.1 = name :: rest ∧ name ∈ d.entryNames
  | nil, _, h => by cases h
  | file name data rest, f, h => by
    rcases List.mem_cons.mp h with rfl | h
    · exact ⟨name, [], rfl, List.mem_cons_self⟩
    · obtain ⟨n, r, heq, hmem⟩ := exists_cons_of_mem_files h
      exact ⟨n, r, heq, List.mem_cons_of_mem _ hmem⟩
  | sub name inner rest, f, h => by
    rcases List.mem_append.mp h with h | h
    · obtain ⟨g, -, rfl⟩ := List.mem_map.mp h
      exact ⟨name, g.1, rfl, List.mem_cons_self⟩
    · obtain ⟨n, r, heq, hmem⟩ := exists_cons_of_mem_files h
      exact ⟨n, r, heq, List.mem_cons_of_mem _ hmem⟩
  | link name rest, f, h => by
    obtain ⟨n, r, heq, hmem⟩ := exists_cons_of_mem_files (d := rest) h
    exact ⟨n, r, heq, List.mem_cons_of_mem _ hmem⟩
  | other name rest, f, h => by
    obtain ⟨n, r, heq, hmem⟩ := exists_cons_of_mem_files (d := rest) h
    exact ⟨n, r, heq, List.mem_cons_of_mem _ hmem⟩

theorem ne_nil_of_mem_files {d : Directory N D} {f : List N × D} (h : f ∈ d.files) : f.1 ≠ [] := by
  obtain ⟨name, rest, heq, -⟩ := exists_cons_of_mem_files h
  rw [heq]
  exact List.cons_ne_nil _ _

/-- A path with the first name that no entry has is not that of a file. -/
theorem head_ne_of_mem_files {d : Directory N D} {f : List N × D} (h : f ∈ d.files) {name : N}
    (hname : name ∉ d.entryNames) {rest : List N} : f.1 ≠ name :: rest := by
  obtain ⟨n, r, heq, hmem⟩ := exists_cons_of_mem_files h
  rintro hcons
  rw [heq] at hcons
  exact hname ((List.cons.inj hcons).1 ▸ hmem)

/-- The entries behind the first one, and that one, do not meet. -/
theorem not_prefix_of_head {d : Directory N D} {f : List N × D} (h : f ∈ d.files) {name : N} (hname : name ∉ d.entryNames)
    {p : List N} : ¬ f.1 <+: name :: p ∧ ¬ name :: p <+: f.1 := by
  obtain ⟨n, r, heq, hmem⟩ := exists_cons_of_mem_files h
  rw [heq]
  constructor <;> intro hp
  · exact hname ((List.cons_prefix_cons.mp hp).1 ▸ hmem)
  · exact hname ((List.cons_prefix_cons.mp hp).1 ▸ hmem)

namespace Distinct

theorem nodup_files : ∀ {d : Directory N D}, d.Distinct → (d.files.map Prod.fst).Nodup
  | nil, _ => List.nodup_nil
  | file name data rest, h => by
    refine List.nodup_cons.mpr ⟨fun hmem => ?_, nodup_files h.2⟩
    obtain ⟨f, hf, heq⟩ := List.mem_map.mp hmem
    exact head_ne_of_mem_files hf h.1 heq
  | sub name inner rest, h => by
    rw [files, List.map_append, List.map_map]
    refine List.nodup_append.mpr ⟨?_, nodup_files h.2.2, ?_⟩
    · have hcons : Prod.fst ∘ (fun f : List N × D => (name :: f.1, f.2)) = List.cons name ∘ Prod.fst := rfl
      rw [hcons, ← List.map_map]
      exact (nodup_files h.2.1).map (List.cons_injective)
    · intro p hp q hq heq
      obtain ⟨f, -, rfl⟩ := List.mem_map.mp hp
      obtain ⟨g, hg, rfl⟩ := List.mem_map.mp hq
      exact head_ne_of_mem_files hg h.1 heq.symm
  | link name rest, h => nodup_files (d := rest) h.2
  | other name rest, h => nodup_files (d := rest) h.2

/-- No file is above another: a path that is a file's cannot be the beginning of another file's, because a name is a
    file or a directory and not both. -/
theorem eq_of_prefix : ∀ {d : Directory N D}, d.Distinct → ∀ {f g : List N × D}, f ∈ d.files → g ∈ d.files →
    f.1 <+: g.1 → f = g
  | nil, _, _, _, hf, _, _ => by cases hf
  | file name data rest, h, f, g, hf, hg, hp => by
    rcases List.mem_cons.mp hf with rfl | hf <;> rcases List.mem_cons.mp hg with rfl | hg
    · rfl
    · exact absurd hp (not_prefix_of_head hg h.1).2
    · exact absurd hp (not_prefix_of_head hf h.1).1
    · exact eq_of_prefix h.2 hf hg hp
  | sub name inner rest, h, f, g, hf, hg, hp => by
    rcases List.mem_append.mp hf with hf | hf <;> rcases List.mem_append.mp hg with hg | hg
    · obtain ⟨f', hf', rfl⟩ := List.mem_map.mp hf
      obtain ⟨g', hg', rfl⟩ := List.mem_map.mp hg
      rw [ eq_of_prefix h.2.1 hf' hg' (List.cons_prefix_cons.mp hp).2]
    · obtain ⟨f, -, rfl⟩ := List.mem_map.mp hf
      exact absurd hp (not_prefix_of_head hg h.1).2
    · obtain ⟨g, -, rfl⟩ := List.mem_map.mp hg
      exact absurd hp (not_prefix_of_head hf h.1).1
    · exact eq_of_prefix h.2.2 hf hg hp
  | link name rest, h, f, g, hf, hg, hp => eq_of_prefix (d := rest) h.2 hf hg hp
  | other name rest, h, f, g, hf, hg, hp => eq_of_prefix (d := rest) h.2 hf hg hp

end Distinct

/-! ## Leaving out entries -/

section Retain

variable (keep : N → Bool)

theorem entryNames_retain_subset : ∀ d : Directory N D, (d.retain keep).entryNames ⊆ d.entryNames
  | nil => List.Subset.refl _
  | file name data rest => by
    rw [retain]
    split
    · exact List.cons_subset_cons name (entryNames_retain_subset rest)
    · exact List.subset_cons_of_subset name (entryNames_retain_subset rest)
  | sub name inner rest => by
    rw [retain]
    split
    · exact List.cons_subset_cons name (entryNames_retain_subset rest)
    · exact List.subset_cons_of_subset name (entryNames_retain_subset rest)
  | link name rest => List.subset_cons_of_subset name (entryNames_retain_subset rest)
  | other name rest => List.subset_cons_of_subset name (entryNames_retain_subset rest)

theorem Distinct.retain : ∀ {d : Directory N D}, d.Distinct → (d.retain keep).Distinct
  | nil, _ => trivial
  | file name data rest, h => by
    rw [Directory.retain]
    split
    · exact ⟨fun hmem => h.1 (entryNames_retain_subset keep rest hmem), Distinct.retain h.2⟩
    · exact Distinct.retain h.2
  | sub name inner rest, h => by
    rw [Directory.retain]
    split
    · exact ⟨fun hmem => h.1 (entryNames_retain_subset keep rest hmem), Distinct.retain h.2.1, Distinct.retain h.2.2⟩
    · exact Distinct.retain h.2.2
  | link name rest, h => Distinct.retain (d := rest) h.2
  | other name rest, h => Distinct.retain (d := rest) h.2

/-- The files that are left are those with no name on their way that is left out. A directory that goes takes its
    files with it. -/
theorem files_retain : ∀ d : Directory N D, (d.retain keep).files = d.files.filter fun f => f.1.all keep
  | nil => rfl
  | file name data rest => by
    rw [retain, files, List.filter_cons, ← files_retain rest]
    cases hkeep : keep name <;> simp [hkeep, files]
  | sub name inner rest => by
    rw [retain, files, List.filter_append, List.filter_map, ← files_retain rest]
    cases hkeep : keep name with
    | true => simp [files, files_retain inner, Function.comp_def, hkeep]
    | false => simp [Function.comp_def, hkeep]
  | link name rest => files_retain rest
  | other name rest => files_retain rest

end Retain

/-! ## Making directories -/

section CreateDirAll

variable [DecidableEq N]

/-- Change the directory of a name, which is made if there is nothing of that name. Something else of the name is in
    the way, with the error `blocked`. -/
def enter (name : N) (f : Directory N D → Except Errno (Directory N D)) (blocked : Errno) :
    Directory N D → Except Errno (Directory N D)
  | nil => (f nil).map fun inner => sub name inner nil
  | file n data rest => if n = name then .error blocked else (enter name f blocked rest).map (file n data)
  | sub n inner rest =>
    if n = name then (f inner).map fun inner => sub n inner rest else (enter name f blocked rest).map (sub n inner)
  | link n rest => if n = name then .error blocked else (enter name f blocked rest).map (link n)
  | other n rest => if n = name then .error blocked else (enter name f blocked rest).map (other n)

/-- Make a directory and those above it, without following links. Which error a thing in the way gives depends on
    whether it is in the last place. -/
def createDirAll : List N → Directory N D → Except Errno (Directory N D)
  | [] => .ok
  | name :: path => enter name (createDirAll path) (if path = [] then .fileExists else .notDirectory)

/-- What making directories leaves as it was, and that no file was in the way. Files are the same list, in their
    order. -/
structure Made (path : List N) (d d' : Directory N D) : Prop where
  files : d'.files = d.files
  entries : ∀ name ∈ d'.entryNames, name ∈ d.entryNames ∨ path.head? = some name
  distinct : d.Distinct → d'.Distinct
  free : d.Distinct → ∀ f ∈ d.files, ¬ f.1 <+: path

omit [DecidableEq N] in
theorem exists_of_map_eq_ok {ε α β : Type} {x : Except ε α} {g : α → β} {b : β} (h : x.map g = .ok b) :
    ∃ a, x = .ok a ∧ b = g a := by
  cases x with
  | error e => cases h
  | ok a => exact ⟨a, rfl, (Except.ok.inj h).symm⟩

omit [DecidableEq N] in
/-- Behind an entry of another name, which has `own` files and keeps to itself. -/
theorem Made.behind {n name : N} {path : List N} {d d' rest rest' : Directory N D} (h : Made (name :: path) rest rest')
    (hne : n ≠ name) (own : List (List N × D)) (Inner : Prop) (hown : ∀ g ∈ own, ∃ p, g.1 = n :: p)
    (hfiles : d.files = own ++ rest.files ∧ d'.files = own ++ rest'.files)
    (hentries : d.entryNames = n :: rest.entryNames ∧ d'.entryNames = n :: rest'.entryNames)
    (hdistinct : (d.Distinct ↔ n ∉ rest.entryNames ∧ Inner ∧ rest.Distinct) ∧
      (d'.Distinct ↔ n ∉ rest'.entryNames ∧ Inner ∧ rest'.Distinct)) : Made (name :: path) d d' := by
  refine ⟨by rw [hfiles.1, hfiles.2, h.files], ?_, ?_, ?_⟩
  · intro m hm
    rw [hentries.2] at hm
    rw [hentries.1]
    rcases List.mem_cons.mp hm with rfl | hm
    · exact Or.inl List.mem_cons_self
    · exact (h.entries m hm).imp_left (List.mem_cons_of_mem n)
  · rw [hdistinct.1, hdistinct.2]
    rintro ⟨hnot, hinner, hrest⟩
    refine ⟨fun hmem => ?_, hinner, h.distinct hrest⟩
    rcases h.entries n hmem with hin | hhead
    · exact hnot hin
    · exact hne (by simpa using hhead.symm)
  · intro hd g hg hp
    rw [hfiles.1] at hg
    rcases List.mem_append.mp hg with hg | hg
    · obtain ⟨p, hgp⟩ := hown g hg
      rw [hgp] at hp
      exact hne (List.cons_prefix_cons.mp hp).1
    · exact h.free (hdistinct.1.mp hd).2.2 g hg hp

theorem enter_made {name : N} {path : List N} {f : Directory N D → Except Errno (Directory N D)} {blocked : Errno}
    (hf : ∀ {d d'}, f d = .ok d' → Made path d d') {d : Directory N D} :
    ∀ {d' : Directory N D}, enter name f blocked d = .ok d' → Made (name :: path) d d' := by
  induction d with
  | nil =>
    -- no entry has the name, and the directory is made at the end
    intro d' h
    obtain ⟨inner, hinner, rfl⟩ := exists_of_map_eq_ok h
    have hmade := hf hinner
    refine ⟨?_, ?_, fun _ => ⟨List.not_mem_nil, hmade.distinct trivial, trivial⟩, fun _ g hg => by cases hg⟩
    · simp [files, hmade.files]
    · simp [entryNames]
  | file n data rest ih =>
    intro d' h
    rw [enter] at h
    split at h
    · cases h
    · obtain ⟨rest', hrest, rfl⟩ := exists_of_map_eq_ok h
      refine (ih hrest).behind ‹_› [([n], data)] True ?_ ⟨rfl, rfl⟩ ⟨rfl, rfl⟩ (by simp [Distinct])
      exact fun g hg => ⟨[], by rw [List.mem_singleton.mp hg]⟩
  | sub n inner rest _ ih =>
    intro d' h
    rw [enter] at h
    split at h
    · -- the directory is there
      rename_i heq
      subst heq
      obtain ⟨inner', hinner, rfl⟩ := exists_of_map_eq_ok h
      have hmade := hf hinner
      refine ⟨?_, fun m hm => Or.inl hm, fun hd => ⟨hd.1, hmade.distinct hd.2.1, hd.2.2⟩, ?_⟩
      · simp only [files, hmade.files]
      · intro hd g hg hp
        rcases List.mem_append.mp hg with hg | hg
        · obtain ⟨g', hg', rfl⟩ := List.mem_map.mp hg
          exact hmade.free hd.2.1 g' hg' (List.cons_prefix_cons.mp hp).2
        · exact (not_prefix_of_head hg hd.1).1 hp
    · obtain ⟨rest', hrest, rfl⟩ := exists_of_map_eq_ok h
      refine (ih hrest).behind ‹_› _ inner.Distinct ?_ ⟨rfl, rfl⟩ ⟨rfl, rfl⟩ ⟨Iff.rfl, Iff.rfl⟩
      rintro g hg
      obtain ⟨g', -, rfl⟩ := List.mem_map.mp hg
      exact ⟨g'.1, rfl⟩
  | link n rest ih =>
    intro d' h
    rw [enter] at h
    split at h
    · cases h
    · obtain ⟨rest', hrest, rfl⟩ := exists_of_map_eq_ok h
      exact (ih hrest).behind ‹_› [] True (by simp) ⟨rfl, rfl⟩ ⟨rfl, rfl⟩ (by simp [Distinct])
  | other n rest ih =>
    intro d' h
    rw [enter] at h
    split at h
    · cases h
    · obtain ⟨rest', hrest, rfl⟩ := exists_of_map_eq_ok h
      exact (ih hrest).behind ‹_› [] True (by simp) ⟨rfl, rfl⟩ ⟨rfl, rfl⟩ (by simp [Distinct])

theorem createDirAll_made : ∀ {path : List N} {d d' : Directory N D}, createDirAll path d = .ok d' → Made path d d'
  | [], d, d', h => by
    obtain rfl : d = d' := Except.ok.inj h
    exact ⟨rfl, fun name hname => Or.inl hname, id, fun _ f hf hp => ne_nil_of_mem_files hf (List.prefix_nil.mp hp)⟩
  | name :: path, d, d', h => enter_made createDirAll_made h

end CreateDirAll

end Directory

end Afos.Lib
