import Afos.App
import Afos.Lib.Lines

/-!
# What a header says

The header of an application and the text that a permission request shows come from two functions that
know nothing of each other, `parseCapability` and `Capability.display`. A header written from displayed
texts is read back exactly, through lines, trimming, the equals sign and commas, and the first line of
code ends it: whatever follows cannot add to what was declared.

What ends a header is a line that is no comment *after trimming*. An indented comment is still a comment,
and a directive in it is still read.
-/

set_option autoImplicit false

namespace Afos

open Lib

/-! ## One capability -/

/-- A capability that can be declared: its text fits between two commas on a line. Blanks in front of the text would
    be trimmed, but every text begins with a word of the format. -/
structure Declarable (capability : Capability) : Prop where
  comma : ',' ∉ capability.display
  newline : '\n' ∉ capability.display
  trailing : ∀ c ∈ capability.display.getLast?, isWhitespace c = false
  host : ∀ host, capability = .network host → host ≠ []

theorem parseCapability_display {capability : Capability}
    (h : ∀ host, capability = .network host → host ≠ []) :
    parseCapability capability.display = .ok capability := by
  cases capability with
  | clock => decide
  | systemInfo => decide
  | fsRead path => rfl
  | fsWrite path => rfl
  | network host => exact if_neg (h host rfl)

theorem Declarable.isTrimmed {capability : Capability} (h : Declarable capability) :
    IsTrimmed capability.display := by
  refine ⟨fun c hc => ?_, h.trailing⟩
  cases capability with
  | clock => cases hc; decide
  | systemInfo => cases hc; decide
  | fsRead path => cases hc; decide
  | fsWrite path => cases hc; decide
  | network host => cases hc; decide

theorem display_ne_nil (capability : Capability) : capability.display ≠ [] := by
  cases capability with
  | clock => decide
  | systemInfo => decide
  | fsRead path => exact List.append_ne_nil_of_left_ne_nil (by decide) _
  | fsWrite path => exact List.append_ne_nil_of_left_ne_nil (by decide) _
  | network host => exact List.append_ne_nil_of_left_ne_nil (by decide) _

/-! ## One directive -/

namespace Header

/-- A line that is a directive is one turn of the loop. The line and the key are given trimmed; the value is handed on
    as it is, since each directive trims its own. -/
theorem parseLines_directive {line key value : Str} {rest : List Str} {header header' : Header}
    (hline : line = "// afos:".toList ++ (key ++ '=' :: value)) (htrimmed : IsTrimmed line)
    (hkey : '=' ∉ key) (hkey' : trim key = key) (h : header.directive key value = .ok header') :
    parseLines (line :: rest) header = parseLines rest header' := by
  -- the line is not empty, is a directive, and is split at its first equals sign
  have hne : trim line ≠ [] := by
    rw [htrimmed.trim, hline]
    exact List.append_ne_nil_of_left_ne_nil (by decide) _
  have hstrip : stripPrefix "// afos:".toList (trim line) = some (key ++ '=' :: value) := by
    rw [htrimmed.trim, hline, stripPrefix_append]
  have hsplit : splitOnce '=' (key ++ '=' :: value) = some (key, value) :=
    splitOnce_eq_some_iff.mpr ⟨rfl, hkey⟩
  rw [parseLines, if_neg hne, hstrip]
  dsimp only
  rw [hsplit]
  dsimp only
  rw [hkey', h]
  rfl

/-- Lines of which the first that is not blank is code. Nothing behind it is read, so nothing behind it matters. -/
theorem parseLines_code {ls : List Str} (header : Header)
    (h : ∀ line, ls.find? (fun line => trim line ≠ []) = some line →
      startsWith "//".toList (trim line) = false) : parseLines ls header = .ok header := by
  -- by the lines; those that are blank are skipped
  induction ls with
  | nil => rfl
  | cons line ls ih =>
    rw [parseLines]
    by_cases hblank : trim line = []
    · rw [if_pos hblank]
      refine ih fun l hl => h l ?_
      rw [List.find?_cons_of_neg (by simpa using hblank)]
      exact hl
    · -- not a comment, so not a directive either, and the loop ends here
      have hcode := h line (List.find?_cons_of_pos (by simpa using hblank))
      have hstrip : stripPrefix "// afos:".toList (trim line) = none := by
        cases hstrip : stripPrefix "// afos:".toList (trim line) with
        | none => rfl
        | some text =>
          have hstarts : startsWith "//".toList (trim line) = true :=
            startsWith_iff.mpr ⟨" afos:".toList ++ text, by
              rw [stripPrefix_eq_some_iff.mp hstrip, ← List.append_assoc]
              rfl⟩
          rw [hstarts] at hcode
          cases hcode
      rw [if_neg hblank, hstrip]
      dsimp only
      rw [hcode]
      rfl

theorem foldlM_display {capabilities : List Capability} (h : ∀ c ∈ capabilities, Declarable c)
    (header : Header) :
    (capabilities.map Capability.display).foldlM
        (fun header item => (parseCapability item).map fun capability =>
          { header with capabilities := header.capabilities ++ [capability] }) header =
      .ok { header with capabilities := header.capabilities ++ capabilities } := by
  -- by the capabilities, each of which is added at the end
  induction capabilities generalizing header with
  | nil => rw [List.append_nil]; rfl
  | cons c capabilities ih =>
    rw [List.map_cons, List.foldlM_cons, parseCapability_display (h c List.mem_cons_self).host]
    have hrest := ih (fun d hd => h d (List.mem_cons_of_mem c hd))
      { header with capabilities := header.capabilities ++ [c] }
    rw [List.append_assoc, List.singleton_append] at hrest
    exact hrest

/-- The capabilities of a header are those whose texts were written, in order. -/
theorem addCapabilities_display {capabilities : List Capability} (h : ∀ c ∈ capabilities, Declarable c)
    (header : Header) :
    header.addCapabilities (List.intercalate [','] (capabilities.map Capability.display)) =
      .ok { header with capabilities := header.capabilities ++ capabilities } := by
  have hitems : (((List.intercalate [','] (capabilities.map Capability.display)).splitOn ',').map
      trim).filter (· ≠ []) = capabilities.map Capability.display := by
    -- no capabilities is an empty value, which has no item in it
    by_cases hnil : capabilities = []
    · subst hnil
      decide
    rw [List.splitOn_intercalate ',' ?_ (by simpa using hnil), List.map_map]
    · rw [List.filter_eq_self.mpr]
      · exact List.map_congr_left fun c hc => (h c hc).isTrimmed.trim
      · intro item hitem
        obtain ⟨c, hc, rfl⟩ := List.mem_map.mp hitem
        rw [Function.comp_apply, (h c hc).isTrimmed.trim]
        exact decide_eq_true (display_ne_nil c)
    · intro item hitem
      obtain ⟨c, hc, rfl⟩ := List.mem_map.mp hitem
      exact (h c hc).comma
  rw [addCapabilities, hitems, foldlM_display h]

end Header

/-! ## A header and a body -/

/-- The lines of a header with an identifier and capabilities, as somebody would write it. -/
def headerLines (id : Str) (capabilities : List Capability) : List Str :=
  ["// afos:api=1".toList, "// afos:id=".toList ++ id,
    "// afos:capabilities=".toList ++ List.intercalate [','] (capabilities.map Capability.display)]

/-- A header, each of its lines ended, as it would be written by hand for these capabilities. -/
def headerText (id : Str) (capabilities : List Capability) : Str :=
  (headerLines id capabilities).flatMap (· ++ ['\n'])

/-- The first line of a body that is not blank is no comment, so the loop ends there and the body has no say. -/
def StartsWithCode (body : Str) : Prop :=
  ∀ line, (lines body).find? (fun line => trim line ≠ []) = some line →
    startsWith "//".toList (trim line) = false

theorem isIdChar_ascii {c : Char} (h : isIdChar c = true) : isWhitespace c = false ∧ c ≠ '\n' := by
  -- the characters of an id are all ASCII, so that they can be looked at one by one
  have hlt : c.toNat < 128 := by
    have hle : ∀ n : UInt32, n.toNat < 128 → c.val ≤ n → c.toNat < 128 := fun n hn hc =>
      lt_of_le_of_lt (UInt32.le_iff_toNat_le.mp hc) hn
    simp only [isIdChar, Char.isAlphanum, Char.isAlpha, Char.isUpper, Char.isLower, Char.isDigit,
      Bool.or_eq_true, Bool.and_eq_true, decide_eq_true_eq, beq_iff_eq] at h
    rcases h with ((((⟨-, h⟩ | ⟨-, h⟩) | ⟨-, h⟩) | rfl) | rfl) | rfl
    · exact hle _ (by decide) h
    · exact hle _ (by decide) h
    · exact hle _ (by decide) h
    · decide
    · decide
    · decide
  have hall : ∀ n : Fin 128, isIdChar (Char.ofNat n) = true →
      isWhitespace (Char.ofNat n) = false ∧ Char.ofNat n ≠ '\n' := by decide +kernel
  have hc := hall ⟨c.toNat, hlt⟩
  rw [Char.ofNat_toNat] at hc
  exact hc h

/-- The lines of a header are trimmed, and each is a line. So neither the splitting into lines nor the trimming
    changes them. -/
theorem headerLines_plain {id : Str} {capabilities : List Capability} (hid : ∀ c ∈ id, isIdChar c = true)
    (hcap : ∀ c ∈ capabilities, Declarable c) :
    ∀ line ∈ headerLines id capabilities, '\n' ∉ line ∧ IsTrimmed line := by
  have htexts : ∀ s ∈ capabilities.map Capability.display, '\n' ∉ s ∧ IsTrimmed s ∧ s ≠ [] := by
    intro s hs
    obtain ⟨c, hc, rfl⟩ := List.mem_map.mp hs
    exact ⟨(hcap c hc).newline, (hcap c hc).isTrimmed, display_ne_nil c⟩
  rw [headerLines, List.forall_mem_cons, List.forall_mem_cons, List.forall_mem_singleton]
  refine ⟨⟨by decide +kernel, isTrimmed_of_ends rfl rfl (by decide) (by decide)⟩, ⟨?_, ?_⟩, ?_, ?_⟩
  · rw [List.mem_append]
    exact fun h => h.elim (by decide) fun hin => (isIdChar_ascii (hid _ hin)).2 rfl
  · exact (isTrimmed_of_ends rfl rfl (by decide) (by decide)).append
      (isTrimmed_of_no_whitespace fun c hc => (isIdChar_ascii (hid c hc)).1) (by decide)
  · rw [List.mem_append]
    exact fun h => h.elim (by decide) (notMem_intercalate (by decide) fun s hs => (htexts s hs).1)
  · exact (isTrimmed_of_ends rfl rfl (by decide) (by decide)).append
      (isTrimmed_intercalate (by decide) (fun s hs => (htexts s hs).2.1) fun s hs => (htexts s hs).2.2)
      (by decide)

/-- **A declaration is read back.** From a header with an identifier and capabilities that can be written,
    in front of a body that begins with code, exactly these are read, whatever the body contains. -/
theorem metadata_read_back {sourcePath id body : Str} {capabilities : List Capability} (trusted : Bool)
    (hstem : (fileStem sourcePath).isSome = true) (hne : id ≠ []) (hid : ∀ c ∈ id, isIdChar c = true)
    (hcap : ∀ c ∈ capabilities, Declarable c) (hbody : StartsWithCode body) :
    parseMetadata sourcePath (headerText id capabilities ++ body) trusted =
      .ok { id, sourcePath, trusted, apiVersion := 1, capabilities } := by
  obtain ⟨stem, hstem⟩ := Option.isSome_iff_exists.mp hstem
  have hplain := headerLines_plain hid hcap
  have hlines : lines (headerText id capabilities ++ body) = headerLines id capabilities ++ lines body :=
    lines_flatMap (fun line hline => ⟨(hplain line hline).1, (hplain line hline).2.stripCr⟩) body
  rw [headerLines, List.forall_mem_cons, List.forall_mem_cons, List.forall_mem_singleton] at hplain
  obtain ⟨⟨-, happ⟩, ⟨-, hidline⟩, -, hcapline⟩ := hplain
  -- each of the three lines is one turn of the loop, and the first line of code its last
  have htrim : trim id = id :=
    (isTrimmed_of_no_whitespace fun c hc => (isIdChar_ascii (hid c hc)).1).trim
  have happ' : ∀ header : Header, header.directive "api".toList "1".toList =
      .ok { header with apiVersion := 1 } := fun header => rfl
  have hid' : ∀ header : Header, header.directive "id".toList id = .ok { header with id } := by
    intro header
    have hok : ¬ (id = [] ∨ (!id.all isIdChar) = true) := by
      rw [List.all_eq_true.mpr hid]
      exact fun h => h.elim hne (by decide)
    rw [Header.directive, if_neg (by decide), if_pos rfl, Header.setId, htrim, if_neg hok]
  have hcap' : ∀ header : Header, header.directive "capabilities".toList
      (List.intercalate [','] (capabilities.map Capability.display)) =
        .ok { header with capabilities := header.capabilities ++ capabilities } := by
    intro header
    rw [Header.directive, if_neg (by decide), if_neg (by decide), if_pos rfl,
      Header.addCapabilities_display hcap]
  have hparse : Header.parseLines (headerLines id capabilities ++ lines body) ⟨stem, 1, []⟩ =
      .ok ⟨id, 1, capabilities⟩ := by
    rw [headerLines, List.cons_append, List.cons_append, List.cons_append, List.nil_append,
      Header.parseLines_directive (by rfl) happ (by decide) (by decide) (happ' _),
      Header.parseLines_directive (by rfl) hidline (by decide) (by decide) (hid' _),
      Header.parseLines_directive (by rfl) hcapline (by decide) (by decide) (hcap' _),
      Header.parseLines_code _ hbody]
    rfl
  rw [parseMetadata, hstem, hlines]
  dsimp only
  rw [hparse]
  rfl

/-- A body whose first line is code, and then directives. -/
def forgingBody : Str := "\nprint(1);\n// afos:id=other\n// afos:capabilities=clock\n".toList

theorem metadata_read_back_forging :
    parseMetadata "/apps/a.rhai".toList
        (headerText "com.example.a".toList [.fsRead "/user/a b=c".toList, .network "*".toList] ++ forgingBody)
        false =
      .ok { id := "com.example.a".toList, sourcePath := "/apps/a.rhai".toList, trusted := false,
            apiVersion := 1, capabilities := [.fsRead "/user/a b=c".toList, .network "*".toList] } := by
  refine metadata_read_back false (by decide) (by decide) (List.all_eq_true.mp (by decide)) ?_ ?_
  · rw [List.forall_mem_cons, List.forall_mem_singleton]
    refine ⟨⟨by decide, by decide, fun c hc => ?_, fun host h => (by cases h)⟩,
      ⟨by decide, by decide, fun c hc => ?_, fun host h => ?_⟩⟩
    · cases hc
      decide
    · cases hc
      decide
    · cases h
      decide
  · intro line hline
    have hfirst : (lines forgingBody).find? (fun line => trim line ≠ []) = some "print(1);".toList := by
      decide +kernel
    obtain rfl := Option.some.inj (hfirst.symm.trans hline)
    decide +kernel

/-- A body whose first line is a comment that is set in. -/
def indentedBody : Str := "  // afos:id=other\nprint(1);\n".toList

/-- The first line of the body starts with a blank, not with slashes, and yet it replaces the identifier;
    and an empty identifier, which consists of allowed characters only, is refused. -/
theorem indented_directive_is_read :
    (lines indentedBody).find? (fun line => trim line ≠ []) = some "  // afos:id=other".toList ∧
      startsWith "//".toList "  // afos:id=other".toList = false ∧
      parseMetadata "/apps/a.rhai".toList (headerText "mine".toList [] ++ indentedBody) false =
        .ok { id := "other".toList, sourcePath := "/apps/a.rhai".toList, trusted := false,
              apiVersion := 1, capabilities := [] } ∧
      parseMetadata "/apps/a.rhai".toList (headerText [] [] ++ "print(1);\n".toList) false =
        .error (.invalidInput "invalid application ID".toList) := by
  refine ⟨by decide +kernel, by decide +kernel, by decide +kernel, by decide +kernel⟩

end Afos
