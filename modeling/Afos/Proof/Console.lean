import Afos.Console
import Afos.Lib.Tty
import Afos.Proof.Screen

/-!
# What is typed, what is read, what is shown

`read_line` is a line discipline over the bytes that the polls find (`readLoop_eq`): it hands out what
`Lib.Key.discipline` does and writes what that answers, on the serial line and on the screen alike. So the row
of a terminal shows the line or a star for each of its characters, whatever is typed and erased.
-/

set_option autoImplicit false

namespace Afos

open Lib

/-! ## Bytes and keys -/

/-- What `read_line` takes a byte for. Carriage return and line feed both end a line, backspace and delete both erase,
    a tab is a blank, and a byte that is neither graphic nor a blank is dropped. -/
def keyOf (byte : UInt8) : Key :=
  if byte = ascii '\r' ∨ byte = ascii '\n' then .enter
  else if byte = 8 ∨ byte = 127 then .erase
  else if byte = ascii '\t' then .insert ' '
  else if isAsciiGraphic byte ∨ byte = ascii ' ' then .insert (Char.ofNat byte.toNat)
  else .other

/-- Characters from the blank to the tilde. -/
def isPrintable (c : Char) : Bool := 32 ≤ c.toNat && c.toNat ≤ 126

theorem isPrintable_of_keyOf {byte : UInt8} {c : Char} (h : keyOf byte = .insert c) : isPrintable c = true := by
  unfold keyOf at h
  split at h
  · cases h
  split at h
  · cases h
  split at h
  · cases h
    decide
  split at h
  · rename_i hgraphic
    cases h
    -- the printable bytes of ASCII and the blank, which is not graphic
    have hrange : 32 ≤ byte.toNat ∧ byte.toNat ≤ 126 := by
      rcases hgraphic with hgraphic | rfl
      · simp only [isAsciiGraphic, Bool.and_eq_true, decide_eq_true_eq, UInt8.le_iff_toNat_le] at hgraphic
        have h1 : (0x21 : UInt8).toNat = 33 := rfl
        have h2 : (0x7e : UInt8).toNat = 126 := rfl
        omega
      · decide
    have hchar : (Char.ofNat byte.toNat).toNat = byte.toNat := by
      rw [Char.toNat_ofNat, if_pos (Or.inl (by omega))]
    simpa [isPrintable, hchar] using hrange
  · cases h

/-- A fact about printable characters from a check of all of them. -/
theorem forall_isPrintable {P : Char → Prop} (h : ∀ n : Fin 127, isPrintable (Char.ofNat n) = true → P (Char.ofNat n))
    {c : Char} (hc : isPrintable c = true) : P c := by
  have hrange : 32 ≤ c.toNat ∧ c.toNat ≤ 126 := by simpa [isPrintable] using hc
  have hp := h ⟨c.toNat, by omega⟩
  simp only [Char.ofNat_toNat] at hp
  exact hp hc

theorem keyOf_ascii {c : Char} (h : isPrintable c = true) : keyOf (ascii c) = .insert c :=
  forall_isPrintable (P := fun c => keyOf (ascii c) = .insert c) (by decide +kernel) h

theorem isPlain_of_isPrintable {c : Char} (h : isPrintable c = true) : Terminal.IsPlain c :=
  forall_isPrintable (P := fun c => c ≠ '\n' ∧ c ≠ '\x08') (by decide +kernel) h

namespace ArchIo

/-- The bytes that polls find, in order. The state of the keyboard goes from one poll to the next, as shift and caps
    lock are in it. -/
def delivered (target : TargetArch) : List Poll → ArchIo → Bytes
  | [], _ => []
  | poll :: polls, io =>
      match pollByte target poll io with
      | (some byte, io) => byte :: delivered target polls io
      | (none, io) => delivered target polls io

end ArchIo

namespace Console

open ArchIo

variable (font : Font)

/-- What a character is shown as: itself, or a star at a prompt for a secret. -/
def mask (secret : Bool) (c : Char) : Char := if secret then '*' else c

@[simp] theorem writeText_nil (c : Console) : c.writeText font [] = c := by
  obtain ⟨target, arch, serial, framebuffer⟩ := c
  cases framebuffer <;> simp [writeText, asBytes, FramebufferConsole.writeText]

theorem writeText_append (a b : Str) (c : Console) :
    c.writeText font (a ++ b) = (c.writeText font a).writeText font b := by
  obtain ⟨target, arch, serial, framebuffer⟩ := c
  cases framebuffer <;> simp [writeText, asBytes, FramebufferConsole.writeText]

/-- One byte, as the key it is taken for: whether the line is done, the line after it, and what is written. -/
theorem takeByte_eq (secret : Bool) (byte : UInt8) (line : Str) (c : Console) :
    takeByte font secret byte line c =
      (decide (keyOf byte = .enter), (keyOf byte).edit line,
        c.writeText font ((keyOf byte).echo (mask secret) line)) := by
  -- the branches of `take_byte` in their order: line end, erasing, tab, printable, and the rest
  unfold takeByte keyOf
  split
  · rfl
  split
  · split
    · rename_i hnil
      simp [Key.edit, Key.echo, hnil]
    · rename_i hnil
      simp [Key.edit, Key.echo, hnil]
      rfl
  split
  · cases secret <;> rfl
  split
  · cases secret <;> rfl
  · simp [Key.edit, Key.echo]

/-- `read_line` is a line discipline over the keys that come in. The polls behind the line end are left for the next
    call, with what the keyboard knows then. -/
theorem readLoop_eq (secret : Bool) (polls : List Poll) (line : Str) (c : Console) :
    ∃ arch rest,
      readLoop font secret polls line c =
        ((Key.discipline (mask secret) ((delivered c.target polls c.arch).map keyOf) line).1,
          { c.writeText font (Key.discipline (mask secret) ((delivered c.target polls c.arch).map keyOf) line).2.1 with
            arch }, rest) ∧
      (delivered c.target rest arch).map keyOf =
        (Key.discipline (mask secret) ((delivered c.target polls c.arch).map keyOf) line).2.2 := by
  -- by the polls: one that finds nothing only changes the state of the keyboard
  induction polls generalizing line c with
  | nil => exact ⟨c.arch, [], by simp [readLoop, delivered, Key.discipline], rfl⟩
  | cons poll polls ih =>
    rw [readLoop, delivered]
    rcases hpoll : pollByte c.target poll c.arch with ⟨_ | byte, io⟩
    · exact ih line { c with arch := io }
    · simp only [takeByte_eq, List.map_cons]
      by_cases henter : keyOf byte = .enter
      · simp only [henter, decide_true]
        exact ⟨io, polls, rfl, rfl⟩
      · simp only [decide_eq_false henter, Key.discipline_cons henter]
        obtain ⟨arch, rest, hloop, hrest⟩ := ih ((keyOf byte).edit line)
          ({ c with arch := io }.writeText font ((keyOf byte).echo (mask secret) line))
        refine ⟨arch, rest, ?_, hrest⟩
        rw [hloop, writeText_append]
        rfl

theorem readLine_eq (prompt : Str) (secret : Bool) (polls : List Poll) (c : Console) :
    ∃ arch rest,
      readLine font prompt secret polls c =
        ((Key.discipline (mask secret) ((delivered c.target polls c.arch).map keyOf) []).1,
          { c.writeText font
              (prompt ++ (Key.discipline (mask secret) ((delivered c.target polls c.arch).map keyOf) []).2.1) with
            arch }, rest) ∧
      (delivered c.target rest arch).map keyOf =
        (Key.discipline (mask secret) ((delivered c.target polls c.arch).map keyOf) []).2.2 := by
  rw [writeText_append]
  exact readLoop_eq font secret polls [] (c.writeText font prompt)

theorem isPlain_mask (secret : Bool) (c : Char) (h : Terminal.IsPlain c) : Terminal.IsPlain (mask secret c) := by
  cases secret with
  | false => exact h
  | true => exact isPlain_of_isPrintable (show isPrintable '*' = true by decide)

/-- A line that was printable stays so, whatever bytes come in. -/
theorem isPrintable_line {bytes : Bytes} {line : Str} (hline : ∀ c ∈ line, isPrintable c = true) :
    ∀ c ∈ Key.line (bytes.map keyOf) line, isPrintable c = true := by
  -- by the bytes; what is in the line stays printable under every key
  induction bytes generalizing line with
  | nil => exact hline
  | cons byte bytes ih =>
    rw [List.map_cons]
    by_cases henter : keyOf byte = .enter
    · rw [henter, Key.line_enter]
      exact hline
    · rw [Key.line_cons henter]
      refine ih fun c hc => ?_
      cases hkey : keyOf byte with
      | enter | other =>
        rw [hkey] at hc
        exact hline c hc
      | erase =>
        rw [hkey] at hc
        exact hline c (List.mem_of_mem_dropLast hc)
      | insert d =>
        rw [hkey] at hc
        rcases List.mem_append.mp hc with hc | hc
        · exact hline c hc
        · rw [List.mem_singleton.mp hc]
          exact isPrintable_of_keyOf hkey

/-- A prompt has been shown in full. Whatever bytes then come in, and however late, `read_line` returns when the
    first line end has, with the line that typing and erasing before it come to, all printable characters. What it
    writes goes to the serial line and to the screen alike, and a terminal shows the prompt and behind it the line,
    or as many stars, at every moment. -/
theorem readLine_shows_line (prompt : Str) (secret : Bool) (polls : List Poll) (c : Console) {t : Terminal}
    {text : Str} (hprompt : (t.feed prompt).Shows text) :
    let keys := (delivered c.target polls c.arch).map keyOf
    let line := Key.line keys []
    let out := readLine font prompt secret polls c
    (∀ d ∈ line, isPrintable d = true) ∧ out.1 = (if .enter ∈ keys then some line else none) ∧
      ∃ written, out.2.1.serial = c.serial ++ asBytes written ∧
        out.2.1.framebuffer = c.framebuffer.map (FramebufferConsole.writeText font · written) ∧
        if .enter ∈ keys then
          ∃ n, t.feed written =
            ⟨(text ++ line.map (mask secret) ++ List.replicate n ' ') :: (t.feed prompt).above, [], 0⟩
        else (t.feed written).Shows (text ++ line.map (mask secret)) := by
  intro keys line out
  obtain ⟨arch, rest, hout, -⟩ := readLine_eq font prompt secret polls c
  have hplain : ∀ d, .insert d ∈ keys → Terminal.IsPlain d := by
    intro d hd
    obtain ⟨byte, -, hbyte⟩ := List.mem_map.mp hd
    exact isPlain_of_isPrintable (isPrintable_of_keyOf hbyte)
  have hshown : (t.feed prompt).Shows (text ++ ([] : Str).map (mask secret)) := by simpa using hprompt
  refine ⟨isPrintable_line (fun d hd => (by cases hd)), ?_,
    prompt ++ (Key.discipline (mask secret) keys []).2.1, ?_, ?_, ?_⟩
  · exact (congrArg Prod.fst hout).trans (Key.discipline_result keys [])
  · exact congrArg (fun out => out.2.1.serial) hout
  · exact congrArg (fun out => out.2.1.framebuffer) hout
  · rw [Terminal.feed_append]
    exact hshown.discipline (isPlain_mask secret) hplain

theorem readLine_shows_line_star :
    (readLine (fun _ => none) "Password: ".toList true [⟨some 0x61, none⟩, ⟨none, none⟩, ⟨some 0x0d, none⟩]
      ⟨.aarch64, .new, [], none⟩).1 = some ['a'] := by
  have hprompt : ((⟨[], [], 0⟩ : Terminal).feed "Password: ".toList).Shows "Password: ".toList :=
    ⟨by decide, 0, by decide⟩
  exact (readLine_shows_line (fun _ => none) "Password: ".toList true
    [⟨some 0x61, none⟩, ⟨none, none⟩, ⟨some 0x0d, none⟩] ⟨.aarch64, .new, [], none⟩ hprompt).2.1

/-- Two inputs that differ in the characters typed and in nothing else, at a prompt for a secret: what goes out on
    the serial line and to the screen is the same, and so is the length of the line. -/
theorem secret_readLine_shows_length_only (prompt : Str) (polls polls' : List Poll) (c : Console) (arch' : ArchIo)
    (h : (delivered c.target polls c.arch).map (Key.shape ∘ keyOf) =
      (delivered c.target polls' arch').map (Key.shape ∘ keyOf)) :
    let out := readLine font prompt true polls c
    let out' := readLine font prompt true polls' { c with arch := arch' }
    out.2.1.serial = out'.2.1.serial ∧ out.2.1.framebuffer = out'.2.1.framebuffer ∧
      out.1.map List.length = out'.1.map List.length := by
  intro out out'
  obtain ⟨arch, rest, hout, -⟩ := readLine_eq font prompt true polls c
  obtain ⟨arch₂, rest₂, hout', -⟩ := readLine_eq font prompt true polls' { c with arch := arch' }
  rw [← List.map_map, ← List.map_map] at h
  obtain ⟨htext, hlength⟩ := @Key.discipline_of_shape '*' _ _ h [] [] rfl
  have hmask : mask true = fun _ => '*' := rfl
  rw [hmask] at hout hout'
  refine ⟨?_, ?_, ?_⟩
  · rw [show out = _ from hout, show out' = _ from hout', htext]
    rfl
  · rw [show out = _ from hout, show out' = _ from hout', htext]
    rfl
  · rw [show out = _ from hout, show out' = _ from hout']
    exact hlength

theorem secret_readLine_shows_length_only_two :
    (readLine (fun _ => none) [] true [⟨some 0x61, none⟩] ⟨.aarch64, .new, [], none⟩).2.1.serial =
      (readLine (fun _ => none) [] true [⟨none, none⟩, ⟨some 0x62, none⟩] ⟨.aarch64, .new, [], none⟩).2.1.serial :=
  (secret_readLine_shows_length_only (fun _ => none) [] [⟨some 0x61, none⟩] [⟨none, none⟩, ⟨some 0x62, none⟩]
    ⟨.aarch64, .new, [], none⟩ .new (by decide +kernel)).1

end Console

/-! ## The keyboard -/

/-- A keyboard of the United States: the scan code of a key, and what it types without and with shift. -/
def usLayout : List (UInt8 × Char × Char) :=
  [(0x02, '1', '!'), (0x03, '2', '@'), (0x04, '3', '#'), (0x05, '4', '$'), (0x06, '5', '%'),
   (0x07, '6', '^'), (0x08, '7', '&'), (0x09, '8', '*'), (0x0a, '9', '('), (0x0b, '0', ')'),
   (0x0c, '-', '_'), (0x0d, '=', '+'), (0x10, 'q', 'Q'), (0x11, 'w', 'W'), (0x12, 'e', 'E'),
   (0x13, 'r', 'R'), (0x14, 't', 'T'), (0x15, 'y', 'Y'), (0x16, 'u', 'U'), (0x17, 'i', 'I'),
   (0x18, 'o', 'O'), (0x19, 'p', 'P'), (0x1a, '[', '\x7b'), (0x1b, ']', '\x7d'), (0x1e, 'a', 'A'),
   (0x1f, 's', 'S'), (0x20, 'd', 'D'), (0x21, 'f', 'F'), (0x22, 'g', 'G'), (0x23, 'h', 'H'),
   (0x24, 'j', 'J'), (0x25, 'k', 'K'), (0x26, 'l', 'L'), (0x27, ';', ':'), (0x28, '\x27', '\x22'),
   (0x29, '\x60', '~'), (0x2b, '\\', '|'), (0x2c, 'z', 'Z'), (0x2d, 'x', 'X'), (0x2e, 'c', 'C'),
   (0x2f, 'v', 'V'), (0x30, 'b', 'B'), (0x31, 'n', 'N'), (0x32, 'm', 'M'), (0x33, ',', '<'),
   (0x34, '.', '>'), (0x35, '/', '?'), (0x39, ' ', ' ')]

/-- The key that types a character, and whether it is typed with shift. Every printable character has one. -/
def keyFor (c : Char) : Option (UInt8 × Bool) :=
  (usLayout.find? fun key => key.2.1 = c ∨ key.2.2 = c).map fun key => (key.1, key.2.1 ≠ c)

/-- How a character is typed: shift is pressed or let go, and then the key is pressed and let go. -/
def stroke (capsLock : Bool) (c : Char) : List UInt8 :=
  match keyFor c with
  | none => []
  | some (scan, shifted) =>
      let shift := if c.isAlpha then shifted ^^ capsLock else shifted
      [if shift then 0x2a else 0xaa, scan, scan ||| 0x80]

namespace ArchIo

/-- The bytes that scan codes come to, and the keyboard's state behind them. -/
def scanned : List UInt8 → ArchIo → Bytes × ArchIo
  | [], io => ([], io)
  | scan :: scans, io =>
      let (byte, io) := keyboardRead (some scan) io
      let (bytes, io) := scanned scans io
      (byte.toList ++ bytes, io)

theorem scanned_append (a b : List UInt8) (io : ArchIo) :
    scanned (a ++ b) io = ((scanned a io).1 ++ (scanned b (scanned a io).2).1, (scanned b (scanned a io).2).2) := by
  induction a generalizing io with
  | nil => rfl
  | cons scan a ih => simp [scanned, ih]

/-- Where nothing comes in on the serial line, the bytes are those of the scan codes, whenever these come. -/
theorem delivered_of_keyboard {polls : List Poll} (h : ∀ poll ∈ polls, poll.serial = none) (io : ArchIo) :
    delivered .x86_64 polls io = (scanned (polls.filterMap Poll.scan) io).1 := by
  -- by the polls; a scan code may come to no byte, but it changes the state for the next
  induction polls generalizing io with
  | nil => rfl
  | cons poll polls ih =>
    obtain ⟨serial, scan⟩ := poll
    obtain rfl : serial = none := h _ List.mem_cons_self
    have ih := fun io => ih (fun poll hpoll => h poll (List.mem_cons_of_mem _ hpoll)) io
    cases scan with
    | none => exact ih io
    | some scan =>
      simp only [delivered, pollByte, List.filterMap_cons, scanned]
      rcases keyboardRead (some scan) io with ⟨_ | byte, io'⟩
      · exact ih io'
      · simp [ih io']

theorem scanned_stroke {c : Char} (h : isPrintable c = true) (io : ArchIo) :
    (scanned (stroke io.capsLock c) io).1 = [ascii c] ∧
      (scanned (stroke io.capsLock c) io).2.capsLock = io.capsLock := by
  obtain ⟨shift, capsLock⟩ := io
  refine forall_isPrintable (P := fun c => (scanned (stroke capsLock c) ⟨shift, capsLock⟩).1 = [ascii c] ∧
      (scanned (stroke capsLock c) ⟨shift, capsLock⟩).2.capsLock = capsLock) ?_ h
  cases shift <;> cases capsLock <;> decide +kernel

theorem scanned_strokes {text : Str} (h : ∀ c ∈ text, isPrintable c = true) (io : ArchIo) :
    (scanned (text.flatMap (stroke io.capsLock)) io).1 = text.map ascii ∧
      (scanned (text.flatMap (stroke io.capsLock)) io).2.capsLock = io.capsLock := by
  induction text generalizing io with
  | nil => exact ⟨rfl, rfl⟩
  | cons c text ih =>
    obtain ⟨hbyte, hcaps⟩ := scanned_stroke (h c List.mem_cons_self) io
    obtain ⟨hbytes, hcaps'⟩ := ih (fun d hd => h d (List.mem_cons_of_mem _ hd)) (scanned (stroke io.capsLock c) io).2
    rw [hcaps] at hbytes hcaps'
    rw [List.flatMap_cons, scanned_append, hbyte, hbytes]
    exact ⟨rfl, hcaps'⟩

/-- Printable characters, the end of a line, a tab and the erasing of a character. -/
def isTypeable (byte : UInt8) : Bool :=
  byte == 8 || byte == ascii '\t' || byte == ascii '\n' || (32 ≤ byte && byte ≤ 126)

theorem keyboardRead_isTypeable {scan byte : UInt8} {io : ArchIo}
    (h : (keyboardRead (some scan) io).1 = some byte) : isTypeable byte = true := by
  have hall : ∀ shift capsLock : Bool, (List.range 256).all fun n =>
      (keyboardRead (some (UInt8.ofNat n)) ⟨shift, capsLock⟩).1.all isTypeable := by decide +kernel
  have hscan := List.all_eq_true.mp (hall io.shift io.capsLock) scan.toNat (List.mem_range.mpr scan.toNat_lt)
  rw [UInt8.ofNat_toNat, h] at hscan
  exact hscan

end ArchIo

namespace Console

open ArchIo

/-- Every line of printable characters can be typed at the keyboard of a machine that gets nothing on its serial
    line, in whatever state shift and caps lock are, and at any pace. But nothing typed there cancels anything: the
    keyboard does not send the escape character that is waited for. -/
theorem keyboard_types_every_line (font : Font) (arch : ArchIo) (serial : Bytes)
    (framebuffer : Option FramebufferConsole) :
    let c : Console := ⟨.x86_64, arch, serial, framebuffer⟩
    (∀ (prompt : Str) (secret : Bool) (text : Str) (polls : List Poll), (∀ d ∈ text, isPrintable d = true) →
      (∀ poll ∈ polls, poll.serial = none) →
      polls.filterMap Poll.scan = text.flatMap (stroke arch.capsLock) ++ [0x1c] →
        (readLine font prompt secret polls c).1 = some text) ∧
      ∀ poll : Poll, poll.serial = none → (pollCancel poll c).1 = false := by
  intro c
  refine ⟨fun prompt secret text polls htext hserial hscans => ?_, fun poll hserial => ?_⟩
  · obtain ⟨hbytes, hcaps⟩ := scanned_strokes htext arch
    have hdelivered : delivered .x86_64 polls arch = text.map ascii ++ [ascii '\n'] := by
      rw [delivered_of_keyboard hserial, hscans, scanned_append, hbytes]
      rfl
    -- each stroke comes to the one byte of its character, and the key `0x1c` to the line end
    have hkeys : (delivered c.target polls c.arch).map keyOf = text.map .insert ++ [.enter] := by
      rw [show delivered c.target polls c.arch = _ from hdelivered, List.map_append, List.map_map]
      exact congrArg (· ++ [Key.enter]) (List.map_congr_left fun d hd => keyOf_ascii (htext d hd))
    obtain ⟨_, _, hout, -⟩ := readLine_eq font prompt secret polls c
    rw [hout, hkeys]
    exact (Key.discipline_insert text [] []).1
  · obtain ⟨_, scan⟩ := poll
    obtain rfl : _ = none := hserial
    cases scan with
    | none => rfl
    | some scan =>
      rw [pollCancel]
      show ((keyboardRead (some scan) arch).1 == some 0x1b) = false
      -- a byte of the keyboard is typeable, and the escape character is not
      cases hbyte : (keyboardRead (some scan) arch).1 with
      | none => rfl
      | some byte =>
        rw [beq_eq_false_iff_ne]
        rintro ⟨⟩
        have htypeable := keyboardRead_isTypeable hbyte
        revert htypeable
        decide

theorem keyboard_types_every_line_hi :
    (readLine (fun _ => none) [] false
      [⟨none, some 0x2a⟩, ⟨none, none⟩, ⟨none, some 0x23⟩, ⟨none, some 0xa3⟩, ⟨none, some 0xaa⟩, ⟨none, some 0x17⟩,
        ⟨none, some 0x97⟩, ⟨none, some 0x1c⟩]
      ⟨.x86_64, .new, [], none⟩).1 = some "Hi".toList := by
  have htext : ∀ d ∈ "Hi".toList, isPrintable d = true := List.all_eq_true.mp (by decide)
  refine (keyboard_types_every_line (fun _ => none) .new [] none).1 [] false "Hi".toList _ htext ?_ ?_
  · decide
  · decide +kernel

/-! ## One line after another -/

/-- Calls of `read_line`, one after the other, each on the polls that the one before has left. -/
def readLines (font : Font) : List (Str × Bool) → List Poll → Console → List (Option Str)
  | [], _, _ => []
  | (prompt, secret) :: calls, polls, c =>
      let (line, c, polls) := readLine font prompt secret polls c
      line :: readLines font calls polls c

/-- Calls of `read_line` take the lines that a line discipline makes of the keys. -/
theorem readLines_eq (font : Font) {calls : List (Str × Bool)} {polls : List Poll} {c : Console} {lines : List Str}
    (hcalls : calls.length = lines.length)
    (hkeys : (delivered c.target polls c.arch).map keyOf = lines.flatMap fun line => line.map .insert ++ [.enter]) :
    readLines font calls polls c = lines.map some := by
  -- by the calls; each leaves the polls behind the line end to the next
  induction calls generalizing polls c lines with
  | nil =>
    obtain rfl : lines = [] := by simpa using hcalls.symm
    rfl
  | cons call calls ih =>
    cases lines with
    | nil => cases hcalls
    | cons line lines =>
      obtain ⟨prompt, secret⟩ := call
      obtain ⟨arch, rest, hout, hrest⟩ := readLine_eq font prompt secret polls c
      rw [List.flatMap_cons, List.append_assoc] at hkeys
      obtain ⟨hresult, hbehind⟩ := @Key.discipline_insert (mask secret) line
        (lines.flatMap fun line => line.map .insert ++ [.enter]) []
      rw [hkeys] at hout hrest
      rw [readLines, hout, List.map_cons]
      exact congr (congrArg List.cons hresult) (ih (Nat.succ.inj hcalls) (hrest.trans hbehind))

theorem flatMap_replicate_nil (n : Nat) :
    (List.replicate n ([] : Str)).flatMap (fun line => line.map Key.insert ++ [.enter]) = List.replicate n .enter := by
  induction n with
  | zero => rfl
  | succ n ih => rw [List.replicate_succ, List.flatMap_cons, ih, List.replicate_succ]; rfl

/-- The keys of a line and of its end, as the keys of the lines that are read: every byte of the end but the first is
    a line of its own, an empty one. -/
theorem map_keyOf_line {line : Str} (hline : ∀ d ∈ line, isPrintable d = true) {ends : Bytes} (hends : ends ≠ [])
    (hend : ∀ byte ∈ ends, byte = ascii '\r' ∨ byte = ascii '\n') :
    (line.map ascii ++ ends).map keyOf =
      (line :: List.replicate (ends.length - 1) []).flatMap fun line => line.map .insert ++ [.enter] := by
  have hkeys : ends.map keyOf = List.replicate ends.length .enter := by
    refine List.eq_replicate_iff.mpr ⟨List.length_map _, fun key hkey => ?_⟩
    obtain ⟨byte, hbyte, rfl⟩ := List.mem_map.mp hkey
    rcases hend byte hbyte with rfl | rfl <;> decide
  have hlength : ends.length = ends.length - 1 + 1 := by
    have := List.length_pos_iff.mpr hends
    omega
  rw [List.map_append, List.map_map, hkeys, List.flatMap_cons, flatMap_replicate_nil, List.append_assoc,
    List.singleton_append, ← List.replicate_succ, ← hlength]
  exact congrArg (· ++ _) (List.map_congr_left fun d hd => keyOf_ascii (hline d hd))

/-- Lines of printable characters come in, and behind each of them `ends`, one or more carriage returns and line
    feeds; at which of the polls a byte is found, and whether it comes from the serial line or from the keyboard, does
    not matter. Then calls of `read_line`, for secrets or not, return the lines in order, and behind each of them an
    empty one for every byte of `ends` but the first: a terminal that ends its lines with `\r\n` answers every other
    prompt with nothing. -/
theorem readLines_of_delivered (font : Font) (c : Console) {lines : List Str}
    (hlines : ∀ line ∈ lines, ∀ d ∈ line, isPrintable d = true) {ends : Bytes} (hends : ends ≠ [])
    (hend : ∀ byte ∈ ends, byte = ascii '\r' ∨ byte = ascii '\n') {polls : List Poll}
    (hpolls : delivered c.target polls c.arch = lines.flatMap fun line => line.map ascii ++ ends)
    {calls : List (Str × Bool)} (hcalls : calls.length = lines.length * ends.length) :
    readLines font calls polls c =
      lines.flatMap fun line => some line :: List.replicate (ends.length - 1) (some []) := by
  have hread : readLines font calls polls c =
      (lines.flatMap fun line => line :: List.replicate (ends.length - 1) []).map some := by
    refine readLines_eq font ?_ ?_
    · have hlength : ends.length - 1 + 1 = ends.length := by
        have := List.length_pos_iff.mpr hends
        omega
      simp [hcalls, List.length_flatMap, hlength]
    · rw [hpolls]
      clear hpolls hcalls
      -- by the lines: the keys of one line with its ends are those of the line and of empty ones
      induction lines with
      | nil => rfl
      | cons line lines ih =>
        rw [List.flatMap_cons, List.map_append, map_keyOf_line (hlines line List.mem_cons_self) hends hend,
          ih fun line' hline' => hlines line' (List.mem_cons_of_mem _ hline'), ← List.flatMap_append]
        rfl
  rw [hread, List.map_flatMap]
  simp

/-- A password, sent by a terminal that ends its lines with `\r\n`, with polls in between that find nothing, and one
    that finds a key of the keyboard let go: the prompt that asks for it again gets nothing. -/
theorem readLines_of_crlf :
    readLines (fun _ => none) [("New password: ".toList, true), ("Confirm password: ".toList, true)]
      [⟨none, none⟩, ⟨some 0x61, none⟩, ⟨none, some 0x9e⟩, ⟨none, none⟩, ⟨some 0x62, none⟩, ⟨some 0x0d, none⟩,
        ⟨none, none⟩, ⟨some 0x0a, none⟩] ⟨.x86_64, .new, [], none⟩ =
      [some ['a', 'b'], some []] :=
  @readLines_of_delivered (fun _ => none) ⟨.x86_64, .new, [], none⟩ [['a', 'b']] (by simp; decide) [0x0d, 0x0a]
    (by decide) (by simp; decide) _ (by decide) _ rfl

/-! ## Clearing -/

section Clearing

open FramebufferConsole

/-- What is done to the console: a text is written, or it is cleared. These are the two ways in which its screen
    changes. -/
inductive ConsoleOp where
  | write (text : Str)
  | clear

def apply (font : Font) (c : Console) : ConsoleOp → Console
  | .write text => c.writeText font text
  | .clear => c.clear font

variable {font : Font}

/-- The screen of the console, if it has one, is in bounds and of this size. -/
def ScreenFits (size : Nat × Nat × Nat) (c : Console) : Prop :=
  ∀ screen, c.framebuffer = some screen → InBounds screen ∧ screen.screen = size

theorem ScreenFits.writeText {size : Nat × Nat × Nat} {c : Console} (h : c.ScreenFits size) (hfont : Fits font)
    (text : Str) : (c.writeText font text).ScreenFits size := by
  intro screen' hscreen'
  obtain ⟨screen, hscreen, rfl⟩ := Option.map_eq_some_iff.mp hscreen'
  exact Along.invariant (P := fun _ _ => True) (fun screen => InBounds screen ∧ screen.screen = size)
    (fun screen character hs _ => ⟨(hs.1.putChar hfont character).1, (hs.1.putChar hfont character).2.trans hs.2⟩)
    (Along.of_forall (fun _ _ => trivial) screen text) (h screen hscreen)

theorem ScreenFits.clear {size : Nat × Nat × Nat} {c : Console} (h : c.ScreenFits size) (hfont : Fits font) :
    (c.clear font).ScreenFits size := by
  intro screen' hscreen'
  obtain ⟨screen, hscreen, rfl⟩ := Option.map_eq_some_iff.mp hscreen'
  obtain ⟨hbounds, hsize⟩ := h.writeText hfont _ screen hscreen
  exact ⟨hbounds.clear, hsize⟩

/-- The escape sequence with which a terminal is cleared is text to the screen, and is drawn on it like any other.
    Nothing of it is left when `clear` is done, nor of anything that was written before: the screen is black, and the
    cursor at its upper left corner. None of this was outside of the memory of the screen. -/
theorem clear_blanks_screen (hfont : Fits font) (framebuffer : Framebuffer)
    (hpitch : 4 * framebuffer.width ≤ framebuffer.pitch) (target : TargetArch) (arch : ArchIo) (serial : Bytes)
    (ops : List ConsoleOp) {c : Console}
    (hrun : c = runFrom (apply font) ⟨target, arch, serial, FramebufferConsole.new framebuffer⟩ ops) :
    (c.clear font).serial = c.serial ++ asBytes "\x1b[2J\x1b[H".toList ∧
      ∀ screen, (c.clear font).framebuffer = some screen →
        screen.cursorX = 0 ∧ screen.cursorY = 0 ∧
          (∀ i < framebuffer.height * framebuffer.pitch, screen.memory.bytes i = 0) ∧
          ∀ access ∈ screen.memory.accesses, access.offset + access.len ≤ framebuffer.height * framebuffer.pitch := by
  -- what is written and cleared keeps the screen in bounds, whatever the order
  have hfits : c.ScreenFits (framebuffer.width, framebuffer.height, framebuffer.pitch) := by
    rw [hrun]
    refine Along.invariant (P := fun _ _ => True) (ScreenFits (framebuffer.width, framebuffer.height, framebuffer.pitch))
      (fun c op hc _ => ?_) (Along.of_forall (fun _ _ => trivial) _ ops) fun screen hnew => inBounds_of_new hpitch hnew
    cases op with
    | write text => exact hc.writeText hfont text
    | clear => exact hc.clear hfont
  refine ⟨rfl, fun screen hscreen => ?_⟩
  obtain ⟨hbounds, hsize⟩ := hfits.clear hfont screen hscreen
  obtain ⟨hheight, hlines⟩ := Prod.mk.inj (Prod.mk.inj hsize).2
  rw [← hheight, ← hlines]
  obtain ⟨drawn, -, rfl⟩ := Option.map_eq_some_iff.mp hscreen
  refine ⟨rfl, rfl, fun i hi => ?_, hbounds.memory⟩
  exact if_pos ⟨Nat.zero_le i, by rw [Nat.zero_add]; exact hi⟩

/-- The white pixel at the upper left corner is there after the first character, and gone when the screen is cleared. -/
theorem clear_blanks_small_screen : ∃ screen screen',
    ((Console.mk .x86_64 .new [] (FramebufferConsole.new smallFramebuffer)).writeText squareFont ['a']).framebuffer =
        some screen ∧ screen.memory.bytes 0 = 255 ∧
      (((Console.mk .x86_64 .new [] (FramebufferConsole.new smallFramebuffer)).writeText squareFont ['a']).clear
        squareFont).framebuffer = some screen' ∧ screen'.memory.bytes 0 = 0 ∧ screen'.cursorX = 0 := by
  obtain ⟨-, hblank⟩ := clear_blanks_screen fits_squareFont smallFramebuffer (by decide) .x86_64 .new []
    [.write ['a']] rfl
  obtain ⟨hx, -, hbytes, -⟩ := hblank _ rfl
  exact ⟨_, _, rfl, by decide +kernel, rfl, hbytes 0 (by decide), hx⟩

end Clearing

end Console

end Afos
