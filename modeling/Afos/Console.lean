import Afos.Framebuffer

/-!
# The console

`Console` of `platforms/bare-metal/src/console.rs`, and the input half of `platforms/bare-metal/src/arch.rs`:
bytes from the serial line, and on an x86-64 from the keyboard, one poll at a time; lines edited out of them, with
an echo on the serial line and on the screen.

`read_line` polls until a line is finished, so here it is given what each poll finds, and while the line is not
finished it has no answer. What the ports answer at a poll does not depend on what was polled before.
-/

set_option autoImplicit false

namespace Afos

open Lib

/-- A byte of a character below 128, as the source writes it (`b'a'`). The tables below are kept in the source's own
    form with it. -/
def ascii (c : Char) : UInt8 := UInt8.ofNat c.toNat

/-- Source name: `cfg(target_arch)`. The choice is made when the kernel is compiled, so it is a field that never
    changes. -/
inductive TargetArch where
  | x86_64
  | aarch64
  deriving DecidableEq

/-- What the ports hold at a poll: a byte that has come in on the serial line, a scan code of the keyboard. -/
structure Poll where
  serial : Option UInt8
  scan : Option UInt8
  deriving DecidableEq

/-- What is known of the keyboard: which of the two keys that change the others are in effect. Left and right shift
    are one. -/
structure ArchIo where
  shift : Bool
  capsLock : Bool
  deriving DecidableEq

/-- The letters of `map_scan_code`, in the set of scan codes that the controller translates to. Only these are touched
    by caps lock. -/
def letter : UInt8 → Option UInt8
  | 0x1e => some (ascii 'a')
  | 0x30 => some (ascii 'b')
  | 0x2e => some (ascii 'c')
  | 0x20 => some (ascii 'd')
  | 0x12 => some (ascii 'e')
  | 0x21 => some (ascii 'f')
  | 0x22 => some (ascii 'g')
  | 0x23 => some (ascii 'h')
  | 0x17 => some (ascii 'i')
  | 0x24 => some (ascii 'j')
  | 0x25 => some (ascii 'k')
  | 0x26 => some (ascii 'l')
  | 0x32 => some (ascii 'm')
  | 0x31 => some (ascii 'n')
  | 0x18 => some (ascii 'o')
  | 0x19 => some (ascii 'p')
  | 0x10 => some (ascii 'q')
  | 0x13 => some (ascii 'r')
  | 0x1f => some (ascii 's')
  | 0x14 => some (ascii 't')
  | 0x16 => some (ascii 'u')
  | 0x2f => some (ascii 'v')
  | 0x11 => some (ascii 'w')
  | 0x2d => some (ascii 'x')
  | 0x15 => some (ascii 'y')
  | 0x2c => some (ascii 'z')
  | _ => none

/-- The other keys of `map_scan_code`, with and without shift. A code that is not in the table, and with it every key
    that has no character, is ignored. -/
def otherKey : UInt8 → Bool → Option UInt8
  | 0x02, false => some (ascii '1')
  | 0x03, false => some (ascii '2')
  | 0x04, false => some (ascii '3')
  | 0x05, false => some (ascii '4')
  | 0x06, false => some (ascii '5')
  | 0x07, false => some (ascii '6')
  | 0x08, false => some (ascii '7')
  | 0x09, false => some (ascii '8')
  | 0x0a, false => some (ascii '9')
  | 0x0b, false => some (ascii '0')
  | 0x02, true => some (ascii '!')
  | 0x03, true => some (ascii '@')
  | 0x04, true => some (ascii '#')
  | 0x05, true => some (ascii '$')
  | 0x06, true => some (ascii '%')
  | 0x07, true => some (ascii '^')
  | 0x08, true => some (ascii '&')
  | 0x09, true => some (ascii '*')
  | 0x0a, true => some (ascii '(')
  | 0x0b, true => some (ascii ')')
  | 0x0c, false => some (ascii '-')
  | 0x0c, true => some (ascii '_')
  | 0x0d, false => some (ascii '=')
  | 0x0d, true => some (ascii '+')
  | 0x1a, false => some (ascii '[')
  | 0x1a, true => some (ascii '\x7b')
  | 0x1b, false => some (ascii ']')
  | 0x1b, true => some (ascii '\x7d')
  | 0x27, false => some (ascii ';')
  | 0x27, true => some (ascii ':')
  | 0x28, false => some (ascii '\x27')
  | 0x28, true => some (ascii '\x22')
  | 0x29, false => some (ascii '\x60')
  | 0x29, true => some (ascii '~')
  | 0x2b, false => some (ascii '\\')
  | 0x2b, true => some (ascii '|')
  | 0x33, false => some (ascii ',')
  | 0x33, true => some (ascii '<')
  | 0x34, false => some (ascii '.')
  | 0x34, true => some (ascii '>')
  | 0x35, false => some (ascii '/')
  | 0x35, true => some (ascii '?')
  | 0x39, _ => some (ascii ' ')
  | 0x1c, _ => some (ascii '\n')
  | 0x0e, _ => some 8
  | 0x0f, _ => some (ascii '\t')
  | _, _ => none

/-- Source name: `u8::to_ascii_uppercase`. -/
def toAsciiUppercase (byte : UInt8) : UInt8 :=
  if ascii 'a' ≤ byte ∧ byte ≤ ascii 'z' then byte - 32 else byte

/-- Shift and caps lock cancel each other out on letters, and caps lock does nothing to the rest. -/
def mapScanCode (scan : UInt8) (shift caps : Bool) : Option UInt8 :=
  match letter scan with
  | some byte => some (if shift ^^ caps then toAsciiUppercase byte else byte)
  | none => otherKey scan shift

namespace ArchIo

def new : ArchIo := ⟨false, false⟩

/-- One scan code. The codes with the high bit are releases, of which only that of a shift key matters; the key itself
    shows as a byte when it goes down. -/
def keyboardRead (scan : Option UInt8) (io : ArchIo) : Option UInt8 × ArchIo :=
  match scan with
  | none => (none, io)
  | some scan =>
      if scan = 0x2a ∨ scan = 0x36 then (none, { io with shift := true })
      else if scan = 0xaa ∨ scan = 0xb6 then (none, { io with shift := false })
      else if scan = 0x3a then (none, { io with capsLock := !io.capsLock })
      else if scan &&& 0x80 ≠ 0 then (none, io)
      else (mapScanCode scan io.shift io.capsLock, io)

/-- The serial line comes first. While bytes come in on it the keyboard is not read, and its codes wait in the
    controller. -/
def pollByte (target : TargetArch) (poll : Poll) (io : ArchIo) : Option UInt8 × ArchIo :=
  match poll.serial with
  | some byte => (some byte, io)
  | none => match target with
    | .x86_64 => keyboardRead poll.scan io
    | .aarch64 => (none, io)

end ArchIo

/-- The serial line is what has gone out on it so far. The screen is optional: on a machine without one, or with one
    that `FramebufferConsole.new` does not take, the serial line is all there is. -/
structure Console where
  target : TargetArch
  arch : ArchIo
  serial : Bytes
  framebuffer : Option FramebufferConsole

/-- Source name: `u8::is_ascii_graphic`. The space is not among these, and `takeByte` makes an exception for it. -/
def isAsciiGraphic (byte : UInt8) : Bool := 0x21 ≤ byte && byte ≤ 0x7e

namespace Console

variable (font : Font)

/-- Source name: `write`. The same text goes to the serial line, as UTF-8, and to the screen, character by
    character. -/
def writeText (text : Str) (c : Console) : Console :=
  { c with
    serial := c.serial ++ asBytes text
    framebuffer := c.framebuffer.map (FramebufferConsole.writeText font · text) }

/-- The body of the loop of `read_line`: whether the line is finished, and the line. Every byte is handled by itself,
    so a character of several bytes never gets into a line. -/
def takeByte (secret : Bool) (byte : UInt8) (line : Str) (c : Console) : Bool × Str × Console :=
  if byte = ascii '\r' ∨ byte = ascii '\n' then (true, line, c.writeText font "\n".toList)
  else if byte = 8 ∨ byte = 127 then
    if line = [] then (false, line, c)
    else (false, line.dropLast, c.writeText font "\x08 \x08".toList)
  else if byte = ascii '\t' then
    (false, line ++ [' '], c.writeText font (if secret then "*".toList else " ".toList))
  else if isAsciiGraphic byte ∨ byte = ascii ' ' then
    let character := Char.ofNat byte.toNat
    (false, line ++ [character], c.writeText font (if secret then "*".toList else [character]))
  else (false, line, c)

/-- The loop of `read_line`, and the polls it has not made. A poll without a byte may still have changed what is known
    of the keyboard. -/
def readLoop (secret : Bool) : List Poll → Str → Console → Option Str × Console × List Poll
  | [], _, c => (none, c, [])
  | poll :: polls, line, c =>
      match ArchIo.pollByte c.target poll c.arch with
      | (none, arch) => readLoop secret polls line { c with arch }
      | (some byte, arch) =>
          match takeByte font secret byte line { c with arch } with
          | (true, line, c) => (some line, c, polls)
          | (false, line, c) => readLoop secret polls line c

def readLine (prompt : Str) (secret : Bool) (polls : List Poll) (c : Console) :
    Option Str × Console × List Poll :=
  readLoop font secret polls [] (c.writeText font prompt)

/-- The escape sequence is for the terminal at the other end of the serial line; the screen ignores its first
    character and draws the rest, before it is cleared itself. -/
def clear (c : Console) : Console :=
  let c := c.writeText font "\x1b[2J\x1b[H".toList
  { c with framebuffer := c.framebuffer.map FramebufferConsole.clear }

/-- Whether the byte of this poll is an escape. Any other byte is lost: it is not kept for the next line. -/
def pollCancel (poll : Poll) (c : Console) : Bool × Console :=
  let (byte, arch) := ArchIo.pollByte c.target poll c.arch
  (byte == some 0x1b, { c with arch })

end Console

end Afos
