import Afos.Machine
import Afos.Rhai

/-!
# Text received in chunks

A script that reads a connection to its end gets the stream in chunks, cut by the lengths it asks for and by
what the network had at the time, and each chunk decoded for itself. A character that is cut in two comes
out as two or more replacements and is lost. So the texts of the chunks are the text of the stream exactly
if no character is cut.
-/

set_option autoImplicit false

namespace Afos

open Lib

namespace Rhai

section Receiving

variable {σ : Type} [Platform σ]

theorem netHandleFromInt_natCast (handle : Nat) : netHandleFromInt handle = .ok handle :=
  if_neg (not_lt.mpr (Int.natCast_nonneg handle))

theorem receiveLength_natCast (max : Nat) : receiveLength max = .ok max :=
  if_neg (not_lt.mpr (Int.natCast_nonneg max))

/-- The binding returns the text of what the session returns, with replacements where it is none. -/
theorem netRecv_natCast (handle max : Nat) :
    (netRecv handle max : Op Error (AppSession σ) Str) =
      fromUtf8Lossy <$> AppSession.netRecv handle max := by
  funext s
  rw [netRecv, netHandleFromInt_natCast, Op.run_bind_ok (Op.run_ofExcept _ s), receiveLength_natCast,
    Op.run_bind_ok (Op.run_ofExcept _ s)]
  rfl

/-- The texts that a script gets, chunk by chunk, are the chunks of the session decoded each by itself. -/
theorem recvEach_ok {handle : Nat} {maxes : List Nat} {chunks : List Bytes} {s s' : AppSession σ}
    (h : AppSession.recvEach handle maxes s = (.ok chunks, s')) :
    recvEach handle (maxes.map Nat.cast) s = (.ok (chunks.map fromUtf8Lossy), s') := by
  -- by the lengths that are asked for; each chunk is decoded for itself
  induction maxes generalizing chunks s with
  | nil =>
    cases h
    rfl
  | cons max maxes ih =>
    obtain ⟨chunk, s₁, hchunk, h⟩ := Op.bind_ok h
    obtain ⟨rest, s₂, hrest, h⟩ := Op.bind_ok h
    cases h
    have hfirst : netRecv handle max s = (.ok (fromUtf8Lossy chunk), s₁) := by
      rw [netRecv_natCast, Op.run_map, hchunk]
    rw [List.map_cons, recvEach, Op.run_bind_ok hfirst, Op.run_bind_ok (ih hrest)]
    rfl

/-- Of a stream of text that is received in chunks, a script gets the text exactly if no character is
    cut: if every chunk is text by itself. -/
theorem received_text_iff {handle : Nat} {maxes : List Nat} {chunks : List Bytes} {s s' : AppSession σ}
    (h : AppSession.recvEach handle maxes s = (.ok chunks, s')) (hne : ∀ chunk ∈ chunks, chunk ≠ [])
    {text : Str} (hstream : chunks.flatten = asBytes text) :
    ∃ texts, recvEach handle (maxes.map Nat.cast) s = (.ok texts, s') ∧
      (texts.flatten = text ↔ ∀ chunk ∈ chunks, (fromUtf8 chunk).isSome = true) :=
  ⟨_, recvEach_ok h, by rw [← List.flatMap_def, flatMap_fromUtf8Lossy_iff hne hstream]⟩

end Receiving

section Feeding

/-- A session with a connection on which a text is waiting, as its bytes. -/
def reading (text : Str) : AppSession Feed :=
  { AppSession.new (System.new ⟨asBytes text⟩) ⟨[], [], true, 1, []⟩ [] "/".toList with sockets := [0] }

/-- A letter of two bytes, received one byte at a time: two chunks, and two replacements. -/
theorem letter_lost :
    (AppSession.recvEach 0 [1, 1] (reading "é".toList)).1 = .ok [[0xC3], [0xA9]] ∧
      asBytes "é".toList = [0xC3, 0xA9] ∧
      (recvEach 0 [1, 1] (reading "é".toList)).1 = .ok [[replacement], [replacement]] ∧
      [[replacement], [replacement]].flatten ≠ "é".toList := by
  decide +kernel

/-- Cut after the first letter, the text is received: the cut falls between two characters. -/
theorem letters_received :
    ∃ texts, (recvEach 0 [1, 2] (reading "aé".toList)).1 = .ok texts ∧ texts.flatten = "aé".toList := by
  have hchunks : (AppSession.recvEach 0 [1, 2] (reading "aé".toList)).1 = .ok [[0x61], [0xC3, 0xA9]] := by
    decide +kernel
  cases hrun : AppSession.recvEach 0 [1, 2] (reading "aé".toList) with
  | mk r s' =>
    rw [hrun] at hchunks
    obtain rfl := hchunks
    have hstream : [[0x61], [0xC3, 0xA9]].flatten = asBytes "aé".toList := by decide
    obtain ⟨texts, htexts, hiff⟩ := received_text_iff hrun (by decide) hstream
    exact ⟨texts, congrArg Prod.fst htexts, hiff.mpr (by decide +kernel)⟩

end Feeding

end Rhai

end Afos
