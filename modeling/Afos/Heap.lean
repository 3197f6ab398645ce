import Afos.Lib.Align
import Afos.Lib.Fold
import Afos.Lib.Text

/-!
# Where the heap goes

`initialize_heap` of `platforms/bare-metal/src/main.rs`, with `phys_to_virt` of `memory.rs`. The loader hands
over a memory map, any list of 64-bit entries; the kernel takes the usable entry with the most room for whole
pages, up to a limit. An entry on which the arithmetic would leave 64 bits is passed over. What `fail` is
called with is the error here.
-/

set_option autoImplicit false

namespace Afos

open Lib

def maxHeapSize : UInt64 := 128 * 1024 * 1024

def minHeapSize : UInt64 := 8 * 1024 * 1024

def pageSize : UInt64 := 4096

/-- An entry of the loader's memory map. Source name of the last field: `type_`. Nothing is assumed of the numbers:
    entries may overlap, and may end beyond 64 bits. -/
structure MemmapEntry where
  base : UInt64
  length : UInt64
  kind : UInt64
  deriving DecidableEq

/-- Source name: `MEMMAP_USABLE`. All other kinds of memory are left alone, also those that could be reclaimed
    later. -/
def memmapUsable : UInt64 := 0

/-- The pages that an entry offers, if they are enough: the first address and the length. The beginning is rounded up
    and the length down, each with a mask. -/
def heapCandidate (entry : MemmapEntry) : Option (UInt64 × UInt64) := do
  let sum ← checkedAdd entry.base (pageSize - 1)
  let aligned := sum &&& ~~~(pageSize - 1)
  let skipped ← checkedSub aligned entry.base
  let rest ← checkedSub entry.length skipped
  let available := rest &&& ~~~(pageSize - 1)
  if minHeapSize ≤ available then some (aligned, min available maxHeapSize) else none

/-- The longest candidate, and the last of several, as `max_by_key` has it. The limit is applied before the
    comparison, so all that reach it are the same length. -/
def selectHeap (entries : List MemmapEntry) : Option (UInt64 × UInt64) :=
  maxByKey (fun region => region.2.toNat)
    ((entries.filter fun entry => entry.kind == memmapUsable).filterMap heapCandidate)

/-- A physical address in the direct map at `hhdm`; the null pointer is none. An address for which the sum overflows
    is not in the map. -/
def physToVirt (hhdm address : UInt64) : Option UInt64 :=
  (checkedAdd address hhdm).bind fun pointer => if pointer = 0 then none else some pointer

/-- The memory that the allocator is given: pointer and length. The two answers of the loader are asked for in this
    order, and the first that is missing names the failure. -/
def initializeHeap (hhdm : Option UInt64) (memoryMap : Option (List MemmapEntry)) :
    Except Str (UInt64 × UInt64) :=
  match hhdm, memoryMap with
  | none, _ => .error "Limine did not provide a higher-half direct map".toList
  | some _, none => .error "Limine did not provide a memory map".toList
  | some hhdm, some entries =>
      match selectHeap entries with
      | none => .error "no suitable usable memory region exists for the heap".toList
      | some (physical, length) =>
          match physToVirt hhdm physical with
          | none => .error "heap address is outside the higher-half direct map".toList
          | some pointer => .ok (pointer, length)

end Afos
