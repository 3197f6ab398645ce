import Afos.Lib.Align
import Afos.Lib.Paging

/-!
# The page of the serial port

`initialize_pl011` and `map_device_page` of `platforms/bare-metal/src/arch.rs`, for 64-bit ARM. Limine hands over
translation tables in which the serial port may not be mapped; the kernel walks down the active tables itself,
through the direct map, puts in its own three tables where one is missing, and enters a page for the port.

Memory is seen by words of 8 bytes at physical addresses. That a pointer into the direct map or into the image of the
kernel leads to the physical address that Limine has told is part of the reading of these pointers.
-/

set_option autoImplicit false

namespace Afos

open Lib

/-- What the translation of high addresses depends on: two registers, and the memory. The word with the number `n` is
    at the physical address `8 * n`. -/
structure Mmu where
  ttbr1 : UInt64
  mair : UInt64
  words : Nat → UInt64

/-- Where things are: the direct map, the three reserved tables (`DEVICE_PAGE_TABLES`), and the image of the kernel. -/
structure Placement where
  hhdm : UInt64
  tablesVirtual : UInt64
  executablePhysical : UInt64
  executableVirtual : UInt64

def saturatingAdd (a b : UInt64) : UInt64 := if a.toNat + b.toNat < 2 ^ 64 then a + b else 0xffffffffffffffff

namespace Placement

/-- The word that a pointer into the direct map is for. The direct map is all of the physical memory at an offset, so
    the offset comes off again. -/
def directWord (p : Placement) (pointer : UInt64) : Nat := (pointer - p.hhdm).toNat / 8

/-- The word that a pointer into the image of the kernel is for. The image is in one piece, so the distance from its
    beginning is the same in both kinds of addresses. -/
def imageWord (p : Placement) (pointer : UInt64) : Nat :=
  (pointer - p.executableVirtual + p.executablePhysical).toNat / 8

end Placement

def addressMask : UInt64 := 0x0000fffffffff000

def uartPhysical : UInt64 := 0x09000000

def uartVirtual : UInt64 := 0xfffffffd09000000

/-- Source name: `indices`. Nine bits of the address for each of the four levels of tables, from the top one down. -/
def uartIndices : List UInt64 :=
  [(uartVirtual >>> 39) &&& 0x1ff, (uartVirtual >>> 30) &&& 0x1ff, (uartVirtual >>> 21) &&& 0x1ff,
    (uartVirtual >>> 12) &&& 0x1ff]

/-- Source name: `write_volatile`. One word is changed, and every other one is as it was. -/
def writeWord (words : Nat → UInt64) (n : Nat) (value : UInt64) : Nat → UInt64 := fun k =>
  if k = n then value else words k

/-- The words of a page, all zero. Source name: `write_bytes`. A table that is put in has no entry before its first
    one is written. -/
def zeroPage (words : Nat → UInt64) (first : Nat) : Nat → UInt64 := fun k =>
  if first ≤ k ∧ k < first + 512 then 0 else words k

/-- The pointer to an entry of the table at a physical address, by way of the direct map. -/
def Placement.entry (p : Placement) (table index : UInt64) : UInt64 := saturatingAdd p.hhdm table + 8 * index

/-- The loop over the first three levels: the table that it comes to, and the memory then. A descriptor that is not a
    table is overwritten, also when it is a block; the reserved table of the level takes its place. -/
def descend (p : Placement) (reservedTablesPhysical : UInt64) :
    List (UInt64 × UInt64) → (Nat → UInt64) → UInt64 → (Nat → UInt64) × UInt64
  | [], words, currentTable => (words, currentTable)
  | (level, index) :: rest, words, currentTable =>
    let entry := p.entry currentTable index
    let descriptor := words (p.directWord entry)
    if descriptor &&& 0b11 == 0b11 then
      descend p reservedTablesPhysical rest words (descriptor &&& addressMask)
    else
      let nextPhysical := reservedTablesPhysical + level * 4096
      let words := zeroPage words (p.imageWord (p.tablesVirtual + level * 4096))
      let words := writeWord words (p.directWord entry) (nextPhysical ||| 0b11)
      descend p reservedTablesPhysical rest words nextPhysical

/-- `AttrIdx` 2; read and written by the kernel only, outer-shareable, accessed, and never executed. The slot with
    this number is set to device memory by `mapDevicePage`. -/
def uartDescriptor : UInt64 :=
  let shifted (value places : UInt64) : UInt64 := value <<< places
  uartPhysical ||| 0b11 ||| shifted 2 2 ||| shifted 0b10 8 ||| shifted 1 10 ||| shifted 1 53 ||| shifted 1 54

/-- Enter the page of the serial port. The two tests come before anything is written, so a `false` leaves tables and
    registers as they were. -/
def mapDevicePage (p : Placement) (m : Mmu) : Bool × Mmu :=
  if p.hhdm == 0 then (false, m)
  else
    match checkedSub p.tablesVirtual p.executableVirtual with
    | none => (false, m)
    | some tablesOffset =>
      let reservedTablesPhysical := saturatingAdd p.executablePhysical tablesOffset
      let root := m.ttbr1 &&& addressMask
      let levels := [0, 1, 2].zip (uartIndices.take 3)
      let (words, currentTable) := descend p reservedTablesPhysical levels m.words root
      let last := p.entry currentTable ((uartVirtual >>> 12) &&& 0x1ff)
      (true, { m with
        words := writeWord words (p.directWord last) uartDescriptor
        mair := m.mair &&& ~~~((0xff : UInt64) <<< 16) })

/-- What is written to the registers of the port at `base`, in order: the port is switched off, set up, and switched
    on again. Source name: `write_register`. -/
def registerWrites (base : UInt64) : List (UInt64 × UInt32) :=
  [(base + 0x30, 0), (base + 0x24, 13), (base + 0x28, 1), (base + 0x2c, 0x70), (base + 0x38, 0x7ff),
    (base + 0x30, 0x301)]

/-- The address of the serial port, what is written to its registers, and the memory then. Without an address of the
    image there are no tables to put in. -/
def initializePl011 (hhdm tablesVirtual : UInt64) (executableAddress : Option (UInt64 × UInt64)) (m : Mmu) :
    UInt64 × List (UInt64 × UInt32) × Mmu :=
  let mapped :=
    match executableAddress with
    | none => (none, m)
    | some (physical, virtualAddress) =>
      match mapDevicePage ⟨hhdm, tablesVirtual, physical, virtualAddress⟩ m with
      | (true, m) => (some uartVirtual, m)
      | (false, m) => (none, m)
  let base := mapped.1.getD (saturatingAdd hhdm uartPhysical)
  (base, registerWrites base, mapped.2)

/-! ## What the processor makes of the tables

Four levels of tables of 512 words, for pages of 4 KiB. -/

namespace Mmu

def frameOf (address : UInt64) : Nat := address.toNat / 4096

/-- A word in a table with so many levels below it. A block stands for a page on the two levels in the middle. -/
def decode (below : Nat) (descriptor : UInt64) : Entry Nat UInt64 :=
  if descriptor &&& 0b11 == 0b11 then
    if below = 0 then .leaf descriptor else .table (frameOf (descriptor &&& addressMask))
  else if descriptor &&& 0b11 == 0b01 ∧ (below = 1 ∨ below = 2) then .leaf descriptor
  else .fault

def tables (words : Nat → UInt64) (frame : Nat) (i : Fin 512) : UInt64 := words (512 * frame + i)

def root (m : Mmu) : Nat := frameOf (m.ttbr1 &&& addressMask)

/-- The index of an address in the table that has so many levels below it: nine bits, above the twelve of the offset
    in a page. -/
def index (address : UInt64) (below : Nat) : Fin 512 := Fin.ofNat 512 (address.toNat / 2 ^ (12 + 9 * below))

def indices (address : UInt64) : List (Fin 512) :=
  [index address 3, index address 2, index address 1, index address 0]

/-- The page or block of an address: its descriptor, and its size. The tables are those for the upper half. -/
def lookup (m : Mmu) (address : UInt64) : Option (UInt64 × Nat) :=
  if address.toNat / 2 ^ 48 = 0xffff then
    (Paging.walk decode (tables m.words) m.root (indices address)).map fun (descriptor, rest) =>
      (descriptor, 2 ^ (12 + 9 * rest.length))
  else none

/-- What becomes of an access: the physical address, and how memory there may be used. The fields are as the
    descriptor has them, except for the kind of memory, which is looked up. -/
structure Translation where
  physical : Nat
  slot : UInt64
  memoryType : UInt64
  access : UInt64
  shareability : UInt64
  accessed : Bool
  executeNever : UInt64
  deriving DecidableEq

/-- Which of the eight slots of `MAIR_EL1` a descriptor names, in its bits 2 to 4. -/
def slot (descriptor : UInt64) : UInt64 := (descriptor >>> 2) &&& 7

/-- What kind of memory a slot is for: one byte of the register. Zero is device memory of the strictest kind. -/
def memoryType (mair slot : UInt64) : UInt64 := (mair >>> (slot * 8)) &&& 0xff

def translation (mair address descriptor : UInt64) (size : Nat) : Translation where
  physical := (descriptor &&& addressMask).toNat / size * size + address.toNat % size
  slot := slot descriptor
  memoryType := memoryType mair (slot descriptor)
  access := (descriptor >>> 6) &&& 3
  shareability := (descriptor >>> 8) &&& 3
  accessed := (descriptor >>> 10) &&& 1 == 1
  executeNever := (descriptor >>> 53) &&& 3

/-- The processor's side of it. Nothing of this is in the source: it is what the tables are for, and what the results
    about `mapDevicePage` are stated with. -/
def translate (m : Mmu) (address : UInt64) : Option Translation :=
  (m.lookup address).map fun (descriptor, size) => translation m.mair address descriptor size

end Mmu

end Afos
