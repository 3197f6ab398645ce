import Afos.Heap

/-!
# The heap is memory the kernel was given

What the masks and the checked operations compute, in numbers: an entry offers the pages from the first page
boundary at or above its base, as far as it reaches, and is passed over if that boundary is beyond 64 bits or
the pages are too few. From this, the region that is selected is part of a usable entry and no usable entry
has a longer one up to the limit; and none is selected exactly if none is large enough.
-/

set_option autoImplicit false

namespace Afos

open Lib

/-- Page boundaries of the region from `start`, inside of a usable entry and in 64 bits. Any region that could have
    been taken is of this form. -/
structure Offers (entry : MemmapEntry) (start len : Nat) : Prop where
  usable : entry.kind = memmapUsable
  above : entry.base.toNat ≤ start
  inside : start + len ≤ entry.base.toNat + entry.length.toNat
  start_page : 4096 ∣ start
  len_page : 4096 ∣ len
  addressable : start < 2 ^ 64

/-- The room that an entry has from its first page boundary on, in whole pages. -/
def room (entry : MemmapEntry) : Nat :=
  (entry.base.toNat + entry.length.toNat - roundUp 4096 entry.base.toNat) / 4096 * 4096

theorem toNat_page_mask (x : UInt64) : (x &&& ~~~(pageSize - 1)).toNat = x.toNat / 4096 * 4096 :=
  toNat_and_not (k := 12) (by decide) (by decide) x

/-- What an entry offers, in numbers: it begins at the first page boundary, and is as long as there is room, up to the
    limit. -/
theorem heapCandidate_eq_some_iff {entry : MemmapEntry} {start len : UInt64} :
    heapCandidate entry = some (start, len) ↔
      start.toNat = roundUp 4096 entry.base.toNat ∧ minHeapSize.toNat ≤ room entry ∧
        len.toNat = min (room entry) maxHeapSize.toNat := by
  have hpage : (pageSize - 1).toNat = 4095 := by decide
  have hmin : minHeapSize.toNat = 8388608 := by decide
  have hup : roundUp 4096 entry.base.toNat = (entry.base.toNat + 4095) / 4096 * 4096 := rfl
  have hlength := entry.length.toNat_lt
  rw [heapCandidate, room]
  simp only [Option.bind_eq_bind, Option.bind_eq_some_iff, checkedAdd_eq_some_iff, checkedSub_eq_some_iff,
    hpage, toNat_page_mask]
  -- both checked subtractions succeed where the rounding up does not leave the entry
  constructor
  · rintro ⟨sum, hsum, skipped, ⟨hle, hskipped⟩, rest, ⟨hle', hrest⟩, h⟩
    have hroom : entry.base.toNat + entry.length.toNat - roundUp 4096 entry.base.toNat = rest.toNat := by
      omega
    split at h
    · rename_i henough
      obtain ⟨rfl, rfl⟩ := Prod.mk.inj (Option.some.inj h)
      rw [UInt64.le_iff_toNat_le, toNat_page_mask] at henough
      rw [toNat_min, toNat_page_mask, toNat_page_mask, hroom, hsum]
      exact ⟨rfl, henough, rfl⟩
    · cases h
  · rintro ⟨hstart, hroom, hlen⟩
    have hlt := start.toNat_lt
    obtain ⟨sum, hsum⟩ := exists_toNat_eq (n := entry.base.toNat + 4095) (by omega)
    obtain ⟨skipped, hskipped⟩ := exists_toNat_eq (n := start.toNat - entry.base.toNat) (by omega)
    obtain ⟨rest, hrest⟩ := exists_toNat_eq (n := entry.length.toNat - skipped.toNat) (by omega)
    have haligned : sum &&& ~~~(pageSize - 1) = start := by
      rw [← UInt64.toNat_inj, toNat_page_mask, hsum, hstart, hup]
    have havailable : (rest &&& ~~~(pageSize - 1)).toNat =
        (entry.base.toNat + entry.length.toNat - roundUp 4096 entry.base.toNat) / 4096 * 4096 := by
      rw [toNat_page_mask]
      congr 2
      omega
    refine ⟨sum, hsum, skipped, ⟨by omega, by omega⟩, rest, ⟨by omega, hrest⟩, ?_⟩
    rw [if_pos (UInt64.le_iff_toNat_le.mpr (by rw [havailable]; exact hroom)), haligned, Option.some.injEq,
      Prod.mk.injEq, ← UInt64.toNat_inj, ← UInt64.toNat_inj, toNat_min, havailable]
    exact ⟨rfl, hlen.symm⟩

/-- Any region that an entry offers is at most as long as the one from its first page boundary. So nothing is lost by
    looking at that one only. -/
theorem Offers.le_room {entry : MemmapEntry} {start len : Nat} (h : Offers entry start len) :
    roundUp 4096 entry.base.toNat < 2 ^ 64 ∧ len ≤ room entry := by
  have hup := roundUp_le (by decide) h.start_page h.above
  have haddressable := h.addressable
  have hinside := h.inside
  obtain ⟨pages, rfl⟩ := h.len_page
  rw [room]
  omega

/-- The candidates are those of the usable entries. -/
theorem mem_candidates_iff {entries : List MemmapEntry} {region : UInt64 × UInt64} :
    region ∈ (entries.filter fun entry => entry.kind == memmapUsable).filterMap heapCandidate ↔
      ∃ entry ∈ entries, entry.kind = memmapUsable ∧ heapCandidate entry = some region := by
  simp only [List.mem_filterMap, List.mem_filter, beq_iff_eq, and_assoc]

/-- An entry with enough room is a candidate. -/
theorem exists_heapCandidate {entry : MemmapEntry} (hup : roundUp 4096 entry.base.toNat < 2 ^ 64)
    (hroom : minHeapSize.toNat ≤ room entry) : ∃ start len, heapCandidate entry = some (start, len) ∧
      len.toNat = min (room entry) maxHeapSize.toNat := by
  obtain ⟨start, hstart⟩ := exists_toNat_eq hup
  obtain ⟨len, hlen⟩ := exists_toNat_eq (n := min (room entry) maxHeapSize.toNat)
    (lt_of_le_of_lt (Nat.min_le_right _ _) maxHeapSize.toNat_lt)
  exact ⟨start, len, heapCandidate_eq_some_iff.mpr ⟨hstart, hroom, hlen⟩, hlen⟩

/-- **The heap is where it may be.** A region that is selected lies in a usable entry, consists of whole
    pages, between 8 and 128 MiB, and no usable entry offers one that is longer up to the limit. None is
    selected exactly if no usable entry has 8 MiB of pages from its first page boundary on. -/
theorem heap_selection_sound_and_complete (entries : List MemmapEntry) :
    (∀ start len, selectHeap entries = some (start, len) →
      (∃ entry ∈ entries, entry.kind = memmapUsable ∧ entry.base.toNat ≤ start.toNat ∧
        start.toNat + len.toNat ≤ entry.base.toNat + entry.length.toNat) ∧
      4096 ∣ start.toNat ∧ 4096 ∣ len.toNat ∧ 8 * 1024 * 1024 ≤ len.toNat ∧
      len.toNat ≤ 128 * 1024 * 1024 ∧
      ∀ entry ∈ entries, ∀ start' len', Offers entry start' len' →
        min len' (128 * 1024 * 1024) ≤ len.toNat) ∧
    (selectHeap entries = none ↔
      ¬ ∃ entry ∈ entries, entry.kind = memmapUsable ∧ roundUp 4096 entry.base.toNat < 2 ^ 64 ∧
        ∃ len, 4096 ∣ len ∧ 8 * 1024 * 1024 ≤ len ∧
          roundUp 4096 entry.base.toNat + len ≤ entry.base.toNat + entry.length.toNat) := by
  have hmin : minHeapSize.toNat = 8 * 1024 * 1024 := by decide
  have hmax : maxHeapSize.toNat = 128 * 1024 * 1024 := by decide
  refine ⟨fun start len h => ?_, ?_⟩
  · -- the longest candidate is that of a usable entry, and any region on offer is no longer than its candidate
    obtain ⟨hmem, hlongest⟩ := maxByKey_spec _ h
    obtain ⟨entry, hentry, husable, hcandidate⟩ := mem_candidates_iff.mp hmem
    obtain ⟨hstart, hroom, hlen⟩ := heapCandidate_eq_some_iff.mp hcandidate
    have hbase := le_roundUp (by decide : 0 < 4096) entry.base.toNat
    have hpages : room entry = (entry.base.toNat + entry.length.toNat - roundUp 4096 entry.base.toNat) /
      4096 * 4096 := rfl
    refine ⟨⟨entry, hentry, husable, by omega, by omega⟩, hstart ▸ dvd_roundUp _, ?_, by omega, by omega, ?_⟩
    · omega
    · intro entry' hentry' start' len' hoffers
      obtain ⟨hup, hle⟩ := hoffers.le_room
      by_cases henough : minHeapSize.toNat ≤ room entry'
      · obtain ⟨a, b, hcandidate', hb⟩ := exists_heapCandidate hup henough
        have hlonger := hlongest (a, b)
          (mem_candidates_iff.mpr ⟨entry', hentry', hoffers.usable, hcandidate'⟩)
        dsimp only at hlonger
        omega
      · omega
  · -- an entry with enough room is a candidate, and a candidate has enough room
    rw [selectHeap, maxByKey_eq_none_iff, List.eq_nil_iff_forall_not_mem]
    constructor
    · rintro hnone ⟨entry, hentry, husable, hup, len, ⟨pages, rfl⟩, henough, hinside⟩
      have hroom : minHeapSize.toNat ≤ room entry := by
        rw [room]
        omega
      obtain ⟨a, b, hcandidate, -⟩ := exists_heapCandidate hup hroom
      exact hnone (a, b) (mem_candidates_iff.mpr ⟨entry, hentry, husable, hcandidate⟩)
    · intro hnone region hmem
      obtain ⟨entry, hentry, husable, hcandidate⟩ := mem_candidates_iff.mp hmem
      obtain ⟨hstart, hroom, -⟩ := heapCandidate_eq_some_iff.mp hcandidate
      have hlt := region.1.toNat_lt
      refine hnone ⟨entry, hentry, husable, by omega, room entry, Dvd.intro_left _ rfl, by omega, ?_⟩
      rw [room] at hroom ⊢
      omega

/-- A usable entry of 16 MiB, a longer one that begins just behind a page boundary, and one that is longer still and
    reserved. -/
def threeEntries : List MemmapEntry :=
  [⟨0x100000, 0x1000000, 0⟩, ⟨0x1000001, 0x10000000, 0⟩, ⟨0, 0xFFFFFFFFFFFFFFFF, 1⟩]

/-- The heap begins at the first page boundary of the second, at the limit of its length. The 16 MiB of the first were
    on offer too. -/
theorem heap_selected_from_three_entries :
    selectHeap threeEntries = some (0x1001000, 0x8000000) ∧
      (∃ entry ∈ threeEntries, entry.kind = memmapUsable ∧ entry.base.toNat ≤ (0x1001000 : UInt64).toNat ∧
        (0x1001000 : UInt64).toNat + (0x8000000 : UInt64).toNat ≤ entry.base.toNat + entry.length.toNat) ∧
      min 0x1000000 (128 * 1024 * 1024) ≤ (0x8000000 : UInt64).toNat := by
  have hselected : selectHeap threeEntries = some (0x1001000, 0x8000000) := by decide +kernel
  obtain ⟨hinside, -, -, -, -, hlongest⟩ := (heap_selection_sound_and_complete threeEntries).1 _ _ hselected
  have hoffers : Offers ⟨0x100000, 0x1000000, 0⟩ 0x100000 0x1000000 := by
    exact ⟨rfl, by decide, by decide, by decide, by decide, by decide⟩
  exact ⟨hselected, hinside, hlongest _ List.mem_cons_self _ _ hoffers⟩

end Afos
