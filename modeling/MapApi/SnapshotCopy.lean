/-
**A snapshot of a table, read and copied.**

A point read seeks the newest record of its key up to a sequence number; a range read walks over
the records between translated bounds and skips what it must.  Both answer the same question, and a
range is refused exactly when a plain map keyed by the user keys refuses it.

What a range read lists is therefore a table of its own: read back from a stream, in any order of
its items, it answers point reads of the keys in the range, from the snapshot's sequence number on,
as the table does at the snapshot.

Main definitions:

* `MapApi.Table.imported` — the table a stream of records is read into.

Main results:

* `MapApi.Table.seek_and_scan` — **point reads and range reads see the same snapshot**;
* `MapApi.Table.fromStream_perm` — a stream with one record per key is read into one table,
  whatever its order;
* `MapApi.Table.export_import` — **exporting a snapshot and importing it preserves it**.
-/

import MapApi.TableInvariant
import MapApi.View
import Mathlib.Data.List.Perm.Basic

set_option relaxedAutoImplicit false
set_option autoImplicit false

namespace MapApi

namespace Table

variable {K V : Type} [LinearOrder K]

/-! ### Reading a snapshot -/

/-- What a reader sees at a key of a paired table, and the answer of a point read. -/
theorem Paired.get_cases {t : Table K V} (ht : t.Paired) (k : K) (u : U64) :
    (∃ x, t.get k u = .ok x ∧
      Versions.IsLatest t.Holds (Upto u) k x.orderKey x.intoData) ∨
    (t.get k u = .ok .newNotFound ∧ ∀ m d, t.Holds k m d → ¬Upto u m) := by
  obtain ⟨r, hr⟩ := t.exists_sees k u
  match r with
  | none => exact Or.inr ⟨get_eq_of_sees hr, hr⟩
  | some (m, d) =>
      refine Or.inl ⟨.ofData m.seq d, ht.get_of_sees hr, ?_⟩
      rw [orderKey_ofData_of_fits (ht k m d hr.mem), SeqMarked.intoData_ofData]
      exact hr

/-- A range read of a paired table fails exactly when the range is inverted. -/
theorem Paired.range_fails_iff {t : Table K V} (ht : t.Paired) (r : RangeBounds K) (u : U64) :
    (∃ f, t.range r u = .error f) ↔ r.Inverted := by
  constructor
  · rintro ⟨f, hf⟩
    by_contra hr
    obtain ⟨out, hout⟩ := ht.range_ok hr u
    rw [hout] at hf
    cases hf
  · intro hr
    exact ⟨_, t.range_of_inverted hr u⟩

/-- **Seek and scan see the same snapshot.**  A point read answers the record of greatest marker up
to the sequence number, or *not found*; a range read is refused exactly when a map keyed by the user
keys refuses the range, and otherwise lists, in ascending order and once each, the keys of the range
that have a record up to the sequence number, with the answer of the point read. -/
theorem seek_and_scan {t : Table K V} (ht : t.Paired) :
    (∀ k u,
      (∃ x, t.get k u = .ok x ∧ t.Holds k x.orderKey x.intoData ∧ x.seq ≤ u ∧
        ∀ m d, t.Holds k m d → m.seq ≤ u → m ≤ x.orderKey) ∨
      (t.get k u = .ok .newNotFound ∧ ∀ m d, t.Holds k m d → u < m.seq)) ∧
    ∀ (r : RangeBounds K) u,
      (∀ {W : Type} (plain : BTreeMap K W),
        (∃ f, t.range r u = .error f) ↔ plain.range r = none) ∧
      ∀ out, t.range r u = .ok out → KeyAscending out ∧
        ∀ k x, (k, x) ∈ out ↔
          r.Contains k ∧ (∃ m d, t.Holds k m d ∧ m.seq ≤ u) ∧ t.get k u = .ok x := by
  refine ⟨fun k u => ?_, fun r u => ⟨fun {W} plain => ?_, fun out hout => ?_⟩⟩
  · rcases ht.get_cases k u with ⟨x, hget, hlatest⟩ | ⟨hget, hnone⟩
    · refine Or.inl ⟨x, hget, hlatest.mem, ?_, hlatest.newest⟩
      rw [← SeqMarked.seq_orderKey]
      exact hlatest.admitted
    · exact Or.inr ⟨hget, fun m d hm => not_le.1 (hnone m d hm)⟩
  · rw [ht.range_fails_iff]
    by_cases hr : r.Inverted
    · exact iff_of_true hr (plain.range_of_inverted hr)
    · refine iff_of_false hr ?_
      rw [plain.range_of_not_inverted hr]
      exact Option.some_ne_none _
  · exact ⟨(mem_range hout).1, fun k x => mem_range_iff_get hout⟩

/-- Two versions and a tombstone of one key, read below, between and above them. -/
theorem seek_and_scan_sample :
    let t : Table ℕ ℕ := (((new.insert 1 2 10).2.insertTombstone 1 2).2.insert 1 5 11).2
    t.get 1 1 = .ok .newNotFound ∧ t.get 1 4 = .ok (.newTombstone 2) ∧
      ∀ out, t.range ⟨.excluded 0, .included 1⟩ 4 = .ok out → (1, .newTombstone 2) ∈ out := by
  intro t
  have ht : t.Paired := by decide
  have hget : t.get 1 4 = .ok (.newTombstone 2) := by decide
  refine ⟨by decide, hget, fun out hout => ?_⟩
  refine ((((seek_and_scan ht).2 ⟨.excluded 0, .included 1⟩ 4).2 out hout).2 1 _).2 ?_
  exact ⟨by decide, ⟨.newTombstone 2, none, by decide, by decide⟩, hget⟩

/-! ### Copying a snapshot -/

/-- The table a stream of records is read into. -/
def imported (out : List (K × SeqMarked V)) : Table K V :=
  ⟨.fromIter (out.map entryOf), (out.map fun e => e.2.orderKey).foldl max Marker.zero⟩

theorem keyAscending_entryOf {out : List (K × SeqMarked V)} (h : KeyAscending out) :
    KeyAscending (out.map entryOf) :=
  List.pairwise_map.2 (List.Pairwise.imp (fun hlt => RecordKey.lt_iff.2 (Or.inl hlt)) h)

theorem holds_imported {out : List (K × SeqMarked V)} (h : KeyAscending out) {k : K} {m : Marker}
    {d : Option V} :
    (imported out).Holds k m d ↔ ∃ x, (k, x) ∈ out ∧ x.orderKey = m ∧ x.intoData = d := by
  rw [Holds, imported, BTreeMap.entries_fromIter (keyAscending_entryOf h), List.mem_map]
  constructor
  · rintro ⟨⟨k', x⟩, hx, heq⟩
    cases heq
    exact ⟨x, hx, rfl, rfl⟩
  · rintro ⟨x, hx, rfl, rfl⟩
    exact ⟨(k, x), hx, rfl⟩

theorem paired_imported {out : List (K × SeqMarked V)} (h : KeyAscending out) :
    (imported out).Paired := by
  intro k m d hm
  obtain ⟨x, -, rfl, rfl⟩ := (holds_imported h).1 hm
  exact fits_orderKey x

/-- **A stream with one record per key is read into one table**, whatever the order of its items. -/
theorem fromStream_perm {out : List (K × SeqMarked V)} (h : KeyAscending out)
    {stream : List (KVResult K V)} (hperm : stream.Perm (items out)) :
    fromStream stream = .ok (imported out) := by
  obtain ⟨s, rfl⟩ : ∃ s, stream = items s := by
    refine exists_items fun r hr => ?_
    obtain ⟨e, -, rfl⟩ := List.mem_map.1 (hperm.mem_iff.1 hr)
    exact ⟨e, rfl⟩
  have hs : s.Perm out := (List.map_perm_map_iff fun _ _ heq => Except.ok.inj heq).1 hperm
  have hinner : BTreeMap.fromIter (s.map entryOf) = (imported out).inner := by
    refine BTreeMap.fromIter_perm ?_
    rw [imported, BTreeMap.entries_fromIter (keyAscending_entryOf h)]
    exact hs.map entryOf
  have hlast : (s.map fun e => e.2.orderKey).foldl max Marker.zero = (imported out).lastSeq := by
    rw [foldl_max_eq_iff]
    simp only [(hs.map _).mem_iff]
    exact foldl_max_eq_iff.1 rfl
  have hread := readStream_items s (new : Table K V)
  change _ = Except.ok (⟨.fromIter _, (s.map _).foldl max Marker.zero⟩ : Table K V) at hread
  rw [fromStream, hread, hinner, hlast]

section Export

variable {t : Table K V} {r : RangeBounds K} {u : U64} {out : List (K × SeqMarked V)}
  (hout : t.range r u = .ok out)

include hout

/-- A key listed by the export is read from the copy as it was listed. -/
theorem imported_get_of_mem {k : K} {x : SeqMarked V} (hx : (k, x) ∈ out) {s : U64}
    (hs : u ≤ s) : (imported out).get k s = .ok x := by
  have hasc := (mem_range hout).1
  have hseq : x.seq ≤ u := seq_le_of_get ((mem_range_iff_get hout).1 hx).2.2
  have hlatest : Versions.IsLatest (imported out).Holds (Upto s) k x.orderKey x.intoData := by
    refine ⟨(holds_imported hasc).2 ⟨x, hx, rfl, rfl⟩, ?_, fun m d hm _ => ?_⟩
    · rw [Upto, SeqMarked.seq_orderKey]
      exact hseq.trans hs
    · -- the export lists one record of the key
      obtain ⟨y, hy, rfl, -⟩ := (holds_imported hasc).1 hm
      rw [hasc.eq_of_mem hy hx]
  rw [(paired_imported hasc).get_of_sees hlatest, SeqMarked.seq_orderKey, ← SeqMarked.eq_ofData]

/-- A key that the export does not list is not found in the copy. -/
theorem imported_get_of_not_mem {k : K} (hk : ∀ x, (k, x) ∉ out) (s : U64) :
    (imported out).get k s = .ok .newNotFound := by
  refine get_eq_of_sees (r := none) fun m d hm => ?_
  obtain ⟨x, hx, -⟩ := (holds_imported (mem_range hout).1).1 hm
  exact absurd hx (hk x)

/-- The copy lists what was exported. -/
theorem imported_range (hr : ¬r.Inverted) : (imported out).range r u = .ok out := by
  have hasc := (mem_range hout).1
  obtain ⟨out', hout'⟩ := (paired_imported hasc).range_ok hr u
  have heq : out' = out := by
    refine (mem_range hout').1.ext_mem hasc ?_
    rintro ⟨k, x⟩
    rw [mem_range_iff_get hout']
    constructor
    · rintro ⟨-, ⟨m, d, hm, -⟩, hget⟩
      obtain ⟨y, hy, -⟩ := (holds_imported hasc).1 hm
      rw [imported_get_of_mem hout hy le_rfl] at hget
      cases hget
      exact hy
    · intro hx
      obtain ⟨hk, -, hget⟩ := (mem_range_iff_get hout).1 hx
      refine ⟨hk, ⟨x.orderKey, x.intoData, (holds_imported hasc).2 ⟨x, hx, rfl, rfl⟩, ?_⟩,
        imported_get_of_mem hout hx le_rfl⟩
      rw [Upto, SeqMarked.seq_orderKey]
      exact seq_le_of_get hget
  rw [hout', heq]

end Export

/-- **Exporting a snapshot and importing it preserves the snapshot.**  The stream of a range read at
`u`, taken in any order, is read into one table; from `u` on that table answers point reads of the
keys in the range as the table did at `u`, it holds no other keys, and it lists the same range. -/
theorem export_import {t : Table K V} (ht : t.Paired) (u : U64) {r : RangeBounds K}
    (hr : ¬r.Inverted) :
    ∃ stream, RangeAtSeq.rangeAtSeq t r u = .ok stream ∧
      ∃ t' : Table K V, (∀ stream' : List (KVResult K V), stream'.Perm stream →
          fromStream stream' = .ok t') ∧
        (∀ k, r.Contains k → ∀ s, u ≤ s → t'.get k s = t.get k u) ∧
        (∀ k, ¬r.Contains k → ∀ s, t'.get k s = .ok .newNotFound) ∧
        t'.range r u = t.range r u := by
  obtain ⟨out, hout⟩ := ht.range_ok hr u
  have hstream : RangeAtSeq.rangeAtSeq t r u = .ok (items out) := by
    change (t.range r u >>= _) = _
    rw [hout]
    rfl
  refine ⟨items out, hstream, imported out,
    fun stream' hperm => fromStream_perm (mem_range hout).1 hperm,
    fun k hk s hs => ?_, fun k hk s => ?_, ?_⟩
  · rcases ht.get_cases k u with ⟨x, hget, hlatest⟩ | ⟨hget, hnone⟩
    · have hx : (k, x) ∈ out := by
        refine (mem_range_iff_get hout).2 ⟨hk, ?_, hget⟩
        exact ⟨_, _, hlatest.mem, hlatest.admitted⟩
      rw [imported_get_of_mem hout hx hs, hget]
    · rw [hget]
      refine imported_get_of_not_mem hout (fun x hx => ?_) s
      obtain ⟨-, ⟨m, d, hm, hup⟩, -⟩ := (mem_range_iff_get hout).1 hx
      exact hnone m d hm hup
  · refine imported_get_of_not_mem hout (fun x hx => ?_) s
    exact hk ((mem_range_iff_get hout).1 hx).1
  · rw [imported_range hout hr, hout]

/-- A snapshot with a tombstone, streamed from its last item to its first. -/
theorem export_import_sample :
    let t : Table ℕ ℕ := (((new.insert 1 2 10).2.insertTombstone 2 3).2.insert 1 5 11).2
    ∃ t' : Table ℕ ℕ,
      fromStream [.ok (2, .newTombstone 3), .ok (1, .newNormal 2 10)] = .ok t' ∧
      t'.get 1 7 = .ok (.newNormal 2 10) ∧ t'.range .full 4 = t.range .full 4 := by
  intro t
  have ht : t.Paired := by decide
  obtain ⟨stream, hstream, t', hperm, hget, -, hrange⟩ :=
    export_import ht 4 RangeBounds.not_inverted_full
  have heq : RangeAtSeq.rangeAtSeq t (.full : RangeBounds ℕ) 4 =
      .ok [.ok (1, .newNormal 2 10), .ok (2, .newTombstone 3)] := by decide
  cases heq.symm.trans hstream
  refine ⟨t', hperm _ (List.Perm.swap _ _ _), ?_, hrange⟩
  rw [hget 1 (RangeBounds.contains_full 1) 7 (by decide)]
  decide

end Table

end MapApi
