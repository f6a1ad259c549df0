/-
**Maps in levels.**

A map may be split into levels, the newest of which is written and the others are frozen.  A point
read asks the levels from the newest on and takes the first answer that is not *not found*; a range
read merges the streams of all levels and leaves the record of greatest marker of each key.  Where
every level is newer than the levels behind it, both answer the first record of a key.

The functions here are those of `compact.rs` and of `impls/level.rs`, over the reader interface of
`map_api_ro.rs`.

A range read does not look at the order of its levels.  When their streams are ascending and hold
one key and marker twice only for tombstones, the merge lists each key once, with the record of
greatest marker, so the same streams in another order, or divided otherwise among the top level, the
levels and the persisted levels, are read the same.

Main definitions:

* `MapApi.MapApiRO`, `MapApi.compactedGet`, `MapApi.compactedRange` — readers, and reads over
  levels of them;
* `MapApi.LevelShows` — a level that answers as a map;
* `MapApi.Level` — the in-memory level, with `Level.newLevel`, `Level.get`, `Level.range` and
  `Level.set`.

Main results:

* `MapApi.readsAs_levels` — **levels of readers read as their first records**;
* `MapApi.Level.set_eq`, `MapApi.Level.shows` — what a write of the in-memory level does, and what
  its reads answer;
* `MapApi.compactedRange_greatest` — **a range read lists the record of greatest marker of each
  key, whatever the order of the levels**.
-/

import MapApi.Shown

set_option relaxedAutoImplicit false
set_option autoImplicit false

namespace MapApi

/-! ### Readers, and reads over levels of them -/

/-- `MapApiRO`: a reader of a map. -/
class MapApiRO (L K : Type) (V : outParam Type) where
  get : L → K → Except Fault (SeqMarked V)
  range : L → RangeBounds K → Except Fault (List (KVResult K V))

section

variable {TOP L PL K V : Type}

/-- One loop of `compacted_get`: the first answer that is not *not found*. -/
def firstFound [MapApiRO L K V] (key : K) : List L → Except Fault (Option (SeqMarked V))
  | [] => .ok none
  | lvl :: levels => do
      let got ← MapApiRO.get lvl key
      if ¬got.isNotFound then return some got else firstFound key levels

/-- `compacted_get`. -/
def compactedGet [MapApiRO L K V] [MapApiRO PL K V] (key : K) (levels : List L)
    (persisted : List PL) : Except Fault (SeqMarked V) := do
  match ← firstFound key levels with
  | some got => return got
  | none =>
      match ← firstFound key persisted with
      | some got => return got
      | none => return .newNotFound

variable [LinearOrder K]

/-- `compacted_range`. -/
def compactedRange [MapApiRO TOP K V] [MapApiRO L K V] [MapApiRO PL K V]
    (P : KMerge.Picker Fault (KVResult K V)) (range : RangeBounds K) (top : Option TOP)
    (levels : List L) (persisted : List PL) : Except Fault (List (KVResult K V)) := do
  let top ← top.toList.mapM fun t => MapApiRO.range t range
  let levels ← levels.mapM fun lvl => MapApiRO.range lvl range
  let persisted ← persisted.mapM fun p => MapApiRO.range p range
  mergeStreams P (top ++ levels ++ persisted)

/-- What the levels, from the top on, answer to a range read. -/
def rangesOf [MapApiRO TOP K V] [MapApiRO L K V] [MapApiRO PL K V] (r : RangeBounds K)
    (top : Option TOP) (levels : List L) (persisted : List PL) :
    List (Except Fault (List (KVResult K V))) :=
  top.toList.map (MapApiRO.range · r) ++ levels.map (MapApiRO.range · r) ++
    persisted.map (MapApiRO.range · r)

/-- **A range read over levels** makes their calls one after the other, and merges what they
answer. -/
theorem compactedRange_eq [MapApiRO TOP K V] [MapApiRO L K V] [MapApiRO PL K V]
    (P : KMerge.Picker Fault (KVResult K V)) (r : RangeBounds K) (top : Option TOP)
    (levels : List L) (persisted : List PL) :
    compactedRange P r top levels persisted =
      ((rangesOf r top levels persisted).mapM id >>= mergeStreams P) := by
  simp only [compactedRange, rangesOf, List.mapM_append, List.mapM_map, Function.comp_def, id,
    bind_assoc, pure_bind]

/-- Levels that answer have their streams merged. -/
theorem compactedRange_of_answers [MapApiRO TOP K V] [MapApiRO L K V] [MapApiRO PL K V]
    (P : KMerge.Picker Fault (KVResult K V)) {r : RangeBounds K} {top : Option TOP}
    {levels : List L} {persisted : List PL} {streams : List (List (KVResult K V))}
    (h : rangesOf r top levels persisted = streams.map .ok) :
    compactedRange P r top levels persisted = mergeStreams P streams := by
  have hok : (rangesOf r top levels persisted).mapM id = .ok streams :=
    mapM_of_map_eq_ok (by rw [List.map_id, h])
  rw [compactedRange_eq, hok, ok_bind]

/-- Levels that answer with streams of records have these merged. -/
theorem compactedRange_of_streams [MapApiRO TOP K V] [MapApiRO L K V] [MapApiRO PL K V]
    (P : KMerge.Picker Fault (KVResult K V)) {r : RangeBounds K} {top : Option TOP}
    {levels : List L} {persisted : List PL} {streams : List (List (K × SeqMarked V))}
    (h : rangesOf r top levels persisted = streams.map fun s => .ok (items s)) :
    compactedRange P r top levels persisted = mergeStreams P (streams.map items) :=
  compactedRange_of_answers P (h.trans (List.map_map ..).symm)

end

/-! ### Levels that answer as maps -/

section

variable {K V : Type} [LinearOrder K]

/-- What a level answers, read as a map. -/
def LevelShows {L : Type} [MapApiRO L K V] (l : L) (m : Shown K V) : Prop :=
  ReadsAs (fun k => MapApiRO.get l k) (fun r => MapApiRO.range l r) m

/-- One map for each level. -/
abbrev LevelsShow {L : Type} [MapApiRO L K V] (levels : List L) (ms : List (Shown K V)) : Prop :=
  List.Forall₂ (fun l m => LevelShows l m) levels ms

variable {L PL : Type} [MapApiRO L K V] [MapApiRO PL K V]

/-- One loop of a point read finds the first record that is not *not found*. -/
theorem LevelsShow.firstFound_eq {levels : List L} {ms : List (Shown K V)}
    (h : LevelsShow levels ms) (k : K) :
    firstFound k levels = .ok (ms.findSome? (Shown.found k)) := by
  induction h with
  | nil => rfl
  | @cons l m levels ms hl _ ih =>
      rw [firstFound, hl.get_eq, ok_bind, List.findSome?_cons, ih, Shown.found]
      cases m k with
      | none => rfl
      | some x =>
          rw [Option.getD_some, Option.filter_some]
          cases x.isNotFound <;> simp

/-- What the levels answer to a range read. -/
theorem LevelsShow.exists_lists {levels : List L} {ms : List (Shown K V)}
    (h : LevelsShow levels ms) {r : RangeBounds K} (hr : ¬r.Inverted) :
    ∃ ls, (levels.map fun l => MapApiRO.range l r) = (ls.map fun l => .ok (items l)) ∧
      ListsEach r ms ls := by
  induction h with
  | nil => exact ⟨[], rfl, .nil⟩
  | cons hl _ ih =>
      obtain ⟨out, hout, hlist⟩ := hl.range_eq r hr
      obtain ⟨ls, hls, hlists⟩ := ih
      exact ⟨out :: ls, by rw [List.map_cons, hout, hls, List.map_cons], .cons hlist hlists⟩

/-- **Levels of readers read as their first records**: a point read over them answers the record of
the newest one that has the key, and a range read lists these. -/
theorem readsAs_levels (P : KMerge.Picker Fault (KVResult K V)) {top : Option L}
    {levels : List L} {persisted : List PL} {ms ps : List (Shown K V)}
    (hms : LevelsShow (top.toList ++ levels) ms) (hps : LevelsShow persisted ps)
    (hnew : (ms ++ ps).Pairwise Shown.Newer) (hpos : ∀ m ∈ ms ++ ps, m.Positive) :
    ReadsAs (fun k => compactedGet k (top.toList ++ levels) persisted)
      (fun r => compactedRange P r top levels persisted) (Shown.first (ms ++ ps)) := by
  refine ⟨fun k => ?_, fun r hr => ?_⟩
  · rw [← Shown.findSome?_found_eq hnew hpos, List.findSome?_append]
    simp only [compactedGet, hms.firstFound_eq, hps.firstFound_eq, ok_bind]
    cases ms.findSome? (Shown.found k) with
    | some x => rfl
    | none => cases ps.findSome? (Shown.found k) <;> rfl
  · obtain ⟨ls, hls, hlists⟩ := hms.exists_lists hr
    obtain ⟨ls', hls', hlists'⟩ := hps.exists_lists hr
    have hranges : rangesOf r top levels persisted = (ls ++ ls').map fun l => .ok (items l) := by
      rw [rangesOf, ← List.map_append, hls, hls', ← List.map_append]
    obtain ⟨out, hout, hlist⟩ := mergeStreams_first P (List.rel_append hlists hlists') hnew
    exact ⟨out, (compactedRange_of_streams P hranges).trans hout, hlist⟩

end

/-! ### The in-memory level -/

/-- **`Level`**: a sequence counter and a map. -/
structure Level (K V : Type) [LinearOrder K] where
  seq : U64
  map : BTreeMap K (SeqMarked V)
  deriving DecidableEq

namespace Level

variable {K V : Type} [LinearOrder K]

/-- `Level::default`. -/
def default : Level K V := ⟨0, .empty⟩

/-- `Level::new_level`: an empty level that goes on counting. -/
def newLevel (l : Level K V) : Level K V := ⟨l.seq, .empty⟩

/-- `Level::get`. -/
def get (l : Level K V) (key : K) : SeqMarked V := (l.map.get? key).getD .newNotFound

/-- `Level::range`. -/
def range (l : Level K V) (range : RangeBounds K) : Except Fault (List (KVResult K V)) := do
  let vec ← orFault .rangeInverted (l.map.range range)
  return items vec

/-- `Level::set`: a value takes the next sequence number, a deletion stays at the current one.  The
reply is the record before and the record after. -/
def set (l : Level K V) (key : K) (value : Option V) :
    Except Fault ((SeqMarked V × SeqMarked V) × Level K V) := do
  let (marked, seq) ←
    match value with
    | some v => do
        let seq ← orFault .overflow l.seq.succ?
        pure (SeqMarked.newNormal seq v, seq)
    | none => pure (SeqMarked.newTombstone l.seq, l.seq)
  let prev := (l.map.get? key).getD .newNotFound
  return ((prev, marked), ⟨seq, l.map.insert key marked⟩)

instance : MapApiRO (Level K V) K V where
  get l key := .ok (l.get key)
  range l r := l.range r

/-- The record a write stores, `none` past the last sequence number. -/
def marked? (l : Level K V) : Option V → Option (SeqMarked V)
  | some v => l.seq.succ?.map fun seq => .newNormal seq v
  | none => some (.newTombstone l.seq)

/-- The level after a record is stored. -/
def store (l : Level K V) (key : K) (x : SeqMarked V) : Level K V := ⟨x.seq, l.map.insert key x⟩

/-- **What a write does**: it fails, or stores one record. -/
theorem set_eq (l : Level K V) (key : K) (value : Option V) :
    l.set key value =
      (orFault .overflow (l.marked? value)).map fun x => ((l.get key, x), l.store key x) := by
  cases value with
  | none => rfl
  | some v =>
      simp only [set, marked?]
      cases l.seq.succ? <;> rfl

theorem get?_store (l : Level K V) (key : K) (x : SeqMarked V) (k : K) :
    (l.store key x).map.get? k = if key = k then some x else l.map.get? k :=
  BTreeMap.get?_insert _ _ _ _

/-- A record that is stored is not below the tombstone of the counter. -/
theorem newTombstone_le_of_marked? {l : Level K V} {value : Option V} {x : SeqMarked V}
    (h : l.marked? value = some x) : .newTombstone l.seq ≤ x.orderKey := by
  cases value with
  | none =>
      obtain rfl : SeqMarked.newTombstone l.seq = x := Option.some_inj.1 h
      exact le_rfl
  | some v =>
      obtain ⟨n, hn, rfl⟩ := Option.map_eq_some_iff.1 h
      exact (Marker.newTombstone_lt_iff.2 (U64.lt_of_succ? hn)).le

/-- A record that is stored carries the value written. -/
theorem intoData_of_marked? {l : Level K V} {value : Option V} {x : SeqMarked V}
    (h : l.marked? value = some x) : x.intoData = value := by
  cases value with
  | none =>
      obtain rfl : SeqMarked.newTombstone l.seq = x := Option.some_inj.1 h
      rfl
  | some v =>
      obtain ⟨n, -, rfl⟩ := Option.map_eq_some_iff.1 h
      rfl

/-- Only a value at the last sequence number is not stored. -/
theorem eq_max_of_marked? {l : Level K V} {value : Option V} (h : l.marked? value = none) :
    (∃ v, value = some v) ∧ l.seq = U64.max := by
  cases value with
  | none => cases h
  | some v => exact ⟨⟨v, rfl⟩, U64.eq_max_of_succ? (Option.map_eq_none_iff.1 h)⟩

/-- A value that is stored is above the counter. -/
theorem lt_seq_of_marked? {l : Level K V} {value : Option V} {x : SeqMarked V}
    (h : l.marked? value = some x) (ht : x.isTombstone = false) : l.seq < x.seq := by
  refine (SeqMarked.seq_orderKey x) ▸ Marker.newTombstone_lt_iff.1
    (lt_of_le_of_ne (newTombstone_le_of_marked? h) fun heq => ?_)
  rw [← SeqMarked.isTombstone_orderKey, ← heq] at ht
  cases ht

/-! ### Reads -/

/-- The records of a level, by their keys. -/
def shown (l : Level K V) : Shown K V := fun k => l.map.get? k

/-- The records of a level in a range. -/
def inRange (r : RangeBounds K) (l : Level K V) : List (K × SeqMarked V) :=
  l.map.entries.filter fun e => r.Contains e.1

theorem range_eq {r : RangeBounds K} (hr : ¬r.Inverted) (l : Level K V) :
    l.range r = .ok (items (l.inRange r)) := by
  rw [range, BTreeMap.range_of_not_inverted _ hr]
  rfl

theorem keyAscending_inRange (r : RangeBounds K) (l : Level K V) : KeyAscending (l.inRange r) :=
  l.map.sorted.filter _

theorem mem_inRange {r : RangeBounds K} {l : Level K V} {k : K} {x : SeqMarked V} :
    (k, x) ∈ l.inRange r ↔ r.Contains k ∧ l.map.get? k = some x := by
  rw [inRange, List.mem_filter, decide_eq_true_eq, BTreeMap.get?_eq_some]
  exact and_comm

/-- **A level answers as its map.** -/
theorem shows (l : Level K V) : LevelShows l l.shown := by
  refine ⟨fun k => rfl, fun r hr => ⟨l.inRange r, l.range_eq hr, l.keyAscending_inRange r, ?_⟩⟩
  exact fun k x => mem_inRange

theorem shows_each (levels : List (Level K V)) : LevelsShow levels (levels.map shown) :=
  List.forall₂_map_right_iff.2 (List.forall₂_same.2 fun l _ => l.shows)

theorem shown_store (l : Level K V) (key : K) (x : SeqMarked V) (k : K) :
    (l.store key x).shown k = if key = k then some x else l.shown k :=
  l.get?_store key x k

/-- Three levels: the second deletes a key of the oldest and one that is nowhere, the newest
overwrites the other. -/
example :
    let l₀ : Level ℕ ℕ := (default.store 1 (.newNormal 1 10)).store 2 (.newNormal 2 20)
    let l₁ := (l₀.newLevel.store 1 (.newTombstone 2)).store 3 (.newTombstone 2)
    let l₂ := l₁.newLevel.store 2 (.newNormal 3 22)
    compactedRange .leftmost .full (some l₂) [l₁, l₀] ([] : List (Level ℕ ℕ)) =
      .ok (items [(1, .newTombstone 2), (2, .newNormal 3 22), (3, .newTombstone 2)]) := by
  decide

end Level

/-! ### Range reads over any levels -/

section

variable {K V : Type} [LinearOrder K]

/-- **A range read over levels is the maximum per key, whatever the order of the levels.**  Where
the levels answer with ascending streams of records, and two of them hold one key and marker only
as a tombstone, the read does not fail; it lists, in ascending order and once each, the keys of all
streams, each with its record of greatest marker; and any levels that answer with the same streams,
in any order and divided in any way among the three arguments, are read the same. -/
theorem compactedRange_greatest {TOP L PL : Type} [MapApiRO TOP K V] [MapApiRO L K V]
    [MapApiRO PL K V] (P : KMerge.Picker Fault (KVResult K V)) {r : RangeBounds K}
    {top : Option TOP} {levels : List L} {persisted : List PL}
    {streams : List (List (K × SeqMarked V))}
    (hanswers : rangesOf r top levels persisted = streams.map fun s => .ok (items s))
    (hasc : ∀ s ∈ streams, KeyAscending s) (hcomp : streams.Pairwise Compatible) :
    ∃ out, compactedRange P r top levels persisted = .ok (items out) ∧ KeyAscending out ∧
      (∀ k, (∃ x, (k, x) ∈ out) ↔ ∃ s ∈ streams, ∃ x, (k, x) ∈ s) ∧
      (∀ k x, (k, x) ∈ out ↔ IsGreatest streams k x) ∧
      ∀ {TOP' L' PL' : Type} [MapApiRO TOP' K V] [MapApiRO L' K V] [MapApiRO PL' K V]
        (P' : KMerge.Picker Fault (KVResult K V)) (top' : Option TOP') (levels' : List L')
        (persisted' : List PL') (streams' : List (List (K × SeqMarked V))),
        rangesOf r top' levels' persisted' = (streams'.map fun s => .ok (items s)) →
        streams'.Perm streams →
        compactedRange P' r top' levels' persisted' = .ok (items out) := by
  obtain ⟨out, hout, hoasc, hmem⟩ := mergeStreams_spec P hasc hcomp
  refine ⟨out, ?_, hoasc, fun k => ?_, hmem, ?_⟩
  · rw [compactedRange_of_streams P hanswers, hout]
  · constructor
    · rintro ⟨x, hx⟩
      obtain ⟨s, hs, hxs⟩ := List.mem_flatten.1 ((hmem k x).1 hx).1
      exact ⟨s, hs, x, hxs⟩
    · rintro ⟨s, hs, x, hx⟩
      obtain ⟨y, hy⟩ := exists_isGreatest (List.mem_flatten.2 ⟨s, hs, hx⟩)
      exact ⟨y, (hmem k y).2 hy⟩
  · intro TOP' L' PL' _ _ _ P' top' levels' persisted' streams' hanswers' hperm
    rw [compactedRange_of_streams P' hanswers', mergeStreams_perm hperm hasc hcomp P P', hout]

/-- Three levels with a key in each of them and a tombstone in two, read in two orders. -/
theorem compactedRange_greatest_sample :
    let l₀ : Level ℕ ℕ := (Level.default.store 1 (.newNormal 1 10)).store 2 (.newTombstone 2)
    let l₁ : Level ℕ ℕ := (l₀.newLevel.store 1 (.newTombstone 2)).store 2 (.newTombstone 2)
    let l₂ : Level ℕ ℕ := l₁.newLevel.store 1 (.newNormal 3 12)
    let all : RangeBounds ℕ := .full
    ∃ out, compactedRange .leftmost all (some l₂) [l₁] [l₀] = .ok (items out) ∧
      compactedRange .leftmost all (none : Option (Level ℕ ℕ)) [l₀, l₂, l₁]
        ([] : List (Level ℕ ℕ)) = .ok (items out) ∧
      IsGreatest [l₂.map.entries, l₁.map.entries, l₀.map.entries] 1 (.newNormal 3 12) := by
  intro l₀ l₁ l₂ all
  let streams : List (List (ℕ × SeqMarked ℕ)) :=
    [l₂.map.entries, l₁.map.entries, l₀.map.entries]
  have hanswers : rangesOf all (some l₂) [l₁] [l₀] = streams.map fun s => .ok (items s) := by
    decide
  have hasc : ∀ s ∈ streams, KeyAscending s := by
    unfold KeyAscending
    decide
  have hcomp : streams.Pairwise Compatible := by
    unfold Compatible
    decide
  obtain ⟨out, hout, -, -, hmem, hperm⟩ := compactedRange_greatest .leftmost hanswers hasc hcomp
  refine ⟨out, hout, ?_, (hmem 1 _).1 ?_⟩
  · exact hperm .leftmost none [l₀, l₂, l₁] [] [l₀.map.entries, l₂.map.entries, l₁.map.entries]
      (by decide) (by decide)
  · have heq : compactedRange .leftmost all (some l₂) [l₁] [l₀] =
        .ok (items [(1, .newNormal 3 12), (2, .newTombstone 2)]) := by decide
    rw [items_injective (Except.ok.inj (hout.symm.trans heq))]
    exact List.mem_cons_self

end

end MapApi
