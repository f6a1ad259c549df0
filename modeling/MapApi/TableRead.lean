/-
**What a table answers.**

A read at sequence number `u` admits the records up to `u`.  This module proves that `Table::get`
returns the newest record of its key among them, found by one seek into the map, and that
`Table::range` lists the newest record of each key of the range, although it walks over every
record between the bounds it translates the range to.

Main definitions:

* `MapApi.Table.readValue` — the answer for what a reader sees;
* `MapApi.RangeIter.heads` — the records a range iterator yields.

Main results:

* `MapApi.Table.exists_sees`, `MapApi.Table.get_eq_of_sees` — **`get` answers what the reader
  sees**;
* `MapApi.Table.range_eq_heads` — **`range` answers what the reader sees at each key of the
  range**, one entry per key in ascending order;
* `MapApi.Table.range_congr` — the answer depends on nothing else;
* `MapApi.Table.Paired.get_ok`, `MapApi.Table.Paired.range_ok` — the unwraps of a read do not fail
  on a paired table.
-/

import MapApi.Table

set_option relaxedAutoImplicit false
set_option autoImplicit false

namespace MapApi

/-! ### Values -/

section MapUnwrap

variable {V : Type}

theorem mapUnwrap_newTombstone (n : U64) (d : Option V) :
    mapUnwrap (.newTombstone n) d = .ok (.newTombstone n) := rfl

/-- A marker and data that fit make up a value. -/
theorem mapUnwrap_of_fits {m : Marker} {d : Option V} (h : Table.Fits m d) :
    mapUnwrap m d = .ok (.ofData m.seq d) := by
  rcases m.eq_newNormal_or_newTombstone with ⟨hm, ht⟩ | ⟨hm, ht⟩
  · rw [Table.Fits, ht] at h
    cases d with
    | none => simp at h
    | some d => rw [hm]; rfl
  · rw [Table.Fits, ht] at h
    cases d with
    | none => rw [hm]; rfl
    | some d => simp at h

/-- A value made up of a record has the record's marker. -/
theorem orderKey_of_mapUnwrap {m : Marker} {d : Option V} {x : SeqMarked V}
    (h : mapUnwrap m d = .ok x) : x.orderKey = m := by
  rcases m.eq_newNormal_or_newTombstone with ⟨hm, -⟩ | ⟨hm, -⟩
  · rw [hm] at h ⊢
    cases d with
    | none => cases h
    | some d => cases h; rfl
  · rw [hm, mapUnwrap_newTombstone] at h
    cases h
    exact hm.symm

theorem orderKey_ofData_of_fits {m : Marker} {d : Option V} (h : Table.Fits m d) :
    (SeqMarked.ofData m.seq d).orderKey = m := orderKey_of_mapUnwrap (mapUnwrap_of_fits h)

end MapUnwrap

/-! ### What a range iterator yields -/

namespace RangeIter

variable {K V : Type} [LinearOrder K]

/-- The records a range iterator yields: the first one of each key up to a marker, after the key
yielded last. -/
def heads (upto : Marker) (lastSeenKey : Option K) : List (Ent K V) → List (K × Marker × Option V)
  | [] => []
  | (r, v) :: rest =>
      if some r.key = lastSeenKey then heads upto lastSeenKey rest
      else if upto < r.seqMarked then heads upto lastSeenKey rest
      else (r.key, r.seqMarked, v) :: heads upto (some r.key) rest

/-- The item of a record. -/
def readHead (h : K × Marker × Option V) : Except Fault (K × SeqMarked V) := do
  let x ← mapUnwrap h.2.1 h.2.2
  return (h.1, x)

omit [LinearOrder K] in
theorem readHead_eq_ok {h : K × Marker × Option V} {y : K × SeqMarked V} :
    readHead h = .ok y ↔ h.1 = y.1 ∧ mapUnwrap h.2.1 h.2.2 = .ok y.2 := by
  obtain ⟨k, x⟩ := y
  rw [readHead, bind_eq_ok]
  constructor
  · rintro ⟨x', hx, heq⟩
    cases heq
    exact ⟨rfl, hx⟩
  · rintro ⟨rfl, hx⟩
    exact ⟨x, hx, rfl⟩

theorem drainIn_eq (upto : Marker) (l : List (Ent K V)) :
    ∀ last, drainIn upto last l = (heads upto last l).mapM readHead := by
  induction l with
  | nil => intro last; rfl
  | cons e rest ih =>
      intro last
      simp only [drainIn, heads]
      split_ifs
      · exact ih last
      · exact ih last
      · rw [List.mapM_cons, ih]
        simp only [readHead]
        cases mapUnwrap e.1.seqMarked e.2 <;> rfl

/-- The records of a list of entries. -/
abbrev ListHolds (l : List (Ent K V)) : Versions.Records K Marker (Option V) := fun k m d =>
  ((⟨k, m⟩, d) : Ent K V) ∈ l

omit [LinearOrder K] in
theorem listHolds_cons {r : RecordKey K} {v : Option V} {l : List (Ent K V)} {k : K} {m : Marker}
    {d : Option V} :
    ListHolds ((r, v) :: l) k m d ↔ (k = r.key ∧ m = r.seqMarked ∧ d = v) ∨ ListHolds l k m d := by
  rw [ListHolds, List.mem_cons, Prod.mk.injEq, RecordKey.ext_iff, and_assoc]

omit [LinearOrder K] in
/-- A first record of another key, or one too new for the reader, makes no difference. -/
theorem isLatest_cons_skip {upto : Marker} {r : RecordKey K} {v : Option V} {l : List (Ent K V)}
    {k : K} (h : ¬(k = r.key ∧ r.seqMarked ≤ upto)) {m : Marker} {d : Option V} :
    Versions.IsLatest (ListHolds ((r, v) :: l)) (· ≤ upto) k m d ↔
      Versions.IsLatest (ListHolds l) (· ≤ upto) k m d := by
  refine Versions.isLatest_congr fun m' d' hm' => ?_
  rw [listHolds_cons]
  refine ⟨fun h' => h'.resolve_left ?_, Or.inr⟩
  rintro ⟨hk, rfl, -⟩
  exact h ⟨hk, hm'⟩

/-- A first record that the reader admits is the newest one of its key. -/
theorem isLatest_cons_head {upto : Marker} {r : RecordKey K} {v : Option V} {l : List (Ent K V)}
    (hr : ∀ e ∈ l, r < e.1) (hupto : r.seqMarked ≤ upto) {m : Marker} {d : Option V} :
    Versions.IsLatest (ListHolds ((r, v) :: l)) (· ≤ upto) r.key m d ↔
      m = r.seqMarked ∧ d = v := by
  have holder : ∀ m' d', ListHolds l r.key m' d' → m' < r.seqMarked := by
    intro m' d' h
    rcases RecordKey.lt_iff.1 (hr _ h) with hlt | ⟨-, hlt⟩
    · exact absurd hlt (lt_irrefl _)
    · exact hlt
  have hhead : ListHolds ((r, v) :: l) r.key r.seqMarked v :=
    listHolds_cons.2 (Or.inl ⟨rfl, rfl, rfl⟩)
  constructor
  · intro h
    rcases listHolds_cons.1 h.mem with ⟨-, hm, hd⟩ | hmem
    · exact ⟨hm, hd⟩
    · exact absurd (holder m d hmem) (not_lt.2 (h.newest _ _ hhead hupto))
  · rintro ⟨rfl, rfl⟩
    refine ⟨hhead, hupto, fun m' d' h _ => ?_⟩
    rcases listHolds_cons.1 h with ⟨-, rfl, -⟩ | h
    · exact le_rfl
    · exact (holder m' d' h).le

/-- **The records yielded are the newest ones** of their keys, of the keys other than the last. -/
theorem mem_heads (upto : Marker) {l : List (Ent K V)} (hl : KeyAscending l) {k : K} {m : Marker}
    {d : Option V} : ∀ {last : Option K}, (∀ k₀, last = some k₀ → ∀ e ∈ l, k₀ ≤ e.1.key) →
      ((k, m, d) ∈ heads upto last l ↔
        last ≠ some k ∧ Versions.IsLatest (ListHolds l) (· ≤ upto) k m d) := by
  induction l with
  | nil =>
      intro last _
      simp only [heads, List.not_mem_nil, false_iff, not_and]
      intro _ h
      cases h.mem
  | cons e l ih =>
      intro last hlast
      obtain ⟨r, v⟩ := e
      obtain ⟨hr, hl'⟩ := KeyAscending.cons_iff.1 hl
      have hlast' : ∀ k₀, last = some k₀ → ∀ e ∈ l, k₀ ≤ e.1.key :=
        fun k₀ h e he => hlast k₀ h e (List.mem_cons_of_mem _ he)
      simp only [heads]
      split_ifs with hskip hnew
      · -- an older record of the key yielded last
        rw [ih hl' hlast']
        refine and_congr_right fun hk => (isLatest_cons_skip ?_).symm
        rintro ⟨rfl, -⟩
        exact hk hskip.symm
      · -- a record too new for the reader
        rw [ih hl' hlast']
        exact and_congr_right fun _ => (isLatest_cons_skip fun h => not_lt.2 h.2 hnew).symm
      · -- the newest record of a key not yielded yet
        have hge : ∀ k₀, some r.key = some k₀ → ∀ e ∈ l, k₀ ≤ e.1.key := by
          intro k₀ h e he
          cases h
          exact RecordKey.key_le_of_le (hr e he).le
        rw [List.mem_cons, ih hl' hge]
        by_cases hk : k = r.key
        · subst hk
          rw [isLatest_cons_head hr (not_lt.1 hnew)]
          simp only [Prod.mk.injEq, true_and, ne_eq, not_true_eq_false, false_and, or_false]
          exact (and_iff_right (Ne.symm hskip)).symm
        · rw [isLatest_cons_skip fun h => hk h.1]
          constructor
          · rintro (h | ⟨-, h⟩)
            · exact absurd (Prod.mk.inj h).1 hk
            · refine ⟨fun hlk => hk ?_, h⟩
              exact le_antisymm (hlast k hlk _ List.mem_cons_self)
                (RecordKey.key_le_of_le (hr _ h.mem).le)
          · rintro ⟨-, h⟩
            exact Or.inr ⟨fun h => hk (Option.some_inj.1 h).symm, h⟩

/-- The keys yielded ascend. -/
theorem keyAscending_heads (upto : Marker) {l : List (Ent K V)} (hl : KeyAscending l) :
    ∀ {last : Option K}, (∀ k₀, last = some k₀ → ∀ e ∈ l, k₀ ≤ e.1.key) →
      KeyAscending (heads upto last l) := by
  induction l with
  | nil => intro last _; exact KeyAscending.nil
  | cons e l ih =>
      intro last hlast
      obtain ⟨r, v⟩ := e
      obtain ⟨hr, hl'⟩ := KeyAscending.cons_iff.1 hl
      have hlast' : ∀ k₀, last = some k₀ → ∀ e ∈ l, k₀ ≤ e.1.key :=
        fun k₀ h e he => hlast k₀ h e (List.mem_cons_of_mem _ he)
      simp only [heads]
      split_ifs
      · exact ih hl' hlast'
      · exact ih hl' hlast'
      · have hge : ∀ k₀, some r.key = some k₀ → ∀ e ∈ l, k₀ ≤ e.1.key := by
          rintro k₀ h e he
          cases h
          exact RecordKey.key_le_of_le (hr e he).le
        refine KeyAscending.cons_iff.2 ⟨?_, ih hl' hge⟩
        rintro ⟨k, m, d⟩ hmem
        obtain ⟨hne, hlatest⟩ := (mem_heads upto hl' hge).1 hmem
        have hle : r.key ≤ k := hge r.key rfl _ hlatest.mem
        exact lt_of_le_of_ne hle fun h => hne (congrArg some h)

end RangeIter

namespace Table

variable {K V : Type} [LinearOrder K]

/-! ### Point reads -/

/-- The answer for what a reader sees. -/
def readValue : Option (Marker × Option V) → Except Fault (SeqMarked V)
  | none => .ok .newNotFound
  | some (m, d) => mapUnwrap m d

theorem get_eq_mapUnwrap (m : Marker) (d : Option V) :
    (if m.isTombstone then .ok (.newTombstone m.internalSeq) else mapUnwrap m d) =
      mapUnwrap m d := by
  rcases m.eq_newNormal_or_newTombstone with ⟨hm, ht⟩ | ⟨hm, ht⟩
  · rw [ht, if_neg Bool.false_ne_true]
  · rw [if_pos ht, hm]
    rfl

/-- The seek of `get` finds the newest record of the key, if there is one. -/
theorem exists_sees_get (t : Table K V) (k : K) (u : U64) :
    ∃ r, Versions.Sees t.Holds (Upto u) k r ∧ t.get k u = readValue r := by
  let start : RecordKey K := ⟨k, .newTombstone u⟩
  have hrange := t.inner.range_of_not_inverted (r := ⟨.included start, .unbounded⟩) id
  rw [get, hrange, orFault, ok_bind]
  -- the records from the seek position on
  have hfrom : ∀ m : Marker, start ≤ ⟨k, m⟩ ↔ Upto u m := by
    intro m
    rw [RecordKey.le_iff]
    simp [start, Upto]
  cases hhead : (t.inner.entries.filter fun e => decide
      ((⟨.included start, .unbounded⟩ : RangeBounds (RecordKey K)).Contains e.1)).head? with
  | none =>
      have hnil := List.head?_eq_none_iff.1 hhead
      refine ⟨none, fun m d hm hup => ?_, rfl⟩
      have : ((⟨k, m⟩, d) : Ent K V) ∈ t.inner.entries.filter fun e => decide
          ((⟨.included start, .unbounded⟩ : RangeBounds (RecordKey K)).Contains e.1) :=
        List.mem_filter.2 ⟨hm, decide_eq_true ⟨(hfrom m).2 hup, trivial⟩⟩
      rw [hnil] at this
      cases this
  | some e =>
      obtain ⟨⟨k', m⟩, d⟩ := e
      obtain ⟨hmem, hin, hleast⟩ := (BTreeMap.head?_filter_eq_some t.inner.sorted).1 hhead
      have hge : start ≤ ⟨k', m⟩ := (of_decide_eq_true hin).1
      by_cases hk : k' = k
      · subst hk
        refine ⟨some (m, d), ⟨hmem, (hfrom m).1 hge, fun m' d' hm' hup => ?_⟩, ?_⟩
        · have hle := hleast _ hm' (decide_eq_true ⟨(hfrom m').2 hup, trivial⟩)
          rcases RecordKey.le_iff.1 hle with h | ⟨-, h⟩
          · exact absurd h (lt_irrefl _)
          · exact h
        · rw [readValue, ← get_eq_mapUnwrap]
          exact if_pos rfl
      · -- the seek lands on a later key
        refine ⟨none, fun m' d' hm' hup => ?_, if_neg hk⟩
        have hle := hleast _ hm' (decide_eq_true ⟨(hfrom m').2 hup, trivial⟩)
        exact hk (RecordKey.key_eq_of_between hge hle rfl)

theorem exists_sees (t : Table K V) (k : K) (u : U64) :
    ∃ r, Versions.Sees t.Holds (Upto u) k r := by
  obtain ⟨r, hr, -⟩ := t.exists_sees_get k u
  exact ⟨r, hr⟩

/-- **`get` answers what the reader sees.** -/
theorem get_eq_of_sees {t : Table K V} {k : K} {u : U64} {r : Option (Marker × Option V)}
    (h : Versions.Sees t.Holds (Upto u) k r) : t.get k u = readValue r := by
  obtain ⟨r', hr', hget⟩ := t.exists_sees_get k u
  rw [hget, h.unique t.functional_holds hr']

/-- Two tables in which a reader sees the same answer alike. -/
theorem get_congr {t t' : Table K V} {k : K} {u : U64}
    (h : ∀ r, Versions.Sees t.Holds (Upto u) k r → Versions.Sees t'.Holds (Upto u) k r) :
    t.get k u = t'.get k u := by
  obtain ⟨r, hr⟩ := t.exists_sees k u
  rw [get_eq_of_sees hr, get_eq_of_sees (h r hr)]

/-- A point read answers with a record up to its sequence number. -/
theorem seq_le_of_get {t : Table K V} {k : K} {u : U64} {x : SeqMarked V}
    (h : t.get k u = .ok x) : x.seq ≤ u := by
  obtain ⟨r, hr⟩ := t.exists_sees k u
  rw [get_eq_of_sees hr] at h
  match r with
  | none =>
      cases h
      exact Fin.zero_le u
  | some (m, d) =>
      have hm : x.orderKey = m := orderKey_of_mapUnwrap h
      rw [← SeqMarked.seq_orderKey, hm]
      exact hr.admitted

theorem Paired.get_of_sees {t : Table K V} (ht : t.Paired) {k : K} {u : U64} {m : Marker}
    {d : Option V} (h : Versions.IsLatest t.Holds (Upto u) k m d) :
    t.get k u = .ok (.ofData m.seq d) := by
  rw [get_eq_of_sees (r := some (m, d)) h, readValue, mapUnwrap_of_fits (ht k m d h.mem)]

/-- **The unwrap of `get` does not fail** on a paired table. -/
theorem Paired.get_ok {t : Table K V} (ht : t.Paired) (k : K) (u : U64) :
    ∃ x, t.get k u = .ok x := by
  obtain ⟨r, hr⟩ := t.exists_sees k u
  match r with
  | none => exact ⟨.newNotFound, get_eq_of_sees hr⟩
  | some (m, d) => exact ⟨_, ht.get_of_sees hr⟩

/-! ### Range reads -/

/-- The translated bounds admit the records of the keys in the range. -/
theorem recordBounds_contains (r : RangeBounds K) (k : RecordKey K) :
    (recordBounds r).Contains k ↔ r.Contains k.key := by
  have hmin : ∀ k' : K, k ≤ (⟨k', Marker.zero⟩ : RecordKey K) ↔ k.key ≤ k' := by
    intro k'
    rw [RecordKey.le_iff, le_iff_lt_or_eq (a := k.key)]
    simp only [Marker.zero_le, and_true]
  have hmax : ∀ k' : K, (⟨k', Marker.maxValue⟩ : RecordKey K) ≤ k ↔ k' ≤ k.key := by
    intro k'
    rw [RecordKey.le_iff, le_iff_lt_or_eq (a := k')]
    simp only [Marker.le_maxValue, and_true]
  obtain ⟨s, e⟩ := r
  refine and_congr ?_ ?_
  · cases s with
    | included k' => exact hmax k'
    | excluded k' => exact (not_le.symm.trans (not_congr (hmin k'))).trans not_le
    | unbounded => exact Iff.rfl
  · cases e with
    | included k' => exact hmin k'
    | excluded k' => exact (not_le.symm.trans (not_congr (hmax k'))).trans not_le
    | unbounded => exact Iff.rfl

/-- The translated bounds are refused exactly when the range is. -/
theorem recordBounds_inverted (r : RangeBounds K) :
    (recordBounds r).Inverted ↔ r.Inverted := by
  obtain ⟨s, e⟩ := r
  cases s with
  | included a =>
      cases e with
      | included b =>
          change (⟨b, Marker.zero⟩ : RecordKey K) < ⟨a, Marker.maxValue⟩ ↔ b < a
          simp [RecordKey.lt_iff, not_lt.2 (Marker.zero_le _)]
      | excluded b =>
          change (⟨b, Marker.maxValue⟩ : RecordKey K) < ⟨a, Marker.maxValue⟩ ↔ b < a
          simp [RecordKey.lt_iff]
      | unbounded => exact Iff.rfl
  | excluded a =>
      cases e with
      | included b =>
          change (⟨b, Marker.zero⟩ : RecordKey K) < ⟨a, Marker.zero⟩ ↔ b < a
          simp [RecordKey.lt_iff]
      | excluded b =>
          change (⟨b, Marker.maxValue⟩ : RecordKey K) ≤ ⟨a, Marker.zero⟩ ↔ b ≤ a
          rw [RecordKey.le_iff, le_iff_lt_or_eq (a := b)]
          simp only [Marker.zero_le, and_true]
      | unbounded => exact Iff.rfl
  | unbounded => cases e <;> exact Iff.rfl

theorem range_of_inverted (t : Table K V) {r : RangeBounds K} (h : r.Inverted) (u : U64) :
    t.range r u = .error .rangeInverted := by
  rw [range, t.inner.range_of_inverted ((recordBounds_inverted r).2 h)]
  rfl

/-- **`range` answers what the reader sees at each key of the range**, in ascending order. -/
theorem range_eq_heads (t : Table K V) {r : RangeBounds K} (hr : ¬r.Inverted) (u : U64) :
    ∃ heads, KeyAscending heads ∧
      (∀ k m d, (k, m, d) ∈ heads ↔ r.Contains k ∧ Versions.IsLatest t.Holds (Upto u) k m d) ∧
      t.range r u = heads.mapM RangeIter.readHead := by
  let inside := t.inner.entries.filter fun e => decide ((recordBounds r).Contains e.1)
  have hinside : KeyAscending inside := t.inner.sorted.filter _
  have hlast : ∀ k₀, (none : Option K) = some k₀ → ∀ e ∈ inside, k₀ ≤ e.1.key := by
    intro k₀ h
    cases h
  refine ⟨RangeIter.heads (.newTombstone u) none inside,
    RangeIter.keyAscending_heads _ hinside hlast, fun k m d => ?_, ?_⟩
  · rw [RangeIter.mem_heads _ hinside hlast]
    have hmem : ∀ m d, RangeIter.ListHolds inside k m d ↔ t.Holds k m d ∧ r.Contains k := by
      intro m d
      rw [RangeIter.ListHolds, List.mem_filter, decide_eq_true_eq, recordBounds_contains]
      rfl
    constructor
    · rintro ⟨-, hin, hup, hmax⟩
      obtain ⟨hheld, hk⟩ := (hmem m d).1 hin
      refine ⟨hk, hheld, Marker.le_newTombstone_iff.1 hup, fun m' d' h hup' => ?_⟩
      exact hmax m' d' ((hmem m' d').2 ⟨h, hk⟩) (Marker.le_newTombstone_iff.2 hup')
    · rintro ⟨hk, hheld, hup, hmax⟩
      refine ⟨Option.some_ne_none k ∘ Eq.symm, (hmem m d).2 ⟨hheld, hk⟩,
        Marker.le_newTombstone_iff.2 hup, fun m' d' h hup' => ?_⟩
      exact hmax m' d' ((hmem m' d').1 h).1 (Marker.le_newTombstone_iff.1 hup')
  · have hrange := t.inner.range_of_not_inverted (r := recordBounds r)
      (mt (recordBounds_inverted r).1 hr)
    rw [range, hrange, orFault, ok_bind]
    exact RangeIter.drainIn_eq _ inside none

/-- **Two tables in which a reader sees the same answer a range alike.** -/
theorem range_congr {t t' : Table K V} {u : U64}
    (h : ∀ k m d, Versions.IsLatest t.Holds (Upto u) k m d ↔
      Versions.IsLatest t'.Holds (Upto u) k m d) (r : RangeBounds K) :
    t.range r u = t'.range r u := by
  by_cases hr : r.Inverted
  · rw [t.range_of_inverted hr, t'.range_of_inverted hr]
  · obtain ⟨heads, hasc, hmem, hrange⟩ := t.range_eq_heads hr u
    obtain ⟨heads', hasc', hmem', hrange'⟩ := t'.range_eq_heads hr u
    have heq : heads = heads' := by
      refine hasc.ext_mem hasc' ?_
      rintro ⟨k, m, d⟩
      rw [hmem, hmem', h]
    rw [hrange, hrange', heq]

/-- **The entries of a range read** are the answers of point reads at the keys where the reader
sees a record. -/
theorem mem_range {t : Table K V} {r : RangeBounds K} {u : U64} {out : List (K × SeqMarked V)}
    (h : t.range r u = .ok out) :
    KeyAscending out ∧ ∀ k x, (k, x) ∈ out ↔
      r.Contains k ∧ ∃ m d, Versions.IsLatest t.Holds (Upto u) k m d ∧ mapUnwrap m d = .ok x := by
  have hr : ¬r.Inverted := by
    intro hinv
    rw [t.range_of_inverted hinv] at h
    cases h
  obtain ⟨heads, hasc, hmem, hrange⟩ := t.range_eq_heads hr u
  rw [hrange] at h
  have hkeys : out.map Prod.fst = heads.map Prod.fst :=
    map_of_mapM_ok (fun a b hab => (RangeIter.readHead_eq_ok.1 hab).1.symm) h
  refine ⟨?_, fun k x => ?_⟩
  · have hsorted : (heads.map Prod.fst).Pairwise (· < ·) := List.pairwise_map.2 hasc
    rw [← hkeys] at hsorted
    exact List.pairwise_map.1 hsorted
  · rw [mem_of_mapM_ok h]
    constructor
    · rintro ⟨⟨k', m, d⟩, hhead, hread⟩
      obtain ⟨rfl, hx⟩ := RangeIter.readHead_eq_ok.1 hread
      obtain ⟨hk, hlatest⟩ := (hmem _ m d).1 hhead
      exact ⟨hk, m, d, hlatest, hx⟩
    · rintro ⟨hk, m, d, hlatest, hx⟩
      exact ⟨(k, m, d), (hmem k m d).2 ⟨hk, hlatest⟩, RangeIter.readHead_eq_ok.2 ⟨rfl, hx⟩⟩

/-- The reader sees a record of the key. -/
def Visible (t : Table K V) (u : U64) (k : K) : Prop := ∃ m d, t.Holds k m d ∧ Upto u m

theorem visible_iff {t : Table K V} {u : U64} {k : K} :
    Visible t u k ↔ ∃ m d, Versions.IsLatest t.Holds (Upto u) k m d := by
  constructor
  · rintro ⟨m, d, hm, hup⟩
    obtain ⟨r, hr⟩ := t.exists_sees k u
    match r with
    | none => exact absurd hup (hr m d hm)
    | some (m', d') => exact ⟨m', d', hr⟩
  · rintro ⟨m, d, h⟩
    exact ⟨m, d, h.mem, h.admitted⟩

/-- **A range read lists the keys at which the reader sees a record, each with the answer of a
point read.** -/
theorem mem_range_iff_get {t : Table K V} {r : RangeBounds K} {u : U64}
    {out : List (K × SeqMarked V)} (h : t.range r u = .ok out) {k : K} {x : SeqMarked V} :
    (k, x) ∈ out ↔ r.Contains k ∧ Visible t u k ∧ t.get k u = .ok x := by
  rw [(mem_range h).2, visible_iff]
  refine and_congr_right fun _ => ?_
  constructor
  · rintro ⟨m, d, hlatest, hx⟩
    have hget : t.get k u = readValue (some (m, d)) := get_eq_of_sees hlatest
    exact ⟨⟨m, d, hlatest⟩, hget.trans hx⟩
  · rintro ⟨⟨m, d, hlatest⟩, hx⟩
    have hget : t.get k u = readValue (some (m, d)) := get_eq_of_sees hlatest
    exact ⟨m, d, hlatest, hget.symm.trans hx⟩

/-- A range read fails with a point read of one of its keys. -/
theorem range_ok_of_get {t : Table K V} {r : RangeBounds K} (hr : ¬r.Inverted) {u : U64}
    (h : ∀ k, r.Contains k → ∃ x, t.get k u = .ok x) : ∃ out, t.range r u = .ok out := by
  obtain ⟨heads, -, hmem, hrange⟩ := t.range_eq_heads hr u
  rw [hrange]
  refine exists_mapM_ok ?_
  rintro ⟨k, m, d⟩ hhead
  obtain ⟨hk, hlatest⟩ := (hmem k m d).1 hhead
  have hget : t.get k u = readValue (some (m, d)) := get_eq_of_sees hlatest
  obtain ⟨x, hx⟩ := h k hk
  exact ⟨(k, x), RangeIter.readHead_eq_ok.2 ⟨rfl, hget.symm.trans hx⟩⟩

/-- Where a range read succeeds, so does a point read of each of its keys. -/
theorem get_ok_of_range {t : Table K V} {r : RangeBounds K} {u : U64}
    {out : List (K × SeqMarked V)} (h : t.range r u = .ok out) {k : K} (hk : r.Contains k) :
    ∃ x, t.get k u = .ok x := by
  have hr : ¬r.Inverted := by
    intro hinv
    rw [t.range_of_inverted hinv] at h
    cases h
  obtain ⟨heads, -, hmem, hrange⟩ := t.range_eq_heads hr u
  rw [hrange] at h
  obtain ⟨v, hv⟩ := t.exists_sees k u
  match v with
  | none => exact ⟨.newNotFound, get_eq_of_sees hv⟩
  | some (m, d) =>
      obtain ⟨⟨k', x⟩, hread⟩ := exists_ok_of_mapM_ok h (k, m, d) ((hmem k m d).2 ⟨hk, hv⟩)
      exact ⟨x, (get_eq_of_sees hv).trans (RangeIter.readHead_eq_ok.1 hread).2⟩

/-- **The unwraps of `range` do not fail** on a paired table. -/
theorem Paired.range_ok {t : Table K V} (ht : t.Paired) {r : RangeBounds K} (hr : ¬r.Inverted)
    (u : U64) : ∃ out, t.range r u = .ok out :=
  range_ok_of_get hr fun k _ => ht.get_ok k u

/-- A range read that is not refused fails only on a record without value. -/
theorem range_error {t : Table K V} {r : RangeBounds K} (hr : ¬r.Inverted) {u : U64} {f : Fault}
    (h : t.range r u = .error f) : f = .valueMissing := by
  obtain ⟨heads, -, -, hrange⟩ := t.range_eq_heads hr u
  rw [hrange] at h
  obtain ⟨⟨k, m, d⟩, -, hread⟩ := exists_of_mapM_error h
  rcases m.eq_newNormal_or_newTombstone with ⟨hm, -⟩ | ⟨hm, -⟩
  · cases d with
    | none => rw [hm] at hread; cases hread; rfl
    | some d => rw [hm] at hread; cases hread
  · rw [hm] at hread
    cases hread

end Table

end MapApi
