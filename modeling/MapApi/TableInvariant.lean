/-
**The representation invariant of tables, and restoring a table from its records.**

Five operations write a table, and they maintain `last_seq` by three rules: an insertion takes its
own marker, a stream takes the greatest marker read, an application takes the other table's, and a
compaction takes the greater of two.  All of them keep the sequence number of `last_seq` equal to
the greatest one of any record, and a value under every normal marker and no other.  They do not
agree on the marker at that sequence number: an insertion of a value after a tombstone of the same
number leaves the lesser marker, and a table read back from the stream of its own records has the
greater one.

Main definitions:

* `MapApi.Table.greatestSeq`, `MapApi.Table.Wf` — the greatest sequence number of a record, and the
  invariant;
* `MapApi.Table.Reachable` — the tables the five operations reach;
* `MapApi.Table.records`, `MapApi.Table.Restores` — the records a stream carries, and a table that
  writes cannot tell from another.

Main results:

* `MapApi.Table.Reachable.wf`, `MapApi.Table.reachable_representation` — **every reachable table
  is well formed**, its reads do not panic, and an insertion is refused exactly below the greatest
  sequence number;
* `MapApi.Table.fromStream_restores_iff` — **a table is restored from its records exactly when its
  last marker is its greatest one**.
-/

import MapApi.Compact
import MapApi.TableRead
import Mathlib.Order.MinMax

set_option relaxedAutoImplicit false
set_option autoImplicit false

namespace MapApi

/-- The maximum of a list bounds it, and is attained. -/
theorem foldl_max_eq_iff {α : Type} [LinearOrder α] {l : List α} {z n : α} :
    l.foldl max z = n ↔ (z ≤ n ∧ ∀ x ∈ l, x ≤ n) ∧ (n = z ∨ n ∈ l) := by
  have hspec : ∀ (l : List α) (z : α), (z ≤ l.foldl max z ∧ ∀ x ∈ l, x ≤ l.foldl max z) ∧
      (l.foldl max z = z ∨ l.foldl max z ∈ l) := by
    intro l
    induction l with
    | nil => intro z; simp
    | cons a l ih =>
        intro z
        obtain ⟨⟨hz, hl⟩, hmem⟩ := ih (max z a)
        refine ⟨⟨le_trans (le_max_left z a) hz, fun x hx => ?_⟩, ?_⟩
        · rcases List.mem_cons.1 hx with rfl | hx
          · exact le_trans (le_max_right z x) hz
          · exact hl x hx
        · rw [List.foldl_cons, List.mem_cons]
          rcases hmem with hmem | hmem
          · rcases max_choice z a with h | h
            · exact Or.inl (hmem.trans h)
            · exact Or.inr (Or.inl (hmem.trans h))
          · exact Or.inr (Or.inr hmem)
  constructor
  · rintro rfl
    exact hspec l z
  · rintro ⟨⟨hz, hl⟩, hmem⟩
    obtain ⟨⟨hz', hl'⟩, hmem'⟩ := hspec l z
    refine le_antisymm ?_ ?_
    · rcases hmem' with h | h
      · exact h.le.trans hz
      · exact hl _ h
    · rcases hmem with h | h
      · exact h.le.trans hz'
      · exact hl' _ h

namespace Table

variable {K V : Type} [LinearOrder K]

/-! ### The invariant -/

/-- The greatest sequence number of a record, `0` when there is none. -/
def greatestSeq (t : Table K V) : U64 :=
  (t.inner.entries.map fun e => e.1.seqMarked.internalSeq).foldl max 0

/-- `n` bounds the sequence numbers of the records, and is attained unless it is `0`. -/
structure GreatestSeq (t : Table K V) (n : U64) : Prop where
  bound : ∀ {k m d}, t.Holds k m d → m.seq ≤ n
  attained : n = 0 ∨ ∃ k m d, t.Holds k m d ∧ m.seq = n

theorem greatestSeq_eq_iff {t : Table K V} {n : U64} : t.greatestSeq = n ↔ GreatestSeq t n := by
  rw [greatestSeq, foldl_max_eq_iff]
  constructor
  · rintro ⟨⟨-, hbound⟩, hatt⟩
    refine ⟨fun {k m d} h => hbound _ (List.mem_map.2 ⟨(⟨k, m⟩, d), h, rfl⟩), ?_⟩
    refine hatt.imp_right fun hmem => ?_
    obtain ⟨⟨⟨k, m⟩, d⟩, h, rfl⟩ := List.mem_map.1 hmem
    exact ⟨k, m, d, h, rfl⟩
  · rintro ⟨hbound, hatt⟩
    refine ⟨⟨Fin.zero_le n, fun x hx => ?_⟩, hatt.imp_right ?_⟩
    · obtain ⟨⟨⟨k, m⟩, d⟩, h, rfl⟩ := List.mem_map.1 hx
      exact hbound h
    · rintro ⟨k, m, d, h, rfl⟩
      exact List.mem_map.2 ⟨(⟨k, m⟩, d), h, rfl⟩

/-- **The invariant of a table**: records are paired with their markers, and the last sequence
number is the greatest one. -/
structure Wf (t : Table K V) : Prop where
  paired : t.Paired
  greatest : GreatestSeq t t.lastSeq.seq

theorem wf_new : Wf (new : Table K V) :=
  ⟨fun _ _ _ h => absurd h (not_holds_new _ _ _),
    fun h => absurd h (not_holds_new _ _ _), Or.inl rfl⟩

/-- Storing a record and taking a marker that is the greater of the record's and the last one. -/
theorem Wf.store {t : Table K V} (h : Wf t) {k : K} {m n : Marker} {d : Option V}
    (hfits : Fits m d) (hm : m.seq ≤ n.seq) (hlast : t.lastSeq.seq ≤ n.seq)
    (hatt : n.seq = m.seq ∨ n.seq = t.lastSeq.seq) : Wf ⟨t.inner.insert ⟨k, m⟩ d, n⟩ := by
  have hholds : ∀ k' m' d', Holds ⟨t.inner.insert ⟨k, m⟩ d, n⟩ k' m' d' ↔
      (k' = k ∧ m' = m ∧ d' = d) ∨ (t.Holds k' m' d' ∧ ¬(k' = k ∧ m' = m)) :=
    fun k' m' d' => holds_put (t := t) (m := m)
  refine ⟨fun k' m' d' h' => ?_, fun {k' m' d'} h' => ?_, ?_⟩
  · rcases (hholds k' m' d').1 h' with ⟨rfl, rfl, rfl⟩ | ⟨h', -⟩
    · exact hfits
    · exact h.paired k' m' d' h'
  · rcases (hholds k' m' d').1 h' with ⟨rfl, rfl, rfl⟩ | ⟨h', -⟩
    · exact hm
    · exact (h.greatest.bound h').trans hlast
  · rcases hatt with hatt | hatt
    · exact Or.inr ⟨k, m, d, (hholds k m d).2 (Or.inl ⟨rfl, rfl, rfl⟩), hatt.symm⟩
    · rcases h.greatest.attained with h0 | ⟨k', m', d', h', hseq⟩
      · exact Or.inl (hatt.trans h0)
      · -- the record at the greatest sequence number stays, or is written anew
        by_cases heq : k' = k ∧ m' = m
        · obtain ⟨rfl, rfl⟩ := heq
          exact Or.inr ⟨k', m', d, (hholds k' m' d).2 (Or.inl ⟨rfl, rfl, rfl⟩),
            hseq.trans hatt.symm⟩
        · exact Or.inr ⟨k', m', d', (hholds k' m' d').2 (Or.inr ⟨h', heq⟩),
            hseq.trans hatt.symm⟩

theorem Wf.put {t : Table K V} (h : Wf t) {k : K} {m : Marker} {d : Option V}
    (hfits : Fits m d) (hle : t.lastSeq.seq ≤ m.seq) : Wf (t.put k m d) :=
  h.store hfits le_rfl hle (Or.inl rfl)

theorem Wf.internalInsert {t : Table K V} (h : Wf t) (k : K) {m : Marker} {d : Option V}
    (hfits : Fits m d) : Wf (t.internalInsert k m d).2 := by
  rcases t.internalInsert_eq k m d with ⟨hle, heq⟩ | ⟨-, heq⟩
  · rw [heq]
    exact h.put hfits hle
  · rw [heq]
    exact h

theorem Wf.readStream {stream : List (KVResult K V)} : ∀ {t t' : Table K V}, Wf t →
    t.readStream stream = .ok t' → Wf t' := by
  induction stream with
  | nil =>
      intro t t' h heq
      cases heq
      exact h
  | cons r rest ih =>
      intro t t' h heq
      match r with
      | .error e => cases heq
      | .ok (k, x) =>
          refine ih (h.store (fits_orderKey x) ?_ ?_ ?_) heq
          · split_ifs with hlt
            · exact le_rfl
            · exact Marker.seq_le_of_le (not_lt.1 hlt)
          · split_ifs with hlt
            · exact Marker.seq_le_of_le hlt.le
            · exact le_rfl
          · split_ifs with hlt
            · exact Or.inl rfl
            · exact Or.inr rfl

theorem Wf.apply {t other t' : Table K V} (h : Wf t) (hother : Wf other)
    (heq : t.apply other = .ok t') : Wf t' := by
  obtain ⟨hle, rfl⟩ := apply_eq_ok.1 heq
  refine ⟨fun k m d h' => ?_, fun {k m d} h' => ?_, ?_⟩
  · rw [holds_extend] at h'
    rcases h' with h' | ⟨h', -⟩
    · exact hother.paired k m d h'
    · exact h.paired k m d h'
  · rw [holds_extend] at h'
    rcases h' with h' | ⟨h', -⟩
    · exact hother.greatest.bound h'
    · exact (h.greatest.bound h').trans (Marker.seq_le_of_le hle)
  · rw [holds_extend]
    rcases hother.greatest.attained with h0 | ⟨k, m, d, h', hseq⟩
    · exact Or.inl h0
    · exact Or.inr ⟨k, m, d, Or.inl h', hseq⟩

/-- A table that prunes the records of two well-formed tables, and keeps their last marker. -/
theorem Wf.compact {P : KMerge.Picker Fault (Ent K V)} {t other t' : Table K V} {m : U64}
    (h : Wf t) (hother : Wf other) (heq : t.compact P other m = .ok t') : Wf t' := by
  obtain ⟨-, hlast, hholds⟩ := compact_eq_ok heq
  have hpruned := prunedTo_compact heq
  have hseq : t'.lastSeq.seq = max t.lastSeq.seq other.lastSeq.seq := by
    rw [hlast]
    rcases le_total t.lastSeq other.lastSeq with hle | hle
    · rw [max_eq_right hle, max_eq_right (Marker.seq_le_of_le hle)]
    · rw [max_eq_left hle, max_eq_left (Marker.seq_le_of_le hle)]
  have hbound : ∀ {k n d}, t'.Holds k n d → n.seq ≤ t'.lastSeq.seq := by
    intro k n d h'
    rw [hseq]
    rcases ((hholds k n d).1 h').1 with h' | h'
    · exact le_max_of_le_left (h.greatest.bound h')
    · exact le_max_of_le_right (hother.greatest.bound h')
  -- a record at the greatest sequence number is kept, or hidden by one that is
  have hkept : ∀ k n d, Versions.overlay t.Holds other.Holds k n d → n.seq = t'.lastSeq.seq →
      ∃ k n d, t'.Holds k n d ∧ n.seq = t'.lastSeq.seq := by
    intro k n d hin hn
    rcases hpruned.kept hin with h' | ⟨n', d', h', hlt, -⟩
    · exact ⟨k, n, d, h', hn⟩
    · exact ⟨k, n', d', h', le_antisymm (hbound h') (hn ▸ Marker.seq_le_of_le hlt.le)⟩
  refine ⟨fun k n d h' => ?_, hbound, ?_⟩
  · rcases ((hholds k n d).1 h').1 with h' | h'
    · exact h.paired k n d h'
    · exact hother.paired k n d h'
  · rcases le_total t.lastSeq.seq other.lastSeq.seq with hle | hle
    · rw [max_eq_right hle] at hseq
      rcases hother.greatest.attained with h0 | ⟨k, n, d, h', hn⟩
      · exact Or.inl (hseq.trans h0)
      · exact Or.inr (hkept k n d (Or.inl h') (hn.trans hseq.symm))
    · rw [max_eq_left hle] at hseq
      rcases h.greatest.attained with h0 | ⟨k, n, d, h', hn⟩
      · exact Or.inl (hseq.trans h0)
      · by_cases hover : ∃ d', other.Holds k n d'
        · obtain ⟨d', hd'⟩ := hover
          exact Or.inr (hkept k n d' (Or.inl hd') (hn.trans hseq.symm))
        · exact Or.inr (hkept k n d (Or.inr ⟨h', fun d' hd' => hover ⟨d', hd'⟩⟩)
            (hn.trans hseq.symm))

/-! ### Reachable tables -/

/-- **The tables the five operations reach.**  An insertion reaches the table it leaves, accepted
or not; an application or compaction that panics reaches none. -/
inductive Reachable (P : KMerge.Picker Fault (Ent K V)) : Table K V → Prop
  | new : Reachable P new
  | fromStream {stream : List (KVResult K V)} {t : Table K V} (h : fromStream stream = .ok t) :
      Reachable P t
  | insert {t : Table K V} (key : K) (seq : U64) (value : V) (ht : Reachable P t) :
      Reachable P (t.insert key seq value).2
  | insertTombstone {t : Table K V} (key : K) (seq : U64) (ht : Reachable P t) :
      Reachable P (t.insertTombstone key seq).2
  | apply {t other t' : Table K V} (ht : Reachable P t) (hother : Reachable P other)
      (h : t.apply other = .ok t') : Reachable P t'
  | compact {t other t' : Table K V} {minSnapshotSeq : U64} (ht : Reachable P t)
      (hother : Reachable P other) (h : t.compact P other minSnapshotSeq = .ok t') :
      Reachable P t'

/-- **Every reachable table is well formed.** -/
theorem Reachable.wf {P : KMerge.Picker Fault (Ent K V)} {t : Table K V} (h : Reachable P t) :
    Wf t := by
  induction h with
  | new => exact wf_new
  | fromStream h => exact wf_new.readStream h
  | insert key seq value _ ih => exact ih.internalInsert key rfl
  | insertTombstone key seq _ ih => exact ih.internalInsert key rfl
  | apply _ _ h ih ihother => exact ih.apply ihother h
  | compact _ _ h ih ihother => exact ih.compact ihother h

/-- The result of inserting at a marker is a refusal exactly when the marker's sequence number is
below `n`, and a refusal names the two markers and leaves the table. -/
def RefusedBelow (t : Table K V) (n : U64) (m : Marker)
    (result : Except InsertError Unit × Table K V) : Prop :=
  (result.1 = .error (.nonIncremental t.lastSeq m) ↔ m.internalSeq < n) ∧
    (result.1 = .ok () ↔ n ≤ m.internalSeq) ∧
    (result.1 = .error (.nonIncremental t.lastSeq m) →
      result.2.inner = t.inner ∧ result.2.lastSeq = t.lastSeq)

theorem internalInsert_refusedBelow (t : Table K V) (k : K) (m : Marker) (d : Option V) :
    RefusedBelow t t.lastSeq.seq m (t.internalInsert k m d) := by
  rcases t.internalInsert_eq k m d with ⟨hle, heq⟩ | ⟨hlt, heq⟩
  · rw [heq]
    exact ⟨⟨nofun, fun h => absurd hle (not_le.2 h)⟩, ⟨fun _ => hle, fun _ => rfl⟩, nofun⟩
  · rw [heq]
    exact ⟨⟨fun _ => hlt, fun _ => rfl⟩, ⟨nofun, fun h => absurd h (not_le.2 hlt)⟩,
      fun _ => ⟨rfl, rfl⟩⟩

/-- **The representation of reachable tables**: values stand under normal markers and nowhere else,
so that no read panics; the last sequence number is the greatest one; and an insertion is refused
exactly below it. -/
theorem reachable_representation (P : KMerge.Picker Fault (Ent K V)) {t : Table K V}
    (h : Reachable P t) :
    (∀ k m d, t.Holds k m d → if m.isTombstone then d = none else ∃ v, d = some v) ∧
    (∀ k u, ∃ x, t.get k u = .ok x) ∧
    (∀ (r : RangeBounds K) u, ¬r.Inverted → ∃ out, t.range r u = .ok out) ∧
    t.lastSeq.internalSeq = t.greatestSeq ∧
    (∀ key seq value,
      RefusedBelow t t.greatestSeq (.newNormal seq ()) (t.insert key seq value)) ∧
    (∀ key seq, RefusedBelow t t.greatestSeq (.newTombstone seq) (t.insertTombstone key seq)) := by
  have hwf := h.wf
  have hseq : t.greatestSeq = t.lastSeq.seq := greatestSeq_eq_iff.2 hwf.greatest
  refine ⟨fun k m d hm => ?_, hwf.paired.get_ok, fun r u hr => hwf.paired.range_ok hr u,
    hseq.symm, fun key seq value => ?_, fun key seq => ?_⟩
  · have hfits := hwf.paired k m d hm
    rw [Fits] at hfits
    split_ifs with ht
    · rw [ht] at hfits
      exact Option.isNone_iff_eq_none.1 hfits.symm
    · rw [Bool.not_eq_true] at ht
      rw [ht] at hfits
      exact Option.ne_none_iff_exists'.1 (Option.isNone_eq_false_iff.1 hfits.symm |>
        Option.isSome_iff_ne_none.1)
  · rw [hseq]
    exact t.internalInsert_refusedBelow key _ _
  · rw [hseq]
    exact t.internalInsert_refusedBelow key _ _

/-- The representation of a table with a deletion and a refused insertion. -/
theorem reachable_representation_sample :
    let t : Table ℕ ℕ := ((((((new.insert 1 4 10).2.insertTombstone 1 5).2).insert 2 5 20).2).insert
      3 2 30).2
    t.lastSeq.internalSeq = t.greatestSeq ∧ t.greatestSeq = 5 :=
  ⟨(reachable_representation KMerge.Picker.leftmost
      (.insert 3 2 30 (.insert 2 5 20 (.insertTombstone 1 5 (.insert 1 4 10 .new))))).2.2.2.1,
    by decide⟩

/-! ### Restoring a table from its records -/

/-- The records of a table, as a stream carries them. -/
def records (t : Table K V) : List (K × SeqMarked V) :=
  t.inner.entries.map fun e => (e.1.key, .ofData e.1.seqMarked.seq e.2)

/-- A table **restores** another when it has the same records and last marker, and accepts the same
later writes. -/
structure Restores (t t' : Table K V) : Prop where
  inner : t'.inner = t.inner
  lastSeq : t'.lastSeq = t.lastSeq
  insert : ∀ key seq value, (t'.insert key seq value).1 = (t.insert key seq value).1
  insertTombstone : ∀ key seq, (t'.insertTombstone key seq).1 = (t.insertTombstone key seq).1
  applyChanges : ∀ lastSeq changes,
    (∃ u, t'.applyChanges lastSeq changes = .ok u) ↔ ∃ u, t.applyChanges lastSeq changes = .ok u

theorem restores_self (t : Table K V) : Restores t t :=
  ⟨rfl, rfl, fun _ _ _ => rfl, fun _ _ => rfl, fun _ _ => Iff.rfl⟩

/-- What a stream without errors is read into. -/
theorem readStream_items (s : List (K × SeqMarked V)) : ∀ t : Table K V,
    t.readStream (items s) = .ok ⟨t.inner.extend (s.map entryOf),
      (s.map fun e => e.2.orderKey).foldl max t.lastSeq⟩ := by
  induction s with
  | nil => intro t; rfl
  | cons e s ih =>
      intro t
      have hmax : (if t.lastSeq < e.2.orderKey then e.2.orderKey else t.lastSeq) =
          max t.lastSeq e.2.orderKey := (max_def_lt _ _).symm
      rw [items, List.map_cons, readStream]
      simp only [hmax]
      rw [ih]
      rfl

/-- A paired table is what its records, in any order, are stored as. -/
theorem fromIter_records {t : Table K V} (ht : t.Paired) {stream : List (K × SeqMarked V)}
    (hperm : stream.Perm t.records) : BTreeMap.fromIter (stream.map entryOf) = t.inner := by
  have hself : t.records.map entryOf = t.inner.entries := by
    rw [records, List.map_map]
    refine (List.map_congr_left ?_).trans (List.map_id _)
    rintro ⟨⟨k, m⟩, d⟩ hmem
    simp only [Function.comp, entryOf, SeqMarked.intoData_ofData,
      orderKey_ofData_of_fits (ht k m d hmem), id]
  exact BTreeMap.fromIter_perm (hself ▸ hperm.map entryOf)

theorem mem_markers {t : Table K V} (ht : t.Paired) {stream : List (K × SeqMarked V)}
    (hperm : stream.Perm t.records) {m : Marker} :
    m ∈ stream.map (fun e => e.2.orderKey) ↔ ∃ k d, t.Holds k m d := by
  rw [(hperm.map _).mem_iff, records, List.map_map, List.mem_map]
  constructor
  · rintro ⟨⟨⟨k, n⟩, d⟩, hmem, hm⟩
    rw [Function.comp, orderKey_ofData_of_fits (ht k n d hmem)] at hm
    exact ⟨k, d, hm ▸ hmem⟩
  · rintro ⟨k, d, h⟩
    exact ⟨(⟨k, m⟩, d), h, orderKey_ofData_of_fits (ht k m d h)⟩

theorem Built.wf {t : Table K V} (h : Built t) : Wf t :=
  h.rec_put wf_new fun _ _ _ _ _ ht hfits hle => ht.put hfits hle

/-- The last marker of a built table is that of a record. -/
theorem Built.lastSeq_held {t : Table K V} (h : Built t) :
    t = Table.new ∨ ∃ k d, t.Holds k t.lastSeq d :=
  h.rec_put (p := fun t => t = Table.new ∨ ∃ k d, t.Holds k t.lastSeq d) (Or.inl rfl)
    fun _ k _ d _ _ _ _ => Or.inr ⟨k, d, holds_put.2 (Or.inl ⟨rfl, rfl, rfl⟩)⟩

/-- A tombstone at the last sequence number of a table whose last marker is that of a value. -/
def TombstoneAtLast (t : Table K V) : Prop :=
  t.lastSeq.isTombstone = false ∧ ∃ k d, t.Holds k (.newTombstone t.lastSeq.seq) d

/-- The last marker of a built table is the greatest one, unless there is a tombstone above it. -/
theorem Built.lastSeq_eq_max_iff {t : Table K V} (h : Built t) {ms : List Marker}
    (hms : ∀ m, m ∈ ms ↔ ∃ k d, t.Holds k m d) :
    ms.foldl max Marker.zero = t.lastSeq ↔ ¬TombstoneAtLast t := by
  rw [foldl_max_eq_iff]
  constructor
  · rintro ⟨⟨-, hmax⟩, -⟩ ⟨hlast, k, d, hk⟩
    have hle := hmax _ ((hms _).2 ⟨k, d, hk⟩)
    rcases Marker.le_iff.1 hle with hlt | ⟨-, himp⟩
    · exact lt_irrefl _ hlt
    · rw [himp rfl] at hlast
      cases hlast
  · intro hnot
    refine ⟨⟨Marker.zero_le _, fun m hm => ?_⟩, ?_⟩
    · obtain ⟨k, d, hk⟩ := (hms m).1 hm
      refine Marker.le_iff.2 ((h.wf.greatest.bound hk).lt_or_eq.imp_right fun heq => ⟨heq, ?_⟩)
      intro hm
      by_contra hlast
      refine hnot ⟨Bool.not_eq_true _ ▸ hlast, k, d, ?_⟩
      rcases m.eq_newNormal_or_newTombstone with ⟨-, hn⟩ | ⟨hn, -⟩
      · rw [hn] at hm
        cases hm
      · rwa [hn, heq] at hk
    · rcases h.lastSeq_held with rfl | hheld
      · exact Or.inl rfl
      · exact Or.inr ((hms _).2 hheld)

/-- **A table is restored from its records**, streamed in any order, exactly when there is no
tombstone above its last marker. -/
theorem fromStream_restores_iff {t : Table K V} (h : Built t) {stream : List (K × SeqMarked V)}
    (hperm : stream.Perm t.records) :
    (∃ t', fromStream (items stream) = .ok t' ∧ Restores t t') ↔ ¬TombstoneAtLast t := by
  have hread : fromStream (items stream) = .ok ⟨t.inner,
      (stream.map fun e => e.2.orderKey).foldl max Marker.zero⟩ := by
    rw [fromStream, readStream_items]
    exact congrArg (fun i => Except.ok (⟨i, _⟩ : Table K V)) (fromIter_records h.wf.paired hperm)
  rw [← h.lastSeq_eq_max_iff fun m => mem_markers h.wf.paired hperm, hread]
  constructor
  · rintro ⟨t', heq, hres⟩
    cases heq
    exact hres.lastSeq
  · intro heq
    rw [heq]
    exact ⟨t, rfl, restores_self t⟩

/-- A deletion, and a value of another key at the same sequence number. -/
def valueAfterTombstone : Table ℕ ℕ := ((new.insertTombstone 1 5).2.insert 2 5 20).2

theorem built_valueAfterTombstone : Built valueAfterTombstone :=
  .insert 2 5 20 (.insertTombstone 1 5 .new rfl) rfl

/-- The restored copy of `valueAfterTombstone` refuses changes that the table accepts. -/
theorem fromStream_not_restores :
    Built valueAfterTombstone ∧
    (∃ t', fromStream (items valueAfterTombstone.records) = .ok t' ∧
      t'.lastSeq ≠ valueAfterTombstone.lastSeq ∧
      t'.applyChanges (.newNormal 5 ()) [] = .error .applyBackwards ∧
      ∃ u, valueAfterTombstone.applyChanges (.newNormal 5 ()) [] = .ok u) ∧
    ¬∃ t', fromStream (items valueAfterTombstone.records) = .ok t' ∧
      Restores valueAfterTombstone t' := by
  have hread : fromStream (items valueAfterTombstone.records) =
      .ok ⟨valueAfterTombstone.inner, .newTombstone 5⟩ := by decide
  refine ⟨built_valueAfterTombstone, ⟨_, hread, by decide, by decide, _, rfl⟩, ?_⟩
  rintro ⟨t', heq, hres⟩
  rw [hread] at heq
  cases heq
  exact absurd hres.lastSeq (by decide)

/-- A table that is restored: its deletion is not above its last value. -/
theorem fromStream_restores_sample :
    let t : Table ℕ ℕ := ((new.insert 2 5 20).2.insertTombstone 1 5).2
    ∃ t', fromStream (items t.records) = .ok t' ∧ Restores t t' :=
  (fromStream_restores_iff (.insertTombstone 1 5 (.insert 2 5 20 .new rfl) rfl)
    (List.Perm.refl _)).2 fun h => absurd h.1 (by decide)

end Table

end MapApi
