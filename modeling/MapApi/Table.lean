/-
**The multi-version table.**

A table holds records under a user key and a marker, the newest record of a key first, each with a
value or, for a deletion, without one.  It is written by insertions, by applying the changes of
another table, and by reading a stream; it is read at a sequence number, which admits the records
up to it.

The functions here are those of `mvcc/table/mod.rs` and `mvcc/table/range_iter.rs`.  A panic of the
source is a `MapApi.Fault`; a function with `&mut self` returns the table it leaves.

Main definitions:

* `MapApi.Table` — the table, with `Table.insert`, `Table.insertTombstone`, `Table.apply`,
  `Table.fromStream`, `Table.get` and `Table.range`;
* `MapApi.RangeIter` — the iterator behind a range read;
* `MapApi.Table.Holds`, `MapApi.Table.Paired` — the records of a table, and the tables whose
  records carry a value exactly under a normal marker;
* `MapApi.Table.Built` — the tables that accepted insertions build.

Main results:

* `MapApi.Table.internalInsert_eq`, `MapApi.Table.applyChanges_eq_ok` — what the writes do;
* `MapApi.RangeIter.drain_eq_next` — draining an iterator is calling `next` until it is exhausted.
-/

import MapApi.SeqMarked
import MapApi.SortedMap
import MapApi.Util
import MapApi.Versions

set_option relaxedAutoImplicit false
set_option autoImplicit false

namespace MapApi

/-- A table entry, `Ent<K, V>` in the source. -/
abbrev Ent (K V : Type) : Type := RecordKey K × Option V

/-- `seq_marked.map(|_x| v.as_ref().unwrap())`: the value of a record, whose data is unwrapped
under a normal marker only. -/
def mapUnwrap {V : Type} (m : Marker) (v : Option V) : Except Fault (SeqMarked V) :=
  match m.marked with
  | .normal _ => do
      let d ← orFault .valueMissing v
      return .newNormal m.seq d
  | .tombStone => .ok (.newTombstone m.seq)

/-! ### The range iterator -/

/-- `RangeIter`: the records still to be visited, and the last key yielded. -/
structure RangeIter (K V : Type) where
  inner : List (Ent K V)
  upto : Marker
  lastSeenKey : Option K

namespace RangeIter

variable {K V : Type} [LinearOrder K]

/-- The loop of `RangeIter::next` over the records still to be visited. -/
def nextIn (upto : Marker) (lastSeenKey : Option K) :
    List (Ent K V) → Except Fault (Option ((K × SeqMarked V) × RangeIter K V))
  | [] => .ok none
  | (r, v) :: rest =>
      if some r.key = lastSeenKey then nextIn upto lastSeenKey rest
      else if upto < r.seqMarked then nextIn upto lastSeenKey rest
      else do
        let x ← mapUnwrap r.seqMarked v
        return some ((r.key, x), ⟨rest, upto, some r.key⟩)

/-- `RangeIter::next`: the next item, with the iterator it leaves. -/
def next (it : RangeIter K V) : Except Fault (Option ((K × SeqMarked V) × RangeIter K V)) :=
  nextIn it.upto it.lastSeenKey it.inner

/-- Every item of the iterator over the records still to be visited. -/
def drainIn (upto : Marker) (lastSeenKey : Option K) :
    List (Ent K V) → Except Fault (List (K × SeqMarked V))
  | [] => .ok []
  | (r, v) :: rest =>
      if some r.key = lastSeenKey then drainIn upto lastSeenKey rest
      else if upto < r.seqMarked then drainIn upto lastSeenKey rest
      else do
        let x ← mapUnwrap r.seqMarked v
        let out ← drainIn upto (some r.key) rest
        return (r.key, x) :: out

/-- Every item of the iterator. -/
def drain (it : RangeIter K V) : Except Fault (List (K × SeqMarked V)) :=
  drainIn it.upto it.lastSeenKey it.inner

/-- **Draining an iterator is calling `next` until it is exhausted.** -/
theorem drain_eq_next (it : RangeIter K V) :
    it.drain = do
      match ← it.next with
      | none => return []
      | some (item, it') => do
          let out ← it'.drain
          return item :: out := by
  obtain ⟨inner, upto, last⟩ := it
  change drainIn upto last inner = (nextIn upto last inner >>= _)
  induction inner with
  | nil => rfl
  | cons e rest ih =>
      simp only [drainIn, nextIn]
      split_ifs
      · exact ih
      · exact ih
      · cases mapUnwrap e.1.seqMarked e.2 <;> rfl

end RangeIter

/-! ### The table -/

/-- **The table**: its records, and the marker its last write left. -/
structure Table (K V : Type) [LinearOrder K] where
  inner : BTreeMap (RecordKey K) (Option V)
  lastSeq : Marker
  deriving DecidableEq

namespace Table

variable {K V : Type} [LinearOrder K]

/-- `Table::new`. -/
def new : Table K V := ⟨.empty, .zero⟩

/-- The loop of `Table::from_stream`, on the table read so far. -/
def readStream (t : Table K V) : List (KVResult K V) → Except IoError (Table K V)
  | [] => .ok t
  | .error e :: _ => .error e
  | .ok (key, value) :: rest =>
      let orderKey := value.orderKey
      let v := value.intoData
      readStream ⟨t.inner.insert ⟨key, orderKey⟩ v,
        if t.lastSeq < orderKey then orderKey else t.lastSeq⟩ rest

/-- `Table::from_stream`: the records of a stream, and the greatest marker among them. -/
def fromStream (stream : List (KVResult K V)) : Except IoError (Table K V) :=
  readStream new stream

/-- `Table::apply_changes`: store the changes, unless their last marker is below the table's. -/
def applyChanges (t : Table K V) (lastSeq : Marker) (changes : List (Ent K V)) :
    Except Fault (Table K V) :=
  if t.lastSeq ≤ lastSeq then .ok ⟨t.inner.extend changes, lastSeq⟩ else .error .applyBackwards

/-- `Table::apply`. -/
def apply (t other : Table K V) : Except Fault (Table K V) :=
  t.applyChanges other.lastSeq other.inner.entries

/-- `Table::get`: the newest record of a key up to a sequence number. -/
def get (t : Table K V) (key : K) (upto : U64) : Except Fault (SeqMarked V) := do
  let rangeStart : RecordKey K := ⟨key, .newTombstone upto⟩
  let found ← orFault .rangeInverted (t.inner.range ⟨.included rangeStart, .unbounded⟩)
  match found.head? with
  | some (k, v) =>
      let seqMarked := k.seqMarked
      if k.key = key then
        if seqMarked.isTombstone then .ok (.newTombstone seqMarked.internalSeq)
        else mapUnwrap seqMarked v
      else .ok .newNotFound
  | none => .ok .newNotFound

/-- `Table::get_many`. -/
def getMany (t : Table K V) (keys : List K) (upto : U64) : Except Fault (List (SeqMarked V)) :=
  keys.mapM fun key => t.get key upto

/-- The bounds a range of user keys becomes: at an end that belongs to the range every marker is
inside, at an end that does not none is. -/
def recordBounds (range : RangeBounds K) : RangeBounds (RecordKey K) where
  startBound :=
    match range.startBound with
    | .included k => .included ⟨k, .maxValue⟩
    | .excluded k => .excluded ⟨k, .zero⟩
    | .unbounded => .unbounded
  endBound :=
    match range.endBound with
    | .included k => .included ⟨k, .zero⟩
    | .excluded k => .excluded ⟨k, .maxValue⟩
    | .unbounded => .unbounded

/-- `Table::range`: the newest record up to a sequence number of each key in a range. -/
def range (t : Table K V) (range : RangeBounds K) (upto : U64) :
    Except Fault (List (K × SeqMarked V)) := do
  let inner ← orFault .rangeInverted (t.inner.range (recordBounds range))
  RangeIter.drain ⟨inner, .newTombstone upto, none⟩

/-- `Table::internal_insert`: refused below the last sequence number, otherwise stored. -/
def internalInsert (t : Table K V) (key : K) (seqMarked : Marker) (value : Option V) :
    Except InsertError Unit × Table K V :=
  if t.lastSeq.internalSeq ≤ seqMarked.internalSeq then
    (.ok (), ⟨t.inner.insert ⟨key, seqMarked⟩ value, seqMarked⟩)
  else (.error (.nonIncremental t.lastSeq seqMarked), t)

/-- `Table::insert`. -/
def insert (t : Table K V) (key : K) (seq : U64) (value : V) :
    Except InsertError Unit × Table K V :=
  t.internalInsert key (.newNormal seq ()) (some value)

/-- `Table::insert_tombstone`. -/
def insertTombstone (t : Table K V) (key : K) (seq : U64) : Except InsertError Unit × Table K V :=
  t.internalInsert key (.newTombstone seq) none

/-- `unwrap()` of the result of an insertion. -/
def unwrapInsert : Except InsertError Unit × Table K V → Except Fault (Table K V)
  | (.ok (), t) => .ok t
  | (.error e, _) => .error (.insertRefused e)

/-! ### The records of a table -/

/-- The table holds a record of `k` with marker `m` and data `d`. -/
def Holds (t : Table K V) : Versions.Records K Marker (Option V) := fun k m d =>
  ((⟨k, m⟩, d) : Ent K V) ∈ t.inner.entries

instance [DecidableEq V] (t : Table K V) (k : K) (m : Marker) (d : Option V) :
    Decidable (t.Holds k m d) :=
  inferInstanceAs (Decidable (_ ∈ _))

/-- The records a reader at sequence number `u` admits: those up to it. -/
abbrev Upto (u : U64) (m : Marker) : Prop := m.seq ≤ u

theorem functional_holds (t : Table K V) : Versions.Functional t.Holds :=
  fun _ _ _ _ h h' => t.inner.sorted.eq_of_mem h h'

@[simp] theorem not_holds_new (k : K) (m : Marker) (d : Option V) :
    ¬(new : Table K V).Holds k m d := by
  simp [Holds, new]

/-- A marker and the data under it **fit** when the data is there exactly for a normal marker. -/
def Fits (m : Marker) (d : Option V) : Prop := m.isTombstone = d.isNone

instance (m : Marker) (d : Option V) : Decidable (Fits m d) :=
  inferInstanceAs (Decidable (_ = _))

/-- **Every record carries a value exactly under a normal marker.** -/
def Paired (t : Table K V) : Prop := ∀ k m d, t.Holds k m d → Fits m d

instance (t : Table K V) : Decidable t.Paired :=
  decidable_of_iff (∀ e ∈ t.inner.entries, Fits e.1.seqMarked e.2)
    ⟨fun h _ _ _ hm => h _ hm, fun h e he => h e.1.key e.1.seqMarked e.2 he⟩

omit [LinearOrder K] in
theorem fits_orderKey (x : SeqMarked V) : Fits x.orderKey x.intoData := by
  rw [Fits, SeqMarked.isTombstone_orderKey, SeqMarked.isTombstone_eq_isNone]

/-- The entry that stores a value under its marker. -/
def entryOf (e : K × SeqMarked V) : Ent K V := (⟨e.1, e.2.orderKey⟩, e.2.intoData)

/-! ### What the writes do -/

/-- The table an accepted insertion leaves. -/
def put (t : Table K V) (k : K) (m : Marker) (d : Option V) : Table K V :=
  ⟨t.inner.insert ⟨k, m⟩ d, m⟩

@[simp] theorem lastSeq_put (t : Table K V) (k : K) (m : Marker) (d : Option V) :
    (t.put k m d).lastSeq = m := rfl

theorem holds_put {t : Table K V} {k k' : K} {m m' : Marker} {d d' : Option V} :
    (t.put k m d).Holds k' m' d' ↔
      (k' = k ∧ m' = m ∧ d' = d) ∨ (t.Holds k' m' d' ∧ ¬(k' = k ∧ m' = m)) := by
  rw [Holds, put, BTreeMap.mem_insert, Prod.mk.injEq, RecordKey.mk.injEq, and_assoc, ne_eq,
    RecordKey.mk.injEq]
  rfl

/-- The record an insertion stores, on top of the table. -/
theorem holds_put_eq_overlay (t : Table K V) (k : K) (m : Marker) (d : Option V) :
    (t.put k m d).Holds =
      Versions.overlay t.Holds fun k' m' d' => k' = k ∧ m' = m ∧ d' = d := by
  funext k' m' d'
  rw [Versions.overlay, holds_put]
  have hfree : ¬(k' = k ∧ m' = m) ↔ ∀ e, ¬(k' = k ∧ m' = m ∧ e = d) :=
    ⟨fun h e he => h ⟨he.1, he.2.1⟩, fun h he => h d ⟨he.1, he.2, rfl⟩⟩
  rw [hfree]

/-- **An insertion is accepted from the last sequence number on, and changes nothing when
refused.** -/
theorem internalInsert_eq (t : Table K V) (k : K) (m : Marker) (d : Option V) :
    (t.lastSeq.seq ≤ m.seq ∧ t.internalInsert k m d = (.ok (), t.put k m d)) ∨
      (m.seq < t.lastSeq.seq ∧
        t.internalInsert k m d = (.error (.nonIncremental t.lastSeq m), t)) := by
  by_cases h : t.lastSeq.seq ≤ m.seq
  · exact Or.inl ⟨h, if_pos h⟩
  · exact Or.inr ⟨not_le.1 h, if_neg h⟩

theorem internalInsert_eq_ok {t t' : Table K V} {k : K} {m : Marker} {d : Option V} :
    t.internalInsert k m d = (.ok (), t') ↔ t.lastSeq.seq ≤ m.seq ∧ t' = t.put k m d := by
  rcases t.internalInsert_eq k m d with ⟨h, heq⟩ | ⟨h, heq⟩
  · simp [heq, h, eq_comm]
  · simp [heq, h]

theorem unwrapInsert_eq_ok {t t' : Table K V} {k : K} {m : Marker} {d : Option V} :
    unwrapInsert (t.internalInsert k m d) = .ok t' ↔ t.lastSeq.seq ≤ m.seq ∧ t' = t.put k m d := by
  rcases t.internalInsert_eq k m d with ⟨h, heq⟩ | ⟨h, heq⟩
  · simp [heq, h, unwrapInsert, eq_comm]
  · simp [heq, h, unwrapInsert]

theorem applyChanges_eq_ok {t t' : Table K V} {m : Marker} {es : List (Ent K V)} :
    t.applyChanges m es = .ok t' ↔ t.lastSeq ≤ m ∧ t' = ⟨t.inner.extend es, m⟩ := by
  unfold applyChanges
  split_ifs with h <;> simp [h, eq_comm]

theorem apply_eq_ok {t t' other : Table K V} :
    t.apply other = .ok t' ↔
      t.lastSeq ≤ other.lastSeq ∧ t' = ⟨t.inner.extend other.inner.entries, other.lastSeq⟩ :=
  applyChanges_eq_ok

/-- The records of a table extended by those of another: the other's on top. -/
theorem holds_extend (t other : Table K V) (m : Marker) :
    Holds ⟨t.inner.extend other.inner.entries, m⟩ =
      Versions.overlay t.Holds other.Holds := by
  funext k n d
  exact propext BTreeMap.mem_extend_entries

/-- **The tables that accepted insertions build.** -/
inductive Built : Table K V → Prop
  | new : Built new
  | insert {t t' : Table K V} (key : K) (seq : U64) (value : V) (h : Built t)
      (hins : t.insert key seq value = (.ok (), t')) : Built t'
  | insertTombstone {t t' : Table K V} (key : K) (seq : U64) (h : Built t)
      (hins : t.insertTombstone key seq = (.ok (), t')) : Built t'

/-- A property of built tables, by the insertions that build them. -/
theorem Built.rec_put {p : Table K V → Prop} (hnew : p Table.new)
    (hput : ∀ t k m d, Built t → p t → Fits m d → t.lastSeq.seq ≤ m.seq → p (t.put k m d))
    {t : Table K V} (h : Built t) : p t := by
  induction h with
  | new => exact hnew
  | insert key seq value h hins ih =>
      obtain ⟨hle, rfl⟩ := internalInsert_eq_ok.1 hins
      exact hput _ _ _ _ h ih rfl hle
  | insertTombstone key seq h hins ih =>
      obtain ⟨hle, rfl⟩ := internalInsert_eq_ok.1 hins
      exact hput _ _ _ _ h ih rfl hle

end Table

end MapApi
