/-
**Views: transactions that stage their writes over a snapshot.**

A view reads a fixed snapshot of some reader and stages its own writes in a table of changes.  It
owns a counter of sequence numbers: a value takes the next one, a deletion takes the next one or
stays at the current one, depending on a setting, and a secondary change always stays.  A read asks
the changes first and the snapshot second; a range read merges the two.

The functions here are those of `mvcc/view.rs`, `mvcc/snapshot/mod.rs` and `mvcc/read_at_seq.rs`.
A reader is anything that answers reads at a sequence number, tables among them; it may hand on an
`io::Error`, and a panic is a `MapApi.Fault`.

Main definitions:

* `MapApi.GetAtSeq`, `MapApi.RangeAtSeq`, `MapApi.Snapshot` — readers, and a snapshot of one;
* `MapApi.View` — the view, with `View.set`, `View.setWithoutSeqIncrement`, `View.fetchAndSet`,
  `View.fetchAndSetWithoutSeqIncrement`, `View.get`, `View.range` and `View.intoParts`;
* `MapApi.Call`, `MapApi.View.run` — the staging calls, and a sequence of them;
* `MapApi.stagedLog` — the writes a sequence of calls has staged, read off its replies.

Main results:

* `MapApi.View.Ready.call_eq` — **what one staging call does**: it fails, stages nothing, or stages
  one record at the marker its kind is given.
-/

import MapApi.TableRead

set_option relaxedAutoImplicit false
set_option autoImplicit false

namespace MapApi

/-! ### Readers and snapshots -/

/-- `GetAtSeq`: a reader that answers point reads at a sequence number. -/
class GetAtSeq (D K : Type) (V : outParam Type) where
  getAtSeq : D → K → U64 → Except Fault (SeqMarked V)

/-- `RangeAtSeq`: a reader that answers range reads at a sequence number. -/
class RangeAtSeq (D K : Type) (V : outParam Type) where
  rangeAtSeq : D → RangeBounds K → U64 → Except Fault (List (KVResult K V))

instance {K V : Type} [LinearOrder K] : GetAtSeq (Table K V) K V where
  getAtSeq t key snapshotSeq := t.get key snapshotSeq

instance {K V : Type} [LinearOrder K] : RangeAtSeq (Table K V) K V where
  rangeAtSeq t range snapshotSeq := do
    let values ← t.range range snapshotSeq
    return items values

/-- `GetAtSeq::get_many_at_seq`, as the trait provides it: one read after the other, up to the first
that fails. -/
def getManyAtSeq {D K V : Type} [GetAtSeq D K V] (d : D) (keys : List K) (snapshotSeq : U64) :
    Except Fault (List (SeqMarked V)) :=
  keys.mapM fun key => GetAtSeq.getAtSeq d key snapshotSeq

/-- `Snapshot`: a reader at a fixed sequence number. -/
structure Snapshot (D : Type) where
  snapshotSeq : U64
  data : D
  deriving DecidableEq

namespace Snapshot

variable {D K V : Type}

/-- `Snapshot::new`. -/
def new (snapshotSeq : U64) (data : D) : Snapshot D := ⟨snapshotSeq, data⟩

/-- `Snapshot::get`. -/
def get [GetAtSeq D K V] (s : Snapshot D) (key : K) : Except Fault (SeqMarked V) :=
  GetAtSeq.getAtSeq s.data key s.snapshotSeq

/-- `Snapshot::get_many`. -/
def getMany [GetAtSeq D K V] (s : Snapshot D) (keys : List K) :
    Except Fault (List (SeqMarked V)) :=
  getManyAtSeq s.data keys s.snapshotSeq

/-- `Snapshot::range`. -/
def range [RangeAtSeq D K V] (s : Snapshot D) (range : RangeBounds K) :
    Except Fault (List (KVResult K V)) :=
  RangeAtSeq.rangeAtSeq s.data range s.snapshotSeq

end Snapshot

/-! ### The view -/

/-- **`View`**: a snapshot with staged changes. -/
structure View (D K V : Type) [LinearOrder K] where
  /-- Whether deleting a key allocates a new sequence. -/
  increaseSeqForTombstone : Bool
  changes : Table K V
  lastSeq : U64
  snapshot : Snapshot D
  deriving DecidableEq

namespace View

variable {D K V : Type} [LinearOrder K]

/-- `View::new`. -/
def new (snapshot : Snapshot D) : View D K V where
  increaseSeqForTombstone := false
  changes := .new
  lastSeq := snapshot.snapshotSeq
  snapshot := snapshot

/-- `View::with_tombstone_seq_increment`. -/
def withTombstoneSeqIncrement (w : View D K V) (enable : Bool) : View D K V :=
  { w with increaseSeqForTombstone := enable }

/-- `View::with_initial_seq`. -/
def withInitialSeq (w : View D K V) (seq : U64) : View D K V := { w with lastSeq := seq }

/-- `View::current_normal_seq`. -/
def currentNormalSeq (w : View D K V) : Marker := .newNormal w.lastSeq ()

/-- `View::next_normal_seq`. -/
def nextNormalSeq (w : View D K V) : Except Fault (Marker × View D K V) := do
  let lastSeq ← orFault .overflow w.lastSeq.succ?
  return (.newNormal lastSeq (), { w with lastSeq })

/-- `View::next_tombstone_seq`. -/
def nextTombstoneSeq (w : View D K V) : Except Fault (Marker × View D K V) := do
  let lastSeq ←
    if w.increaseSeqForTombstone then orFault .overflow w.lastSeq.succ? else .ok w.lastSeq
  return (.newTombstone lastSeq, { w with lastSeq })

/-- `View::set`: stage a value at the next sequence number, or a deletion. -/
def set (w : View D K V) (key : K) (value : Option V) : Except Fault (Marker × View D K V) := do
  let (seq, w) ←
    match value with
    | none => w.nextTombstoneSeq
    | some _ => w.nextNormalSeq
  let seqNum := seq.internalSeq
  let changes ←
    match value with
    | some value => Table.unwrapInsert (w.changes.insert key seqNum value)
    | none => Table.unwrapInsert (w.changes.insertTombstone key seqNum)
  return (seq, { w with changes })

/-- `View::set_without_seq_increment`: stage a value at the current sequence number, or a
deletion. -/
def setWithoutSeqIncrement (w : View D K V) (key : K) (value : Option V) :
    Except Fault (Marker × View D K V) :=
  match value with
  | none => w.set key none
  | some value => do
      let seq := w.currentNormalSeq
      let seqNum := seq.internalSeq
      let changes ← Table.unwrapInsert (w.changes.insert key seqNum value)
      return (seq, { w with changes })

/-- `View::range`: the snapshot's records and the staged ones, merged. -/
def range [RangeAtSeq D K V] (P : KMerge.Picker Fault (KVResult K V)) (w : View D K V)
    (range : RangeBounds K) : Except Fault (List (KVResult K V)) := do
  let base ← w.snapshot.range range
  let updates ← w.changes.range range w.lastSeq
  mergeStreams P [base, items updates]

/-- `View::into_parts`: the reader, the final sequence number, and the staged changes. -/
def intoParts (w : View D K V) : D × U64 × Table K V := (w.snapshot.data, w.lastSeq, w.changes)

section Get

variable [GetAtSeq D K V]

/-- `View::get`: the staged value, or the snapshot's if none is staged. -/
def get (w : View D K V) (key : K) : Except Fault (SeqMarked V) := do
  let updated ← w.changes.get key w.lastSeq
  if ¬updated.isNotFound then return updated
  let base ← w.snapshot.get key
  return compactSeqMarkedPair updated base

/-- `View::get_many`, which is `ViewGet::get_many` as the trait provides it. -/
def getMany (w : View D K V) (keys : List K) : Except Fault (List (SeqMarked V)) :=
  keys.mapM fun key => w.get key

/-- `View::fetch_and_set_with_seq_increment`: the value before and the value after.  Deleting a key
that is not found stages nothing; a failed read leaves the view as it was. -/
def fetchAndSetWithSeqIncrement (w : View D K V) (key : K) (value : Option V)
    (increaseSeq : Bool) : Except Fault (SeqMarked V × SeqMarked V) × View D K V :=
  match w.get key with
  | .error f => (.error f, w)
  | .ok oldValue =>
      if oldValue.isNotFound ∧ value.isNone then (.ok (oldValue, .newTombstone 0), w)
      else
        match if increaseSeq then w.set key value else w.setWithoutSeqIncrement key value with
        | .error f => (.error f, w)
        | .ok (orderKey, w') =>
            let newValue : SeqMarked V :=
              match value with
              | some value =>
                  match orderKey.marked with
                  | .normal _ => .newNormal orderKey.seq value
                  | .tombStone => .newTombstone orderKey.seq
              | none => .newTombstone orderKey.internalSeq
            (.ok (oldValue, newValue), w')

/-- `View::fetch_and_set`. -/
def fetchAndSet (w : View D K V) (key : K) (value : Option V) :
    Except Fault (SeqMarked V × SeqMarked V) × View D K V :=
  w.fetchAndSetWithSeqIncrement key value true

/-- `View::fetch_and_set_without_seq_increment`. -/
def fetchAndSetWithoutSeqIncrement (w : View D K V) (key : K) (value : Option V) :
    Except Fault (SeqMarked V × SeqMarked V) × View D K V :=
  w.fetchAndSetWithSeqIncrement key value false

end Get

end View

/-! ### Staging calls -/

/-- **A staging call** of a view. -/
inductive Call (K V : Type) where
  | set (key : K) (value : Option V)
  | setWithoutSeqIncrement (key : K) (value : Option V)
  | fetchAndSet (key : K) (value : Option V)
  | fetchAndSetWithoutSeqIncrement (key : K) (value : Option V)
  deriving DecidableEq

/-- What a staging call returns: a marker, or the values before and after. -/
inductive Reply (V : Type) where
  | marker (m : Marker)
  | beforeAfter (old new : SeqMarked V)
  deriving DecidableEq

namespace Call

variable {K V : Type}

def key : Call K V → K
  | set k _ | setWithoutSeqIncrement k _ | fetchAndSet k _ | fetchAndSetWithoutSeqIncrement k _ => k

def value : Call K V → Option V
  | set _ v | setWithoutSeqIncrement _ v | fetchAndSet _ v | fetchAndSetWithoutSeqIncrement _ v => v

/-- The calls that allocate a sequence number for a value. -/
def increaseSeq : Call K V → Bool
  | set _ _ | fetchAndSet _ _ => true
  | setWithoutSeqIncrement _ _ | fetchAndSetWithoutSeqIncrement _ _ => false

/-- The calls that read before they write. -/
def fetches : Call K V → Bool
  | set _ _ | setWithoutSeqIncrement _ _ => false
  | fetchAndSet _ _ | fetchAndSetWithoutSeqIncrement _ _ => true

/-- **The write a call has staged**, read off its reply: its key, with the value at the marker
returned. -/
def staged (c : Call K V) : Reply V → Option (K × SeqMarked V)
  | .marker m => some (c.key, .ofData m.seq c.value)
  | .beforeAfter old new =>
      if old.isNotFound ∧ c.value.isNone then none else some (c.key, new)

end Call

/-- The writes a sequence of calls has staged, read off its replies. -/
def stagedLog {K V : Type} (calls : List (Call K V)) (replies : List (Reply V)) :
    List (K × SeqMarked V) :=
  (calls.zip replies).filterMap fun p => p.1.staged p.2

namespace View

variable {D K V : Type} [LinearOrder K]

section Run

variable [GetAtSeq D K V]

/-- One staging call: its reply, and the view it leaves. -/
def call (w : View D K V) : Call K V → Except Fault (Reply V) × View D K V
  | .set key value =>
      match w.set key value with
      | .ok (m, w') => (.ok (.marker m), w')
      | .error f => (.error f, w)
  | .setWithoutSeqIncrement key value =>
      match w.setWithoutSeqIncrement key value with
      | .ok (m, w') => (.ok (.marker m), w')
      | .error f => (.error f, w)
  | .fetchAndSet key value =>
      let (r, w') := w.fetchAndSet key value
      (r.map fun p => .beforeAfter p.1 p.2, w')
  | .fetchAndSetWithoutSeqIncrement key value =>
      let (r, w') := w.fetchAndSetWithoutSeqIncrement key value
      (r.map fun p => .beforeAfter p.1 p.2, w')

/-- **A sequence of staging calls**, up to the first one that fails. -/
def run (w : View D K V) : List (Call K V) → Except Fault (List (Reply V) × View D K V)
  | [] => .ok ([], w)
  | c :: calls =>
      match w.call c with
      | (.error f, _) => .error f
      | (.ok reply, w') => do
          let (replies, w'') ← run w' calls
          return (reply :: replies, w'')

end Run

/-! ### What one call does -/

/-- The value a write stages, with its sequence number: the next one if the write allocates one.
There is none past the last sequence number. -/
def nextValue? (w : View D K V) (increaseSeq : Bool) (value : Option V) : Option (SeqMarked V) :=
  let allocates := if value.isSome then increaseSeq else w.increaseSeqForTombstone
  (if allocates then w.lastSeq.succ? else some w.lastSeq).map fun n => .ofData n value

/-- The view with one more write staged, and the counter at its sequence number. -/
def stage (w : View D K V) (key : K) (x : SeqMarked V) : View D K V :=
  { w with changes := w.changes.put key x.orderKey x.intoData, lastSeq := x.seq }

@[simp] theorem stage_lastSeq (w : View D K V) (k : K) (x : SeqMarked V) :
    (w.stage k x).lastSeq = x.seq := rfl
@[simp] theorem stage_snapshot (w : View D K V) (k : K) (x : SeqMarked V) :
    (w.stage k x).snapshot = w.snapshot := rfl
@[simp] theorem stage_increaseSeqForTombstone (w : View D K V) (k : K) (x : SeqMarked V) :
    (w.stage k x).increaseSeqForTombstone = w.increaseSeqForTombstone := rfl
@[simp] theorem stage_changes (w : View D K V) (k : K) (x : SeqMarked V) :
    (w.stage k x).changes = w.changes.put k x.orderKey x.intoData := rfl

/-- The staged changes are not ahead of the counter, so their table refuses no write. -/
def Ready (w : View D K V) : Prop := w.changes.lastSeq.seq ≤ w.lastSeq

theorem nextValue?_intoData {w : View D K V} {inc : Bool} {value : Option V} {x : SeqMarked V}
    (h : w.nextValue? inc value = some x) : x = .ofData x.seq value := by
  obtain ⟨n, -, rfl⟩ := Option.map_eq_some_iff.1 h
  rw [SeqMarked.seq_ofData]

theorem le_of_nextValue? {w : View D K V} {inc : Bool} {value : Option V} {x : SeqMarked V}
    (h : w.nextValue? inc value = some x) : w.lastSeq ≤ x.seq := by
  obtain ⟨n, hn, rfl⟩ := Option.map_eq_some_iff.1 h
  rw [SeqMarked.seq_ofData]
  split_ifs at hn
  · exact (U64.lt_of_succ? hn).le
  · exact (Option.some_inj.1 hn).le
  · exact (U64.lt_of_succ? hn).le
  · exact (Option.some_inj.1 hn).le

/-- Only the last sequence number has no next one. -/
theorem eq_max_of_nextValue? {w : View D K V} {inc : Bool} {value : Option V}
    (h : w.nextValue? inc value = none) : w.lastSeq = U64.max := by
  rw [nextValue?, Option.map_eq_none_iff] at h
  split_ifs at h
  · exact U64.eq_max_of_succ? h
  · exact U64.eq_max_of_succ? h

/-- A write that allocates for values is at or above the tombstone of the current number. -/
theorem newTombstone_le_of_nextValue? {w : View D K V} {value : Option V} {x : SeqMarked V}
    (h : w.nextValue? true value = some x) : .newTombstone w.lastSeq ≤ x.orderKey := by
  cases value with
  | some v =>
      obtain ⟨n, hn, rfl⟩ := Option.map_eq_some_iff.1 h
      have hn' : w.lastSeq.succ? = some n := hn
      exact (Marker.lt_of_seq_lt (U64.lt_of_succ? hn')).le
  | none =>
      have hle := le_of_nextValue? h
      rw [nextValue?_intoData h]
      exact Marker.le_newTombstone_iff.2 hle

/-- With the setting on, a deletion allocates as well. -/
theorem lt_of_nextValue? {w : View D K V} (hinc : w.increaseSeqForTombstone = true)
    {value : Option V} {x : SeqMarked V} (h : w.nextValue? true value = some x) :
    w.lastSeq < x.seq := by
  obtain ⟨n, hn, rfl⟩ := Option.map_eq_some_iff.1 h
  rw [SeqMarked.seq_ofData]
  rw [hinc] at hn
  exact U64.lt_of_succ? (by simpa using hn)

/-- A write above the staged ones is accepted by the table of changes. -/
theorem Ready.unwrapInsert {w : View D K V} (h : w.Ready) (k : K) {x : SeqMarked V}
    (hx : w.lastSeq ≤ x.seq) :
    Table.unwrapInsert (w.changes.internalInsert k x.orderKey x.intoData) =
      .ok (w.changes.put k x.orderKey x.intoData) :=
  Table.unwrapInsert_eq_ok.2 ⟨by simpa using le_trans h hx, rfl⟩

/-- **`set` stages one value**, or overflows. -/
theorem Ready.set_eq {w : View D K V} (h : w.Ready) (k : K) (value : Option V) :
    w.set k value =
      (orFault .overflow (w.nextValue? true value)).map fun x => (x.orderKey, w.stage k x) := by
  cases value with
  | some v =>
      cases hn : w.lastSeq.succ? with
      | none => simp [set, nextNormalSeq, nextValue?, hn, Except.map]
      | some n =>
          have hx : Table.unwrapInsert (w.changes.insert k n v) = _ :=
            h.unwrapInsert k (x := .ofData n (some v)) (U64.lt_of_succ? hn).le
          simp [set, nextNormalSeq, nextValue?, hn, hx, Except.map, stage]
  | none =>
      by_cases hinc : w.increaseSeqForTombstone = true
      · cases hn : w.lastSeq.succ? with
        | none => simp [set, nextTombstoneSeq, nextValue?, hinc, hn, Except.map]
        | some n =>
            have hx : Table.unwrapInsert (w.changes.insertTombstone k n) = _ :=
              h.unwrapInsert k (x := .ofData n none) (U64.lt_of_succ? hn).le
            simp [set, nextTombstoneSeq, nextValue?, hinc, hn, hx, Except.map, stage]
      · have hx : Table.unwrapInsert (w.changes.insertTombstone k w.lastSeq) = _ :=
          h.unwrapInsert k (x := .ofData w.lastSeq none) le_rfl
        simp [set, nextTombstoneSeq, nextValue?, hinc, hx, Except.map, stage]

/-- **`set_without_seq_increment` stages one value**, or overflows. -/
theorem Ready.setWithoutSeqIncrement_eq {w : View D K V} (h : w.Ready) (k : K)
    (value : Option V) :
    w.setWithoutSeqIncrement k value =
      (orFault .overflow (w.nextValue? false value)).map fun x => (x.orderKey, w.stage k x) := by
  cases value with
  | some v =>
      have hx : Table.unwrapInsert (w.changes.insert k w.lastSeq v) = _ :=
        h.unwrapInsert k (x := .ofData w.lastSeq (some v)) le_rfl
      simp [setWithoutSeqIncrement, currentNormalSeq, nextValue?, hx, Except.map, stage]
  | none => exact h.set_eq k none

end View

namespace Call

variable {K V : Type}

/-- Only a deletion stages nothing. -/
theorem isNone_of_staged_eq_none {c : Call K V} {reply : Reply V} (h : c.staged reply = none) :
    c.value.isNone = true := by
  cases reply with
  | marker m => cases h
  | beforeAfter old new =>
      rw [staged] at h
      split_ifs at h with hnone
      exact hnone.2

/-- **The outcome of a staging call**, from the value before and the value it would stage: its
reply, and what it stages. -/
def outcome (c : Call K V) (old : Except Fault (SeqMarked V)) (next : Option (SeqMarked V)) :
    Except Fault (Reply V × Option (SeqMarked V)) :=
  if c.fetches then
    match old with
    | .error f => .error f
    | .ok old =>
        if old.isNotFound ∧ c.value.isNone then .ok (.beforeAfter old (.newTombstone 0), none)
        else
          match next with
          | none => .error .overflow
          | some x => .ok (.beforeAfter old x, some x)
  else
    match next with
    | none => .error .overflow
    | some x => .ok (.marker x.orderKey, some x)

/-- A call fails with the read before it, or for lack of a next sequence number. -/
theorem outcome_eq_error {c : Call K V} {old : Except Fault (SeqMarked V)}
    {next : Option (SeqMarked V)} {f : Fault} (h : c.outcome old next = .error f) :
    old = .error f ∨ (f = .overflow ∧ next = none) := by
  unfold outcome at h
  split_ifs at h with hf
  · match old with
    | .error e => cases h; exact Or.inl rfl
    | .ok old =>
        simp only at h
        split_ifs at h
        cases next with
        | none => cases h; exact Or.inr ⟨rfl, rfl⟩
        | some x => cases h
  · cases next with
    | none => cases h; exact Or.inr ⟨rfl, rfl⟩
    | some x => cases h

/-- **The outcomes of a call that succeeds**: a deletion of a key that is not found, or a staged
value that it returns. -/
theorem outcome_cases {c : Call K V} {old : Except Fault (SeqMarked V)}
    {next : Option (SeqMarked V)} {reply : Reply V} {sx : Option (SeqMarked V)}
    (h : c.outcome old next = .ok (reply, sx)) :
    (sx = none ∧ ∃ o, old = .ok o ∧ (o.isNotFound ∧ c.value.isNone) ∧
      reply = .beforeAfter o (.newTombstone 0)) ∨
    ∃ x, sx = some x ∧ next = some x ∧ (reply = .marker x.orderKey ∨
      ∃ o, old = .ok o ∧ ¬(o.isNotFound ∧ c.value.isNone) ∧ reply = .beforeAfter o x) := by
  unfold outcome at h
  split_ifs at h with hf
  · match old with
    | .error e => cases h
    | .ok o =>
        simp only at h
        split_ifs at h with hnone
        · cases h
          exact Or.inl ⟨rfl, o, rfl, hnone, rfl⟩
        · cases next with
          | none => cases h
          | some x =>
              cases h
              exact Or.inr ⟨x, rfl, rfl, Or.inr ⟨o, rfl, hnone, rfl⟩⟩
  · cases next with
    | none => cases h
    | some x =>
        cases h
        exact Or.inr ⟨x, rfl, rfl, Or.inl rfl⟩

/-- What a call stages is what its reply says, and what the view had next. -/
theorem outcome_eq_ok {c : Call K V} {old : Except Fault (SeqMarked V)}
    {next : Option (SeqMarked V)} (hnext : ∀ x, next = some x → x = .ofData x.seq c.value)
    {reply : Reply V} {sx : Option (SeqMarked V)} (h : c.outcome old next = .ok (reply, sx)) :
    c.staged reply = sx.map (fun x => (c.key, x)) ∧ ∀ x, sx = some x → next = some x := by
  rcases outcome_cases h with ⟨rfl, o, -, hnone, rfl⟩ |
    ⟨x, rfl, hx, rfl | ⟨o, -, hsome, rfl⟩⟩
  · exact ⟨if_pos hnone, nofun⟩
  · refine ⟨?_, fun _ hy => hx.trans hy⟩
    rw [staged, SeqMarked.seq_orderKey, ← hnext x hx]
    rfl
  · exact ⟨if_neg hsome, fun _ hy => hx.trans hy⟩

end Call

namespace View

variable {D K V : Type} [LinearOrder K] [GetAtSeq D K V]

/-- `fetch_and_set` reads, and stages as the plain call does. -/
theorem Ready.fetchAndSet_eq {w : View D K V} (h : w.Ready) (k : K) (value : Option V)
    (inc : Bool) :
    w.fetchAndSetWithSeqIncrement k value inc =
      match w.get k with
      | .error f => (.error f, w)
      | .ok old =>
          if old.isNotFound ∧ value.isNone then (.ok (old, .newTombstone 0), w)
          else
            match w.nextValue? inc value with
            | none => (.error .overflow, w)
            | some x => (.ok (old, x), w.stage k x) := by
  unfold fetchAndSetWithSeqIncrement
  cases w.get k with
  | error f => rfl
  | ok old =>
      have hset : (if inc then w.set k value else w.setWithoutSeqIncrement k value) =
          (orFault .overflow (w.nextValue? inc value)).map fun x => (x.orderKey, w.stage k x) := by
        cases inc
        · exact h.setWithoutSeqIncrement_eq k value
        · exact h.set_eq k value
      simp only [hset]
      split_ifs
      · rfl
      · cases hx : w.nextValue? inc value with
        | none => rfl
        | some x =>
            rw [nextValue?_intoData hx]
            cases value <;> rfl

/-- A reading call, from the plain call it stages by. -/
theorem Ready.call_fetch_eq {w : View D K V} (h : w.Ready) (c : Call K V) (hf : c.fetches) :
    (((w.fetchAndSetWithSeqIncrement c.key c.value c.increaseSeq).1.map fun p =>
        Reply.beforeAfter p.1 p.2),
      (w.fetchAndSetWithSeqIncrement c.key c.value c.increaseSeq).2) =
      match c.outcome (w.get c.key) (w.nextValue? c.increaseSeq c.value) with
      | .error f => (.error f, w)
      | .ok (reply, none) => (.ok reply, w)
      | .ok (reply, some x) => (.ok reply, w.stage c.key x) := by
  rw [h.fetchAndSet_eq]
  simp only [Call.outcome, hf, if_true]
  cases w.get c.key with
  | error f => rfl
  | ok old =>
      simp only
      split_ifs
      · rfl
      · cases w.nextValue? c.increaseSeq c.value <;> rfl

/-- **What one staging call does**: it fails and leaves the view, stages nothing, or stages one
write. -/
theorem Ready.call_eq {w : View D K V} (h : w.Ready) (c : Call K V) :
    w.call c =
      match c.outcome (w.get c.key) (w.nextValue? c.increaseSeq c.value) with
      | .error f => (.error f, w)
      | .ok (reply, none) => (.ok reply, w)
      | .ok (reply, some x) => (.ok reply, w.stage c.key x) := by
  cases c with
  | set k value =>
      rw [call, h.set_eq]
      simp only [Call.outcome, Call.fetches, Call.increaseSeq, Call.value, Call.key]
      cases w.nextValue? true value <;> rfl
  | setWithoutSeqIncrement k value =>
      rw [call, h.setWithoutSeqIncrement_eq]
      simp only [Call.outcome, Call.fetches, Call.increaseSeq, Call.value, Call.key]
      cases w.nextValue? false value <;> rfl
  | fetchAndSet k value => exact h.call_fetch_eq (.fetchAndSet k value) rfl
  | fetchAndSetWithoutSeqIncrement k value =>
      exact h.call_fetch_eq (.fetchAndSetWithoutSeqIncrement k value) rfl

end View

end MapApi
