/-
**How a staged write is read back.**

A staged write is read back if it is the newest staged record of its key and does not read as *not
found*; other keys are read as before.

A write that allocates for values is always the newest one, so what `fetch_and_set` reports as the
value after is what a read then finds, and what it reports as the value before is what a read found.
A secondary write stays at the current number.  A deletion staged at that number is above it in the
order of markers, and goes on hiding the key, although the call reports the value as written.

`fetch_and_set` is written twice, as a method of the view and as the default of a trait; the two
copies do the same.

Main definitions:

* `MapApi.ViewGet`, `MapApi.ViewSet`, `MapApi.ViewSet.fetchAndSet` — the traits of a view, and the
  default of `fetch_and_set`;
* `MapApi.View.DeletedNow` — a deletion staged at the current sequence number;
* `MapApi.View.ReadsBack` — a write is read back, and other keys are read as before.

Main results:

* `MapApi.View.Staged.get_stage_of_ne`, `MapApi.View.Staged.get_stage_self` — reads after a staged
  write;
* `MapApi.View.secondary_write_reads_back_iff` — **a secondary write is read back exactly when its
  key is not deleted at the current number**;
* `MapApi.View.fetchAndSet_transition` — **`fetch_and_set` reports the true transition, and is all
  or nothing**.
-/

import MapApi.Discipline
import MapApi.ViewRead

set_option relaxedAutoImplicit false
set_option autoImplicit false

namespace MapApi

/-! ### The traits of a view -/

/-- `ViewGet`: a view that reads keys. -/
class ViewGet (W K : Type) (V : outParam Type) where
  get : W → K → Except Fault (SeqMarked V)

/-- `ViewSet`: a view that writes keys at sequence numbers of its own. -/
class ViewSet (W K : Type) (V : outParam Type) extends ViewGet W K V where
  set : W → K → Option V → Except Fault (Marker × W)

/-- The default `ViewSet::fetch_and_set`. -/
def ViewSet.fetchAndSet {W K V : Type} [ViewSet W K V] (w : W) (key : K) (value : Option V) :
    Except Fault (SeqMarked V × SeqMarked V) × W :=
  match ViewGet.get w key with
  | .error f => (.error f, w)
  | .ok oldValue =>
      if oldValue.isNotFound ∧ value.isNone then (.ok (oldValue, .newTombstone 0), w)
      else
        match ViewSet.set w key value with
        | .error f => (.error f, w)
        | .ok (orderKey, w') =>
            let newValue : SeqMarked V :=
              match value with
              | some value =>
                  match orderKey.marked with
                  | .normal _ => .newNormal orderKey.seq value
                  | .tombStone => .newTombstone orderKey.seq
              | none => .newTombstone orderKey.internalSeq
            (.ok (oldValue, newValue), w')

namespace View

variable {D K V : Type} [LinearOrder K] [GetAtSeq D K V]

instance : ViewSet (View D K V) K V where
  get w key := w.get key
  set w key value := w.set key value

/-- **The trait's default and the view's own method do the same.** -/
theorem viewSet_fetchAndSet (w : View D K V) (key : K) (value : Option V) :
    ViewSet.fetchAndSet w key value = w.fetchAndSet key value := by
  have hget : ViewGet.get w key = w.get key := rfl
  have hset : ViewSet.set w key value = w.set key value := rfl
  rw [ViewSet.fetchAndSet, fetchAndSet, fetchAndSetWithSeqIncrement, hget, hset]
  simp only [if_true]
  cases w.get key with
  | error f => rfl
  | ok old =>
      cases w.set key value with
      | error f => rfl
      | ok p => cases value <;> rfl

/-! ### Reads after a staged write -/

section Stage

variable {n : U64} {log : List (K × SeqMarked V)} {w : View D K V} (hst : Staged n log w)
  {k : K} {x : SeqMarked V} (hx : w.lastSeq ≤ x.seq)

include hst hx

/-- **Other keys are read as before.** -/
theorem Staged.get_stage_of_ne {k' : K} (hk : k' ≠ k) : (w.stage k x).get k' = w.get k' := by
  obtain ⟨r, hr⟩ := w.changes.exists_sees k' w.lastSeq
  have hsame : ∀ m d, w.changes.Holds k' m d ↔ (w.stage k x).changes.Holds k' m d := by
    intro m d
    rw [stage_changes, Table.holds_put]
    simp [hk]
  -- both readers admit every staged record
  have hall : ∀ m d, w.changes.Holds k' m d → (Table.Upto w.lastSeq m ↔ Table.Upto x.seq m) := by
    intro m d hm
    have hle := (hst.seq_of_holds hm).2
    exact iff_of_true hle (hle.trans hx)
  have hchanges : (w.stage k x).changes.get k' x.seq = w.changes.get k' w.lastSeq := by
    rw [Table.get_eq_of_sees hr, Table.get_eq_of_sees (Versions.Sees.congr_store hsame
      (hr.congr hall))]
  rw [get, get, stage_lastSeq, hchanges, stage_snapshot]

/-- **A write that is the newest of its key is read back.** -/
theorem Staged.get_stage_self (hnewest : ∀ m d, w.changes.Holds k m d → m ≤ x.orderKey)
    (hfound : x.isNotFound = false) : (w.stage k x).get k = .ok x := by
  refine get_of_isLatest (hst.stage k hx).paired ⟨?_, ?_, fun m d hm _ => ?_⟩ hfound
  · exact Table.holds_put.2 (Or.inl ⟨rfl, rfl, rfl⟩)
  · rw [Table.Upto, SeqMarked.seq_orderKey, stage_lastSeq]
  · rcases Table.holds_put.1 hm with ⟨-, rfl, -⟩ | ⟨hm, -⟩
    · exact le_rfl
    · exact hnewest m d hm

end Stage

/-! ### Secondary writes -/

/-- The view has staged a deletion of the key at its current sequence number. -/
def DeletedNow (w : View D K V) (k : K) : Prop :=
  ∃ d, w.changes.Holds k (.newTombstone w.lastSeq) d

/-- **The write that a call reports is read back**: at its marker and with its value, and other keys
are read as before. -/
structure ReadsBack (w w' : View D K V) (k : K) (v : V) (m : Marker) : Prop where
  self : ∃ x, w'.get k = .ok x ∧ x.orderKey = m ∧ x.intoData = some v
  other : ∀ k', k' ≠ k → w'.get k' = w.get k'

section Secondary

variable {n : U64} {log : List (K × SeqMarked V)} {w : View D K V} (hst : Staged n log w)
  (hpos : 1 ≤ w.lastSeq)

include hst hpos

/-- A value staged at the current number is read back exactly when its key is not deleted there. -/
theorem Staged.readsBack_secondary_iff (k : K) (v : V) :
    ReadsBack w (w.stage k (.newNormal w.lastSeq v)) k v (.newNormal w.lastSeq ()) ↔
      ¬w.DeletedNow k := by
  have hx : w.lastSeq ≤ (SeqMarked.newNormal w.lastSeq v).seq := le_refl w.lastSeq
  constructor
  · rintro ⟨⟨y, hget, hy, -⟩, -⟩ ⟨d, hd⟩
    -- the deletion stays, and is the newest record
    have hst' := hst.stage k hx
    have hheld : (w.stage k (.newNormal w.lastSeq v)).changes.Holds k (.newTombstone w.lastSeq) d :=
      Table.holds_put.2 (Or.inr ⟨hd, fun h => by cases h.2⟩)
    have hnone : d = none := Option.isNone_iff_eq_none.1 (hst.paired k _ d hd).symm
    rw [hnone] at hheld
    have hfound : (SeqMarked.newTombstone w.lastSeq : SeqMarked V).isNotFound = false :=
      SeqMarked.isNotFound_of_seq_ne (U64.ne_zero_of_one_le hpos)
    have hread : (w.stage k (.newNormal w.lastSeq v)).get k = .ok (.newTombstone w.lastSeq) := by
      refine get_of_isLatest hst'.paired ⟨hheld, le_refl w.lastSeq, fun m d' hm _ => ?_⟩ hfound
      exact Marker.le_newTombstone_iff.2 (hst'.seq_of_holds hm).2
    cases hget.symm.trans hread
    cases hy
  · intro hnot
    refine ⟨⟨_, hst.get_stage_self hx (fun m d hm => ?_) rfl, rfl, rfl⟩,
      fun k' hk => hst.get_stage_of_ne hx hk⟩
    -- what is staged at the current number is a value
    rcases lt_or_eq_of_le (hst.seq_of_holds hm).2 with hlt | heq
    · exact (Marker.lt_of_seq_lt hlt).le
    · rcases m.eq_newNormal_or_newTombstone with ⟨hm', -⟩ | ⟨hm', -⟩
      · rw [hm', heq]
        exact le_rfl
      · rw [hm', heq] at hm
        exact absurd ⟨d, hm⟩ hnot

end Secondary

/-- **A secondary write is read back exactly when the view has not staged a deletion of its key at
the current sequence number**, in every state of a view over a table.  Setting a value there never
fails; fetching and setting it fails only with the read before it. -/
theorem secondary_write_reads_back_iff {s : U64} (hs : 1 ≤ s) {base : Table K V} {inc : Bool}
    {calls : List (Call K V)} {replies : List (Reply V)} {w : View (Table K V) K V}
    (hrun : (ofTable s base inc).run calls = .ok (replies, w)) (k : K) (v : V) :
    (∃ m w', w.setWithoutSeqIncrement k (some v) = .ok (m, w') ∧
      (ReadsBack w w' k v m ↔ ¬w.DeletedNow k)) ∧
    (∀ f, w.get k = .error f →
      w.fetchAndSetWithoutSeqIncrement k (some v) = (.error f, w)) ∧
    ∀ old, w.get k = .ok old →
      ∃ new w', w.fetchAndSetWithoutSeqIncrement k (some v) = (.ok (old, new), w') ∧
        new.intoData = some v ∧ (ReadsBack w w' k v new.orderKey ↔ ¬w.DeletedNow k) := by
  obtain ⟨hst, -, -⟩ := staged_run (ofTable_changes s base inc) hrun
  have hpos : 1 ≤ w.lastSeq := hs.trans hst.initial_le
  have hnext : w.nextValue? false (some v) = some (.newNormal w.lastSeq v) := rfl
  refine ⟨⟨.newNormal w.lastSeq (), w.stage k (.newNormal w.lastSeq v), ?_,
    hst.readsBack_secondary_iff hpos k v⟩, fun f hf => ?_, fun old hold => ?_⟩
  · rw [hst.ready.setWithoutSeqIncrement_eq, hnext]
    rfl
  · rw [fetchAndSetWithoutSeqIncrement, hst.ready.fetchAndSet_eq, hf]
  · refine ⟨.newNormal w.lastSeq v, w.stage k (.newNormal w.lastSeq v), ?_, rfl,
      hst.readsBack_secondary_iff hpos k v⟩
    rw [fetchAndSetWithoutSeqIncrement, hst.ready.fetchAndSet_eq, hold]
    simp only [hnext]
    rw [if_neg fun h => by cases h.2]

/-- A secondary write of a key deleted at an earlier number. -/
theorem secondary_write_sample :
    ∃ replies, ∃ w w' : View (Table ℕ ℕ) ℕ ℕ, ∃ m,
      (ofTable 1 Table.new false).run [.set 1 none, .set 2 (some 20)] = .ok (replies, w) ∧
      w.setWithoutSeqIncrement 1 (some 10) = .ok (m, w') ∧ ReadsBack w w' 1 10 m := by
  obtain ⟨replies, w, hrun⟩ : ∃ replies, ∃ w : View (Table ℕ ℕ) ℕ ℕ,
      (ofTable 1 Table.new false).run [.set 1 none, .set 2 (some 20)] = .ok (replies, w) :=
    ⟨_, _, rfl⟩
  obtain ⟨⟨m, w', hset, hiff⟩, -⟩ := secondary_write_reads_back_iff (by decide) hrun 1 10
  refine ⟨replies, w, w', m, hrun, hset, hiff.2 ?_⟩
  cases hrun
  rintro ⟨d, hd⟩
  have hnone : ∀ e ∈ (((Table.new.insertTombstone 1 1).2.insert 2 2 20).2 :
      Table ℕ ℕ).inner.entries, e.1 ≠ ⟨1, .newTombstone 2⟩ := by decide
  exact hnone _ hd rfl

/-- After a deletion at the current number, both calls report a value that is not read back. -/
theorem secondary_write_lost :
    ∃ replies, ∃ w : View (Table ℕ ℕ) ℕ ℕ,
      (ofTable 1 Table.new false).run [.set 1 none] = .ok (replies, w) ∧
      (∃ w', w.setWithoutSeqIncrement 1 (some 10) = .ok (.newNormal 1 (), w') ∧
        w'.get 1 = .ok (.newTombstone 1) ∧ ¬ReadsBack w w' 1 10 (.newNormal 1 ())) ∧
      ∃ w', w.fetchAndSetWithoutSeqIncrement 1 (some 10) =
          (.ok (.newTombstone 1, .newNormal 1 10), w') ∧
        w'.get 1 = .ok (.newTombstone 1) ∧ ¬ReadsBack w w' 1 10 (.newNormal 1 ()) := by
  have hnot : ∀ {w w' : View (Table ℕ ℕ) ℕ ℕ}, w'.get 1 = .ok (.newTombstone 1) →
      ¬ReadsBack w w' 1 10 (.newNormal 1 ()) := by
    rintro w w' hget ⟨⟨x, hx, hmark, -⟩, -⟩
    cases hx.symm.trans hget
    cases hmark
  refine ⟨_, _, rfl, ⟨_, rfl, ?_, hnot ?_⟩, _, rfl, ?_, hnot ?_⟩
  all_goals decide

/-! ### Fetching and setting -/

/-- **`fetch_and_set` reports the true transition, and is all or nothing.**  In every state of a
view, over any reader and from any initial number, whose counter is not at `0`: if the read fails,
the call fails with it and leaves the view; otherwise the call overflows, from the last sequence
number, or it returns what a read answered before it and what a read answers after it, other keys
are read as before, and deleting a key that is not found leaves the view.  The default of the trait
does the same. -/
theorem fetchAndSet_transition {snapshot : Snapshot D} {inc : Bool} {n : U64}
    {calls : List (Call K V)} {replies : List (Reply V)} {w : View D K V}
    (hrun : (fresh snapshot inc n).run calls = .ok (replies, w)) (hpos : 1 ≤ w.lastSeq) (k : K)
    (value : Option V) :
    (∀ f, w.get k = .error f → w.fetchAndSet k value = (.error f, w)) ∧
    (∀ old, w.get k = .ok old →
      (w.lastSeq = U64.max ∧ w.fetchAndSet k value = (.error .overflow, w)) ∨
      ∃ new w', w.fetchAndSet k value = (.ok (old, new), w') ∧ w'.get k = .ok new ∧
        (∀ k', k' ≠ k → w'.get k' = w.get k') ∧
        (old.isNotFound = true → value = none → w' = w)) ∧
    ViewSet.fetchAndSet w k value = w.fetchAndSet k value := by
  obtain ⟨hst, -, -⟩ := staged_run (fresh_changes snapshot inc n) hrun
  refine ⟨fun f hf => ?_, fun old hold => ?_, viewSet_fetchAndSet w k value⟩
  · rw [fetchAndSet, hst.ready.fetchAndSet_eq, hf]
  · rw [fetchAndSet, hst.ready.fetchAndSet_eq, hold]
    by_cases hnone : old.isNotFound = true ∧ value.isNone = true
    · -- nothing to delete: what is read is *not found*, before and after
      refine Or.inr ⟨.newTombstone 0, w, ?_, ?_, fun _ _ => rfl, fun _ _ => rfl⟩
      · simp only [if_pos hnone]
      · rw [hold, SeqMarked.isNotFound_iff.1 hnone.1]
        rfl
    · simp only [if_neg hnone]
      cases hx : w.nextValue? true value with
      | none => exact Or.inl ⟨eq_max_of_nextValue? hx, rfl⟩
      | some x =>
          have hle := le_of_nextValue? hx
          refine Or.inr ⟨x, w.stage k x, rfl, hst.get_stage_self hle (fun m d hm => ?_) ?_,
            fun k' hk => hst.get_stage_of_ne hle hk, fun hnf hv => ?_⟩
          · -- a write that allocates is above everything staged
            exact le_trans (Marker.le_newTombstone_iff.2 (hst.seq_of_holds hm).2)
              (newTombstone_le_of_nextValue? hx)
          · exact SeqMarked.isNotFound_of_seq_ne (U64.ne_zero_of_one_le (hpos.trans hle))
          · exact absurd ⟨hnf, by rw [hv]; rfl⟩ hnone

/-- A key that was deleted at the initial number is set to a value. -/
theorem fetchAndSet_transition_sample :
    ∃ replies, ∃ w w' : View (Table ℕ ℕ) ℕ ℕ,
      (fresh (.new 3 Table.new) false 3).run [.set 1 none] = .ok (replies, w) ∧
      w.fetchAndSet 1 (some 5) = (.ok (.newTombstone 3, .newNormal 4 5), w') ∧
      w'.get 1 = .ok (.newNormal 4 5) := by
  obtain ⟨replies, w, hrun, hpos, hold, hfetch⟩ : ∃ replies, ∃ w : View (Table ℕ ℕ) ℕ ℕ,
      (fresh (.new 3 Table.new) false 3).run [.set 1 none] = .ok (replies, w) ∧
      1 ≤ w.lastSeq ∧ w.get 1 = .ok (.newTombstone 3) ∧
      (w.fetchAndSet 1 (some 5)).1 = .ok (.newTombstone 3, .newNormal 4 5) :=
    ⟨_, _, rfl, by decide, by decide, by decide⟩
  rcases (fetchAndSet_transition hrun hpos 1 (some 5)).2.1 _ hold with
    ⟨-, hover⟩ | ⟨new, w', hnew, hread, -⟩
  · rw [hover] at hfetch
    cases hfetch
  · rw [hnew] at hfetch
    cases hfetch
    exact ⟨replies, w, w', hrun, hnew, hread⟩

end View

end MapApi
