/-
**A view without snapshot and an in-memory level are the same map.**

A level keeps one record per key and overwrites it.  A view keeps every staged version in a table
that lists them from the newest on, selects one by the current sequence number, and merges it with
what its snapshot answers.  Over a snapshot without records, with deletions that stay at the current
number, the two allocate the same markers and answer the same reads.

The simulation relates the level to the log the view has staged: the level holds the last write of
each key.  The markers of the log never decrease, so the last write of a key is also its newest
staged record; a deletion at sequence number `0` reads as *not found*, which is what a snapshot
without records answers as well.

Main definitions:

* `MapApi.setCalls` — a sequence of `set` calls of a view;
* `MapApi.View.Mirrors` — the simulation.

Main results:

* `MapApi.View.Mirrors.set`, `MapApi.View.Mirrors.run` — one write, and a sequence of them, keep it;
* `MapApi.View.Mirrors.get`, `MapApi.View.Mirrors.range` — reads under it;
* `MapApi.View.view_is_level` — **a view and a level implement the same map**.
-/

import MapApi.LevelSplit
import MapApi.ViewRead

set_option relaxedAutoImplicit false
set_option autoImplicit false

namespace MapApi

/-- A sequence of `set` calls. -/
def setCalls {K V : Type} (sets : List (K × Option V)) : List (Call K V) :=
  sets.map fun e => .set e.1 e.2

namespace View

variable {K V : Type} [LinearOrder K]

/-- **The level mirrors the view**: it counts as the view does, and holds the last write staged at
each key. -/
structure Mirrors (log : List (K × SeqMarked V)) (w : View (Table K V) K V) (l : Level K V) :
    Prop where
  staged : Staged 0 log w
  dominates : Dominates 0 w.increaseSeqForTombstone log
  snapshot_eq : w.snapshot = .new 0 .new
  setting : w.increaseSeqForTombstone = false
  seq_eq : l.seq = w.lastSeq
  get?_eq : ∀ k, l.map.get? k = lastStaged log k

theorem mirrors_default :
    Mirrors [] (ofTable 0 .new false) (Level.default : Level K V) :=
  ⟨staged_nil (ofTable_changes 0 .new false), dominates_nil _ _, rfl, rfl, rfl, fun _ => rfl⟩

/-- A table without records answers *not found*. -/
theorem snapshot_get_new (k : K) :
    (Snapshot.new 0 (Table.new : Table K V)).get k = .ok .newNotFound :=
  have hsees : Versions.Sees (Table.new : Table K V).Holds (Table.Upto 0) k none :=
    fun m d hm => absurd hm (Table.not_holds_new k m d)
  Table.get_eq_of_sees hsees

namespace Mirrors

variable {log : List (K × SeqMarked V)} {w : View (Table K V) K V} {l : Level K V}

/-! ### Writes -/

/-- **Both sides allocate the same marker.** -/
theorem nextValue?_eq (h : Mirrors log w l) (value : Option V) :
    w.nextValue? true value = l.marked? value := by
  rw [nextValue?, h.setting]
  cases value with
  | none => rw [Level.marked?, h.seq_eq]; rfl
  | some v => rw [Level.marked?, h.seq_eq]; rfl

/-- **A write keeps the simulation.** -/
theorem set (h : Mirrors log w l) (key : K) {value : Option V} {x : SeqMarked V}
    (hx : w.nextValue? true value = some x) :
    Mirrors (log ++ [(key, x)]) (w.stage key x) (l.store key x) := by
  refine ⟨h.staged.stage key (le_of_nextValue? hx), h.dominates.stage h.staged key hx,
    h.snapshot_eq, h.setting, rfl, fun k => ?_⟩
  rw [Level.get?_store, lastStaged_concat, h.get?_eq]

/-- **One write on both sides**: they overflow alike, or return the same marker. -/
theorem set_cases (h : Mirrors log w l) (key : K) (value : Option V) :
    (w.set key value = .error .overflow ∧ l.set key value = .error .overflow) ∨
    ∃ x, w.set key value = .ok (x.orderKey, w.stage key x) ∧
      l.set key value = .ok ((l.get key, x), l.store key x) ∧
      Mirrors (log ++ [(key, x)]) (w.stage key x) (l.store key x) := by
  rw [h.staged.ready.set_eq, l.set_eq, ← h.nextValue?_eq]
  cases hx : w.nextValue? true value with
  | none => exact Or.inl ⟨rfl, rfl⟩
  | some x => exact Or.inr ⟨x, rfl, rfl, h.set key hx⟩

/-- **A sequence of writes on both sides**: they overflow alike, or return the same markers. -/
theorem run (sets : List (K × Option V)) : ∀ {log : List (K × SeqMarked V)}
    {w : View (Table K V) K V} {l : Level K V}, Mirrors log w l →
    (w.run (setCalls sets) = .error .overflow ∧ l.run sets = .error .overflow) ∨
    ∃ replies replies' w' l', w.run (setCalls sets) = .ok (replies, w') ∧
      l.run sets = .ok (replies', l') ∧
      replies = (replies'.map fun p => .marker p.2.orderKey) ∧
      ∃ log', Mirrors log' w' l' := by
  induction sets with
  | nil =>
      intro log w l h
      exact Or.inr ⟨[], [], w, l, rfl, rfl, rfl, log, h⟩
  | cons e sets ih =>
      intro log w l h
      obtain ⟨key, value⟩ := e
      have hcalls : setCalls ((key, value) :: sets) = .set key value :: setCalls sets := rfl
      rw [hcalls, View.run, call, Level.run]
      rcases h.set_cases key value with ⟨hw, hl⟩ | ⟨x, hw, hl, h'⟩
      · rw [hw, hl]
        exact Or.inl ⟨rfl, rfl⟩
      · rw [hw, hl]
        rcases ih h' with ⟨hw', hl'⟩ | ⟨replies, replies', w', l', hw', hl', hreplies, hlog⟩
        · refine Or.inl ⟨?_, ?_⟩
          · simp only [hw']
            rfl
          · simp only [ok_bind, hl']
            rfl
        · refine Or.inr ⟨.marker x.orderKey :: replies, (l.get key, x) :: replies', w', l',
            ?_, ?_, ?_, hlog⟩
          · simp only [hw']
            rfl
          · simp only [ok_bind, hl']
            rfl
          · rw [hreplies]
            rfl

/-! ### Reads -/

theorem notFoundBelow (h : Mirrors log w l) : w.NotFoundBelow := by
  refine notFoundBelow_of_staged h.staged (by rw [h.snapshot_eq]; rfl) (Or.inr fun k d => ?_)
  rw [h.snapshot_eq]
  exact Table.not_holds_new k _ d

/-- **A point read of the view is the level's.** -/
theorem get (h : Mirrors log w l) (k : K) : w.get k = .ok (l.get k) := by
  rw [get_of_dominates h.staged h.dominates h.notFoundBelow, Level.get, h.get?_eq]
  cases lastStaged log k with
  | some x => rfl
  | none =>
      rw [h.snapshot_eq]
      exact snapshot_get_new k

/-- The keys of which the view has a record are those of the level. -/
theorem visible_iff (h : Mirrors log w l) (k : K) : w.Visible k ↔ ∃ x, l.map.get? k = some x := by
  have hbase : ¬w.snapshot.data.Visible w.snapshot.snapshotSeq k := by
    rw [h.snapshot_eq]
    rintro ⟨m, d, hm, -⟩
    exact Table.not_holds_new k m d hm
  rw [Visible, or_iff_left hbase, h.staged.holds_changes, h.get?_eq,
    ← Option.isSome_iff_exists, Option.isSome_iff_ne_none, Ne, lastStaged_eq_none]
  push Not
  constructor
  · rintro ⟨m, d, hm⟩
    obtain ⟨x, hx, -⟩ := LogHolds.mem hm
    exact ⟨x, hx⟩
  · rintro ⟨x, hx⟩
    obtain ⟨d, hd⟩ := exists_logHolds hx
    exact ⟨x.orderKey, d, hd⟩

/-- **A range read of the view is the level's**, also where the range is refused. -/
theorem range (h : Mirrors log w l) (P : KMerge.Picker Fault (KVResult K V)) (r : RangeBounds K) :
    w.range P r = l.range r := by
  have hsnap : w.snapshot.snapshotSeq = 0 := by rw [h.snapshot_eq]; rfl
  have hpaired : w.snapshot.data.Paired := by
    rw [h.snapshot_eq]
    exact fun k m d hm => absurd hm (Table.not_holds_new k m d)
  by_cases hr : r.Inverted
  · have hview : w.snapshot.range r = .error .rangeInverted := by
      rw [snapshot_range_eq, Table.range_of_inverted _ hr]
      rfl
    rw [View.range, hview, Level.range, BTreeMap.range_of_inverted _ hr]
    rfl
  · have hagree : w.RangeAgrees P := by
      refine rangeAgrees_of_layered P h.staged.paired
        (fun k m d hm => (h.staged.seq_of_holds hm).2) h.notFoundBelow fun k => ?_
      exact layered_of_dominates h.staged h.dominates hsnap k
    obtain ⟨base, hbase⟩ := hpaired.range_ok hr w.snapshot.snapshotSeq
    obtain ⟨out, hout, hasc, hmem⟩ := (hagree r hr).2 base (snapshot_range_eq_ok.2 hbase)
    have heq : out = l.inRange r := by
      refine hasc.ext_mem (Level.keyAscending_inRange r l) ?_
      rintro ⟨k, x⟩
      rw [hmem, h.visible_iff, h.get, Except.ok.injEq, Level.get, Level.mem_inRange]
      refine and_congr_right fun _ => ?_
      constructor
      · rintro ⟨⟨y, hy⟩, rfl⟩
        rw [hy]
        rfl
      · intro hx
        exact ⟨⟨x, hx⟩, by rw [hx]; rfl⟩
    rw [hout, heq, Level.range_eq hr]

end Mirrors

/-- **A view and a level implement the same map.**  After any sequence of writes, on a level and on
a view over an empty table at sequence number `0` whose deletions allocate nothing, both have
overflowed, or both have returned the same markers; point reads agree on every key, and range reads
on every range; and with the next write both overflow, or return the same marker, and the value
before that the level reports is what the view reads at the key. -/
theorem view_is_level (sets : List (K × Option V)) :
    ((ofTable 0 Table.new false).run (setCalls sets) = .error .overflow ∧
      Level.default.run sets = .error .overflow) ∨
    ∃ replies replies' w l,
      (ofTable 0 Table.new false).run (setCalls sets) = .ok (replies, w) ∧
      Level.default.run sets = .ok (replies', l) ∧
      replies = (replies'.map fun p => .marker p.2.orderKey) ∧
      (∀ k, w.get k = .ok (l.get k)) ∧
      (∀ P r, w.range P r = l.range r) ∧
      ∀ key value,
        (w.set key value = .error .overflow ∧ l.set key value = .error .overflow) ∨
        ∃ old new w' l', l.set key value = .ok ((old, new), l') ∧
          w.set key value = .ok (new.orderKey, w') ∧ w.get key = .ok old := by
  rcases mirrors_default.run sets with hover |
    ⟨replies, replies', w, l, hw, hl, hreplies, log, h⟩
  · exact Or.inl hover
  · refine Or.inr ⟨replies, replies', w, l, hw, hl, hreplies, h.get, h.range,
      fun key value => ?_⟩
    rcases h.set_cases key value with hover | ⟨x, hw', hl', -⟩
    · exact Or.inl hover
    · exact Or.inr ⟨l.get key, x, w.stage key x, l.store key x, hl', hw', h.get key⟩

/-- A deletion at sequence number `0`, a resurrection and a deletion after it. -/
example :
    let sets : List (ℕ × Option ℕ) := [(1, none), (1, some 10), (2, some 20), (1, none)]
    ((ofTable 0 (Table.new : Table ℕ ℕ) false).run (setCalls sets)).map (fun p => p.2.get 1) =
      .ok (.ok (.newTombstone 2)) := by
  decide

end View

end MapApi
