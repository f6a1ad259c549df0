/-
**What a view over a table answers.**

A point read of a view resolves a key by layer: the staged record if there is one, the snapshot's
otherwise.  A range read resolves it by marker: the two layers are merged, and the greatest record
of each key is left.  The two agree on a key when its staged record is above the snapshot's, or both
are the same tombstone, and this module finds out when that is so.

When every call allocates a sequence number for a value, the staged markers are at or above the
tombstone of the snapshot's number, which is above everything the snapshot shows, so the reads
agree whatever the calls were.  A secondary change stays at the current number, which may be the
snapshot's own: then it stands beside a record of the snapshot, a value at the same marker or a
tombstone just above it, and the reads part.

Main definitions:

* `MapApi.View.ofTable` — a view over a table;
* `MapApi.View.RangeAgrees` — the range reads of a view answer as its point reads do;
* `MapApi.View.Layered` — the staged record of a key is above the snapshot's;
* `MapApi.View.MeetsSnapshot` — the step after which the reads part.

Main results:

* `MapApi.View.rangeAgrees_of_layered` — layered views read the same by point and by range;
* `MapApi.View.reads_of_run` — **a view is its snapshot overlaid with its own writes**;
* `MapApi.View.rangeAgrees_iff_no_meeting` — **with secondary changes, range reads agree throughout
  a run exactly when no step meets the snapshot**.
-/

import MapApi.Staging

set_option relaxedAutoImplicit false
set_option autoImplicit false

namespace MapApi

namespace View

variable {K V : Type} [LinearOrder K]

/-- `View::new(Snapshot::new(s, base)).with_tombstone_seq_increment(inc)`: a view over a table. -/
def ofTable (s : U64) (base : Table K V) (inc : Bool) : View (Table K V) K V :=
  (View.new (.new s base)).withTombstoneSeqIncrement inc

@[simp] theorem ofTable_changes (s : U64) (base : Table K V) (inc : Bool) :
    (ofTable s base inc).changes = .new := rfl
@[simp] theorem ofTable_lastSeq (s : U64) (base : Table K V) (inc : Bool) :
    (ofTable s base inc).lastSeq = s := rfl
@[simp] theorem ofTable_snapshot (s : U64) (base : Table K V) (inc : Bool) :
    (ofTable s base inc).snapshot = .new s base := rfl
@[simp] theorem ofTable_increaseSeqForTombstone (s : U64) (base : Table K V) (inc : Bool) :
    (ofTable s base inc).increaseSeqForTombstone = inc := rfl

/-! ### Layers -/

/-- The view has a staged record of the key, or its snapshot shows one. -/
def Visible (w : View (Table K V) K V) (k : K) : Prop :=
  (∃ m d, w.changes.Holds k m d) ∨ w.snapshot.data.Visible w.snapshot.snapshotSeq k

/-- **Range reads agree with point reads**: a range read does not trip the assertion of the merge,
and where the snapshot answers it lists, in ascending order and once per key, the keys of the range
that are visible, each with the answer of `get`. -/
def RangeAgrees (P : KMerge.Picker Fault (KVResult K V)) (w : View (Table K V) K V) : Prop :=
  ∀ r : RangeBounds K, ¬r.Inverted →
    w.range P r ≠ .error .byKeySeq ∧
    ∀ base, w.snapshot.range r = .ok (items base) →
      ∃ out, w.range P r = .ok (items out) ∧ KeyAscending out ∧
        ∀ k x, (k, x) ∈ out ↔ r.Contains k ∧ w.Visible k ∧ w.get k = .ok x

/-- The newest staged record of a key. -/
abbrev LatestStaged (w : View (Table K V) K V) (k : K) (m : Marker) (d : Option V) : Prop :=
  Versions.IsLatest w.changes.Holds (Table.Upto w.lastSeq) k m d

/-- **The staged record of a key is above the snapshot's**, or both are the same tombstone. -/
def Layered (w : View (Table K V) K V) (k : K) : Prop :=
  ∀ m d y, w.LatestStaged k m d → w.snapshot.data.Visible w.snapshot.snapshotSeq k →
    w.snapshot.get k = .ok y → y.orderKey < m ∨ (y.orderKey = m ∧ m.isTombstone = true)

/-- Where the staged record reads as *not found*, the snapshot reads so too. -/
def NotFoundBelow (w : View (Table K V) K V) : Prop :=
  ∀ k d, w.LatestStaged k (.newTombstone 0) d → w.snapshot.get k = .ok .newNotFound

theorem seq_le_of_snapshot_get {w : View (Table K V) K V} {k : K} {y : SeqMarked V}
    (h : w.snapshot.get k = .ok y) : y.seq ≤ w.snapshot.snapshotSeq :=
  Table.seq_le_of_get (t := w.snapshot.data) (k := k) h

/-- A staged record is read before the snapshot. -/
theorem get_of_staged {w : View (Table K V) K V} (hp : w.changes.Paired) (h₀ : w.NotFoundBelow)
    {k : K} {m : Marker} {d : Option V} (h : w.LatestStaged k m d) :
    w.get k = .ok (.ofData m.seq d) := by
  have hmark : (SeqMarked.ofData m.seq d).orderKey = m :=
    orderKey_ofData_of_fits (hp k m d h.mem)
  have h' : w.LatestStaged k (SeqMarked.ofData m.seq d).orderKey
      (SeqMarked.ofData m.seq d).intoData := by
    rw [hmark, SeqMarked.intoData_ofData]
    exact h
  cases hnf : (SeqMarked.ofData m.seq d).isNotFound with
  | false => exact get_of_isLatest hp h' hnf
  | true =>
      -- the staged record is the tombstone of sequence number `0`
      have heq := SeqMarked.isNotFound_iff.1 hnf
      rw [get_of_isLatest_notFound hp h' hnf]
      rw [heq] at h' ⊢
      exact h₀ k _ h'

/-- A snapshot that shows nothing at a key answers *not found*. -/
theorem snapshot_get_of_not_visible {w : View (Table K V) K V} {k : K} {y : SeqMarked V}
    (hvis : ¬w.snapshot.data.Visible w.snapshot.snapshotSeq k) (hy : w.snapshot.get k = .ok y) :
    y = .newNotFound := by
  have hsees : Versions.Sees w.snapshot.data.Holds (Table.Upto w.snapshot.snapshotSeq) k none :=
    fun m d hm hup => hvis ⟨m, d, hm, hup⟩
  have hnf : w.snapshot.get k = .ok .newNotFound := Table.get_eq_of_sees hsees
  exact Except.ok.inj (hy.symm.trans hnf)

/-- A range read of the snapshot is one of its table. -/
theorem snapshot_range_eq (w : View (Table K V) K V) (r : RangeBounds K) :
    w.snapshot.range r = (w.snapshot.data.range r w.snapshot.snapshotSeq).map items := by
  change (w.snapshot.data.range r w.snapshot.snapshotSeq >>= _) = _
  cases w.snapshot.data.range r w.snapshot.snapshotSeq <;> rfl

/-- The two streams of a range read. -/
theorem range_eq_mergeStreams (P : KMerge.Picker Fault (KVResult K V))
    {w : View (Table K V) K V} {r : RangeBounds K} {base updates : List (K × SeqMarked V)}
    (hbase : w.snapshot.data.range r w.snapshot.snapshotSeq = .ok base)
    (hupdates : w.changes.range r w.lastSeq = .ok updates) :
    w.range P r = mergeStreams P ([base, updates].map items) := by
  rw [range, snapshot_range_eq, hbase, hupdates]
  rfl

theorem snapshot_range_eq_ok {w : View (Table K V) K V} {r : RangeBounds K}
    {base : List (K × SeqMarked V)} :
    w.snapshot.range r = .ok (items base) ↔
      w.snapshot.data.range r w.snapshot.snapshotSeq = .ok base := by
  rw [snapshot_range_eq]
  cases w.snapshot.data.range r w.snapshot.snapshotSeq with
  | error f => simp [Except.map]
  | ok base' => simp [Except.map, items_injective.eq_iff]

/-- The staged records a range read lists. -/
theorem mem_updates {w : View (Table K V) K V} (hp : w.changes.Paired) {r : RangeBounds K}
    {updates : List (K × SeqMarked V)} (h : w.changes.range r w.lastSeq = .ok updates) {k : K}
    {m : Marker} {d : Option V} (hm : w.LatestStaged k m d) {x : SeqMarked V} :
    (k, x) ∈ updates ↔ r.Contains k ∧ x = .ofData m.seq d := by
  rw [Table.mem_range_iff_get h, hp.get_of_sees hm, Except.ok.injEq]
  refine and_congr_right fun _ => ?_
  exact ⟨fun hx => hx.2.symm, fun hx => ⟨⟨m, d, hm.mem, hm.admitted⟩, hx.symm⟩⟩

theorem keyAscending_layers {w : View (Table K V) K V} {r : RangeBounds K}
    {base updates : List (K × SeqMarked V)}
    (hbase : w.snapshot.data.range r w.snapshot.snapshotSeq = .ok base)
    (hupdates : w.changes.range r w.lastSeq = .ok updates) :
    ∀ l ∈ [base, updates], KeyAscending l := by
  intro l hl
  rcases List.mem_pair.1 hl with rfl | rfl
  · exact (Table.mem_range hbase).1
  · exact (Table.mem_range hupdates).1

/-- Two layers share a key and marker only at a tombstone, if the staged record and the snapshot's
do. -/
theorem compatible_layers {w : View (Table K V) K V}
    (h : ∀ k m d y, w.LatestStaged k m d → w.snapshot.data.Visible w.snapshot.snapshotSeq k →
      w.snapshot.get k = .ok y → y.orderKey = m → y.isTombstone = true)
    {r : RangeBounds K} {base updates : List (K × SeqMarked V)}
    (hbase : w.snapshot.data.range r w.snapshot.snapshotSeq = .ok base)
    (hupdates : w.changes.range r w.lastSeq = .ok updates) : Compatible base updates := by
  intro e he e' he' hkey hord
  obtain ⟨k, y⟩ := e
  obtain ⟨k', x⟩ := e'
  obtain rfl : k = k' := hkey
  obtain ⟨-, hvis, hget⟩ := (Table.mem_range_iff_get hbase).1 he
  obtain ⟨-, m, d, hm, hx⟩ := ((Table.mem_range hupdates).2 k x).1 he'
  exact h k m d y hm hvis hget (hord.trans (orderKey_of_mapUnwrap hx))

/-- Of the two layers, a staged record is the greatest one of its key. -/
theorem isGreatest_of_staged {w : View (Table K V) K V} (hp : w.changes.Paired)
    {r : RangeBounds K} {base updates : List (K × SeqMarked V)}
    (hbase : w.snapshot.data.range r w.snapshot.snapshotSeq = .ok base)
    (hupdates : w.changes.range r w.lastSeq = .ok updates) {k : K} (hlay : w.Layered k)
    {m : Marker} {d : Option V} (hstaged : w.LatestStaged k m d) {x : SeqMarked V} :
    IsGreatest [base, updates] k x ↔ r.Contains k ∧ x = .ofData m.seq d := by
  have hin := fun x => mem_updates hp hupdates (x := x) hstaged
  have hm : (SeqMarked.ofData m.seq d).orderKey = m :=
    orderKey_ofData_of_fits (hp k m d hstaged.mem)
  have hbelow : ∀ y, (k, y) ∈ base → y.orderKey ≤ m ∧
      (y.orderKey = m → y.isTombstone = true) := by
    intro y hy
    obtain ⟨-, hvis, hget⟩ := (Table.mem_range_iff_get hbase).1 hy
    rcases hlay m d y hstaged hvis hget with hlt | ⟨heq, ht⟩
    · exact ⟨hlt.le, fun h => absurd h (ne_of_lt hlt)⟩
    · rw [← heq, SeqMarked.isTombstone_orderKey] at ht
      exact ⟨heq.le, fun _ => ht⟩
  have hflat : ∀ y, (k, y) ∈ [base, updates].flatten ↔ (k, y) ∈ base ∨ (k, y) ∈ updates := by
    intro y
    simp
  constructor
  · intro ⟨hx, hmax⟩
    rcases (hflat x).1 hx with hx | hx
    · -- a record of the snapshot is the greatest only if both are one tombstone
      have hk := ((Table.mem_range_iff_get hbase).1 hx).1
      have hge := hmax _ ((hflat _).2 (Or.inr ((hin _).2 ⟨hk, rfl⟩)))
      rw [hm] at hge
      obtain ⟨hle, ht⟩ := hbelow x hx
      have heq := le_antisymm hle hge
      exact ⟨hk, SeqMarked.eq_of_orderKey_tombstone (heq.trans hm.symm) (ht heq)⟩
    · exact (hin x).1 hx
  · intro ⟨hk, hx⟩
    subst hx
    refine ⟨(hflat _).2 (Or.inr ((hin _).2 ⟨hk, rfl⟩)), fun y hy => ?_⟩
    rw [hm]
    rcases (hflat y).1 hy with hy | hy
    · exact (hbelow y hy).1
    · rw [((hin y).1 hy).2, hm]

/-- Of the two layers, the snapshot's record is the only one of a key without staged record. -/
theorem isGreatest_of_not_staged {w : View (Table K V) K V} {r : RangeBounds K}
    {base updates : List (K × SeqMarked V)}
    (hbase : w.snapshot.data.range r w.snapshot.snapshotSeq = .ok base)
    (hupdates : w.changes.range r w.lastSeq = .ok updates) {k : K}
    (hnot : ∀ m d, ¬w.changes.Holds k m d) {x : SeqMarked V} :
    IsGreatest [base, updates] k x ↔ (k, x) ∈ base := by
  have hnone : ∀ y, (k, y) ∉ updates := by
    intro y hy
    obtain ⟨-, ⟨m, d, hm, -⟩, -⟩ := (Table.mem_range_iff_get hupdates).1 hy
    exact hnot m d hm
  have hflat : ∀ y, (k, y) ∈ [base, updates].flatten ↔ (k, y) ∈ base := by
    intro y
    simp [hnone y]
  rw [IsGreatest, hflat]
  refine ⟨And.left, fun hx => ⟨hx, fun y hy => ?_⟩⟩
  rw [(Table.mem_range hbase).1.eq_of_mem ((hflat y).1 hy) hx]

/-- **Range reads agree where the greatest record of each key is what a point read answers**, and
the two layers share a key and marker only at a tombstone. -/
theorem rangeAgrees_of_greatest (P : KMerge.Picker Fault (KVResult K V))
    {w : View (Table K V) K V} (hp : w.changes.Paired)
    (hup : ∀ k m d, w.changes.Holds k m d → Table.Upto w.lastSeq m)
    (hlayers : ∀ {r : RangeBounds K} {base updates : List (K × SeqMarked V)},
      w.snapshot.data.range r w.snapshot.snapshotSeq = .ok base →
      w.changes.range r w.lastSeq = .ok updates → Compatible base updates ∧
        ∀ k m d x, w.LatestStaged k m d →
          (IsGreatest [base, updates] k x ↔ r.Contains k ∧ w.get k = .ok x)) :
    w.RangeAgrees P := by
  intro r hr
  obtain ⟨updates, hupdates⟩ := hp.range_ok hr w.lastSeq
  cases hbase : w.snapshot.data.range r w.snapshot.snapshotSeq with
  | error f =>
      -- the snapshot itself fails, on a record without value
      have hsnap : w.snapshot.range r = .error f := by
        rw [snapshot_range_eq, hbase]
        rfl
      refine ⟨?_, fun base hok => ?_⟩
      · rw [range, hsnap, Table.range_error hr hbase]
        exact nofun
      · rw [hsnap] at hok
        cases hok
  | ok base =>
      obtain ⟨hcomp, hgreatest⟩ := hlayers hbase hupdates
      obtain ⟨out, hout, houtasc, hmem⟩ := mergeStreams_spec P
        (keyAscending_layers hbase hupdates) (List.pairwise_pair.2 hcomp)
      rw [← range_eq_mergeStreams P hbase hupdates] at hout
      refine ⟨by rw [hout]; exact nofun, fun _ _ => ⟨out, hout, houtasc, fun k x => ?_⟩⟩
      obtain ⟨v, hv⟩ := w.changes.exists_sees k w.lastSeq
      rw [hmem]
      match v with
      | some (m, d) =>
          rw [hgreatest k m d x hv]
          exact and_congr_right fun _ => (and_iff_right (Or.inl ⟨m, d, hv.mem⟩)).symm
      | none =>
          have hnot : ∀ m d, ¬w.changes.Holds k m d := fun m d h => hv m d h (hup k m d h)
          have hvis : w.Visible k ↔ w.snapshot.data.Visible w.snapshot.snapshotSeq k :=
            or_iff_right fun ⟨m, d, h⟩ => hnot m d h
          rw [isGreatest_of_not_staged hbase hupdates hnot, get_of_not_staged hv, hvis]
          exact Table.mem_range_iff_get hbase

/-- **Layered views read the same by point and by range.** -/
theorem rangeAgrees_of_layered (P : KMerge.Picker Fault (KVResult K V))
    {w : View (Table K V) K V} (hp : w.changes.Paired)
    (hup : ∀ k m d, w.changes.Holds k m d → Table.Upto w.lastSeq m)
    (h₀ : w.NotFoundBelow) (hlay : ∀ k, w.Layered k) : w.RangeAgrees P := by
  refine rangeAgrees_of_greatest P hp hup fun {r base updates} hbase hupdates =>
    ⟨compatible_layers (fun k m d y hm hvis hget heq => ?_) hbase hupdates, fun k m d x hm => ?_⟩
  · rcases hlay k m d y hm hvis hget with hlt | ⟨-, ht⟩
    · exact absurd heq (ne_of_lt hlt)
    · rw [← SeqMarked.isTombstone_orderKey, heq]
      exact ht
  · rw [isGreatest_of_staged hp hbase hupdates (hlay k) hm, get_of_staged hp h₀ hm,
      Except.ok.injEq, eq_comm]

/-- **Range reads agree only where the staged record is above the snapshot's**, or both are the same
tombstone: the range read of the key alone shows it. -/
theorem above_of_rangeAgrees {P : KMerge.Picker Fault (KVResult K V)}
    {w : View (Table K V) K V} (hp : w.changes.Paired) (h : w.RangeAgrees P) {k : K} {m : Marker}
    {d : Option V} (hm : w.LatestStaged k m d) (hget : w.get k = .ok (.ofData m.seq d))
    {y : SeqMarked V} (hy : w.snapshot.get k = .ok y)
    (hvis : w.snapshot.data.Visible w.snapshot.snapshotSeq k) :
    y.orderKey < m ∨ (y.orderKey = m ∧ m.isTombstone = true) := by
  -- the range of `k` alone, which the snapshot answers
  let r : RangeBounds K := ⟨.included k, .included k⟩
  have hr : ¬r.Inverted := lt_irrefl k
  have hk : r.Contains k := ⟨le_refl k, le_refl k⟩
  have honly : ∀ k', r.Contains k' → k' = k := fun k' h => le_antisymm h.2 h.1
  obtain ⟨base, hbase⟩ : ∃ base, w.snapshot.data.range r w.snapshot.snapshotSeq = .ok base := by
    refine Table.range_ok_of_get hr fun k' h => ?_
    rw [honly k' h]
    exact ⟨y, hy⟩
  obtain ⟨updates, hupdates⟩ := hp.range_ok hr w.lastSeq
  have hyin : (k, y) ∈ base := (Table.mem_range_iff_get hbase).2 ⟨hk, hvis, hy⟩
  have hxin := (mem_updates hp hupdates hm).2 ⟨hk, rfl⟩
  have hmark : (SeqMarked.ofData m.seq d).orderKey = m :=
    orderKey_ofData_of_fits (hp k m d hm.mem)
  have hrange := range_eq_mergeStreams P hbase hupdates
  obtain ⟨hne, hok⟩ := h r hr
  by_cases hcomp : Compatible base updates
  · obtain ⟨out, hout, -, hmem⟩ := mergeStreams_spec P
      (keyAscending_layers hbase hupdates) (List.pairwise_pair.2 hcomp)
    obtain ⟨out', hout', -, hmem'⟩ := hok base (snapshot_range_eq_ok.2 hbase)
    have heq : out' = out := by
      rw [hrange, hout] at hout'
      exact (items_injective (Except.ok.inj hout')).symm
    -- the range read lists what the point read answers, so that is the greatest record
    have hgreatest := (hmem k _).1 (heq ▸ (hmem' k _).2
      ⟨hk, Or.inl ⟨m, d, hm.mem⟩, hget⟩)
    have hle := hgreatest.2 y (by simpa using Or.inl hyin)
    rw [hmark] at hle
    refine (lt_or_eq_of_le hle).imp_right fun hord => ⟨hord, ?_⟩
    have ht := hcomp _ hyin _ hxin rfl (hord.trans hmark.symm)
    rw [← hord, SeqMarked.isTombstone_orderKey]
    exact ht
  · -- two values at one marker: the merge trips its assertion
    refine absurd (hrange.trans ?_) hne
    exact mergeStreams_pair_error P (Table.mem_range hbase).1 (Table.mem_range hupdates).1 hcomp

/-! ### Calls that allocate for values -/

section Dominating

variable {s : U64} {inc : Bool} {log : List (K × SeqMarked V)} {w : View (Table K V) K V}

/-- A dominating log is above everything the snapshot shows. -/
theorem layered_of_dominates (hst : Staged s log w) (hdom : Dominates s inc log)
    (hsnap : w.snapshot.snapshotSeq = s) (k : K) : w.Layered k := by
  intro m d y hm _ hget
  have habove : SeqMarked.newTombstone s ≤ m := by
    have hheld := hm.mem
    rw [hst.holds_changes] at hheld
    obtain ⟨x, hx, rfl, -⟩ := LogHolds.mem hheld
    exact hdom.above _ hx
  have hy : y.orderKey ≤ SeqMarked.newTombstone s := by
    rw [Marker.le_newTombstone_iff, SeqMarked.seq_orderKey, ← hsnap]
    exact seq_le_of_snapshot_get hget
  rcases lt_or_eq_of_le (le_trans hy habove) with hlt | heq
  · exact Or.inl hlt
  · refine Or.inr ⟨heq, ?_⟩
    rw [le_antisymm (heq ▸ hy) habove]
    rfl

/-- A table without value at sequence number `0` shows nothing there. -/
theorem get_zero_of_no_value {base : Table K V}
    (h : ∀ k d, ¬base.Holds k (.newNormal 0 ()) d) (k : K) :
    base.get k 0 = .ok .newNotFound := by
  obtain ⟨r, hr⟩ := base.exists_sees k 0
  rw [Table.get_eq_of_sees hr]
  match r with
  | none => rfl
  | some (m, d) =>
      have hseq : m.seq = 0 := Fin.le_zero_iff.1 hr.admitted
      rcases m.eq_newNormal_or_newTombstone with ⟨hm, -⟩ | ⟨hm, -⟩
      · have hheld := hr.mem
        rw [hm, hseq] at hheld
        exact absurd hheld (h k d)
      · rw [hm, hseq]
        rfl

/-- The tombstone of sequence number `0` is staged only over a snapshot at `0`. -/
theorem notFoundBelow_of_staged (hst : Staged s log w) (hsnap : w.snapshot.snapshotSeq = s)
    (hs : 1 ≤ s ∨ ∀ k d, ¬w.snapshot.data.Holds k (.newNormal 0 ()) d) : w.NotFoundBelow := by
  intro k d hm
  have hheld := hm.mem
  have hzero : s = 0 := Fin.le_zero_iff.1 (hst.seq_of_holds hheld).1
  rcases hs with hs | hs
  · exact absurd hzero (U64.ne_zero_of_one_le hs)
  · have hget := get_zero_of_no_value hs k
    rw [← hzero, ← hsnap] at hget
    exact hget

/-- **A point read returns the last staged write**, or the snapshot's record. -/
theorem get_of_dominates (hst : Staged s log w) (hdom : Dominates s inc log)
    (h₀ : w.NotFoundBelow) (k : K) :
    w.get k =
      match lastStaged log k with
      | some x => .ok x
      | none => w.snapshot.get k := by
  have hsees := hst.sees_changes hdom k
  cases hlast : lastStaged log k with
  | none =>
      rw [hlast] at hsees
      exact get_of_not_staged hsees
  | some x =>
      rw [hlast] at hsees
      have hget := get_of_staged hst.paired h₀ hsees
      rw [SeqMarked.seq_orderKey, ← SeqMarked.eq_ofData] at hget
      exact hget

end Dominating

/-- **A view is its snapshot overlaid with its own writes.**  After any calls that allocate a
sequence number for values, a point read returns the last write staged at the key, or the
snapshot's record if there is none; a range read never trips the assertion of the merge and agrees
with the point reads; and the calls fail only with the snapshot, or past the last number. -/
theorem reads_of_run (P : KMerge.Picker Fault (KVResult K V)) {s : U64} {base : Table K V}
    (hs : 1 ≤ s ∨ ∀ k d, ¬base.Holds k (.newNormal 0 ()) d) (inc : Bool)
    {calls : List (Call K V)} (hcalls : ∀ c ∈ calls, c.increaseSeq = true) :
    (∀ f, (ofTable s base inc).run calls = .error f →
      f = .overflow ∨ ∃ k : K, (Snapshot.new s base).get k = .error f) ∧
    ∀ replies w, (ofTable s base inc).run calls = .ok (replies, w) →
      (∀ k, w.get k =
        match lastStaged (stagedLog calls replies) k with
        | some x => .ok x
        | none => (Snapshot.new s base).get k) ∧
      (∀ k, w.Visible k ↔ (∃ x, (k, x) ∈ stagedLog calls replies) ∨ base.Visible s k) ∧
      w.RangeAgrees P := by
  refine ⟨fun f hf => run_error (staged_nil (ofTable_changes s base inc)) hf,
    fun replies w hrun => ?_⟩
  obtain ⟨hst, hsnap, -⟩ := staged_run (ofTable_changes s base inc) hrun
  have hdom := dominates_run (ofTable_changes s base inc) hcalls hrun
  rw [ofTable_lastSeq] at hst hdom
  rw [ofTable_snapshot] at hsnap
  have hseq : w.snapshot.snapshotSeq = s := by rw [hsnap]; rfl
  have hup : ∀ k m d, w.changes.Holds k m d → Table.Upto w.lastSeq m :=
    fun k m d h => (hst.seq_of_holds h).2
  have h₀ : w.NotFoundBelow := by
    refine notFoundBelow_of_staged hst hseq ?_
    rw [hsnap]
    exact hs
  refine ⟨fun k => ?_, fun k => ?_, ?_⟩
  · rw [get_of_dominates hst hdom h₀, hsnap]
  · rw [Visible, hsnap, hst.holds_changes]
    refine or_congr_left ⟨fun ⟨m, d, hm⟩ => ?_, fun ⟨x, hx⟩ => ?_⟩
    · obtain ⟨x, hx, -, -⟩ := LogHolds.mem hm
      exact ⟨x, hx⟩
    · obtain ⟨d, hd⟩ := exists_logHolds hx
      exact ⟨x.orderKey, d, hd⟩
  · exact rangeAgrees_of_layered P hst.paired hup h₀
      fun k => layered_of_dominates hst hdom hseq k

/-- A view that overwrites, deletes and re-deletes records of its snapshot. -/
theorem reads_of_run_sample :
    let base : Table ℕ ℕ := ((Table.new.insert 1 4 10).2.insertTombstone 2 5).2
    let calls : List (Call ℕ ℕ) := [.set 2 none, .fetchAndSet 1 (some 11), .fetchAndSet 1 none]
    ∃ replies w, (ofTable 5 base false).run calls = .ok (replies, w) ∧
      w.get 1 = .ok (.newTombstone 6) ∧ w.get 2 = .ok (.newTombstone 5) ∧
      w.RangeAgrees .leftmost := by
  intro base calls
  have hs : 1 ≤ (5 : U64) ∨ ∀ k d, ¬base.Holds k (.newNormal 0 ()) d := Or.inl (by decide)
  have hcalls : ∀ c ∈ calls, c.increaseSeq = true := by decide
  have hreads := (reads_of_run .leftmost hs false hcalls).2 _ _ rfl
  exact ⟨_, _, rfl, hreads.1 1, hreads.1 2, hreads.2.2⟩

/-! ### Secondary changes -/

/-- The snapshot's record of a key stands at the snapshot's own number, and the newest staged record
is a value there: the reads of the key part. -/
def Parted (w : View (Table K V) K V) (k : K) : Prop :=
  (∃ y, w.snapshot.get k = .ok y ∧ y.seq = w.snapshot.snapshotSeq) ∧
    ∃ d, w.LatestStaged k (.newNormal w.snapshot.snapshotSeq ()) d

/-- **A step that meets the snapshot**: a secondary change to a value, made before any call has
moved the counter, on a key whose record in the snapshot stands at the snapshot's own number and
which is not deleted in the view. -/
def MeetsSnapshot (w : View (Table K V) K V) (c : Call K V) : Prop :=
  c.increaseSeq = false ∧ c.value.isSome = true ∧ w.lastSeq = w.snapshot.snapshotSeq ∧
    (∃ y, w.snapshot.get c.key = .ok y ∧ y.seq = w.snapshot.snapshotSeq) ∧
    ¬∃ d, w.changes.Holds c.key (.newTombstone w.snapshot.snapshotSeq) d

section Secondary

variable {s : U64} {log : List (K × SeqMarked V)} {w : View (Table K V) K V}

/-- Range reads agree as long as no key is parted. -/
theorem rangeAgrees_of_not_parted (P : KMerge.Picker Fault (KVResult K V)) (hs : 1 ≤ s)
    (hst : Staged s log w) (hsnap : w.snapshot.snapshotSeq = s) (h : ∀ k, ¬w.Parted k) :
    w.RangeAgrees P := by
  refine rangeAgrees_of_layered P hst.paired (fun k m d hm => (hst.seq_of_holds hm).2)
    (notFoundBelow_of_staged hst hsnap (Or.inl hs)) fun k m d y hm _ hget => ?_
  have hle : y.seq ≤ m.seq := by
    refine le_trans (seq_le_of_snapshot_get hget) ?_
    rw [hsnap]
    exact (hst.seq_of_holds hm.mem).1
  rcases lt_or_eq_of_le hle with hlt | heq
  · exact Or.inl (Marker.lt_of_seq_lt (by simpa using hlt))
  · -- both stand at the snapshot's number, so the staged one is a tombstone
    have hm' : m.seq = s := by
      refine le_antisymm ?_ (hst.seq_of_holds hm.mem).1
      rw [← heq, ← hsnap]
      exact seq_le_of_snapshot_get hget
    rcases m.eq_newNormal_or_newTombstone with ⟨hn, -⟩ | ⟨hn, ht⟩
    · refine absurd ⟨⟨y, hget, ?_⟩, d, ?_⟩ (h k)
      · rw [heq, hm', hsnap]
      · rw [hsnap, ← hm', ← hn]
        exact hm
    · have hym : y.orderKey ≤ m := by
        rw [hn, Marker.le_newTombstone_iff, SeqMarked.seq_orderKey]
        exact hle
      exact (lt_or_eq_of_le hym).imp_right fun he => ⟨he, ht⟩

/-- A snapshot that answers with a record of its own number shows one. -/
theorem visible_of_snapshot_get (hs : 1 ≤ w.snapshot.snapshotSeq) {k : K} {y : SeqMarked V}
    (hget : w.snapshot.get k = .ok y) (hy : y.seq = w.snapshot.snapshotSeq) :
    w.snapshot.data.Visible w.snapshot.snapshotSeq k := by
  by_contra hnot
  rw [snapshot_get_of_not_visible hnot hget] at hy
  exact U64.ne_zero_of_one_le hs hy.symm

/-- The reads of a parted key differ. -/
theorem not_rangeAgrees_of_parted (P : KMerge.Picker Fault (KVResult K V)) (hs : 1 ≤ s)
    (hst : Staged s log w) (hsnap : w.snapshot.snapshotSeq = s) {k : K} (h : w.Parted k) :
    ¬w.RangeAgrees P := by
  intro hagree
  obtain ⟨⟨y, hget, hy⟩, d, hm⟩ := h
  have hread := get_of_staged hst.paired (notFoundBelow_of_staged hst hsnap (Or.inl hs)) hm
  have hvis := visible_of_snapshot_get (hsnap ▸ hs) hget hy
  rcases above_of_rangeAgrees hst.paired hagree hm hread hget hvis with hlt | ⟨-, ht⟩
  · -- the snapshot's record is at the same number, so it is not below a value
    rw [Marker.lt_newNormal_iff, SeqMarked.seq_orderKey, hy] at hlt
    exact lt_irrefl _ hlt
  · cases ht

/-- A step parts a key only if it meets the snapshot. -/
theorem not_parted_stage (hst : Staged s log w) (hsnap : w.snapshot.snapshotSeq = s)
    (h : ∀ k, ¬w.Parted k) {c : Call K V} {x : SeqMarked V}
    (hx : w.nextValue? c.increaseSeq c.value = some x) (hmeets : ¬w.MeetsSnapshot c) (k : K) :
    ¬(w.stage c.key x).Parted k := by
  intro ⟨hbase, d, hm⟩
  rw [stage_snapshot] at hbase hm
  have hst' := hst.stage c.key (le_of_nextValue? hx)
  -- every marker held before is held after
  have hkept : ∀ m' d', w.changes.Holds k m' d' →
      ∃ d'', (w.stage c.key x).changes.Holds k m' d'' := by
    intro m' d' hm'
    by_cases hplace : k = c.key ∧ m' = x.orderKey
    · exact ⟨x.intoData, Table.holds_put.2 (Or.inl ⟨hplace.1, hplace.2, rfl⟩)⟩
    · exact ⟨d', Table.holds_put.2 (Or.inr ⟨hm', hplace⟩)⟩
  have hmax : ∀ m' d', w.changes.Holds k m' d' →
      m' ≤ SeqMarked.newNormal w.snapshot.snapshotSeq () := by
    intro m' d' hm'
    obtain ⟨d'', hd''⟩ := hkept m' d' hm'
    exact hm.newest m' d'' hd'' (hst'.seq_of_holds hd'').2
  rcases Table.holds_put.1 hm.mem with ⟨hk, hmark, -⟩ | ⟨hheld, -⟩
  · -- the step has staged the value itself
    have hxseq : x.seq = s := by
      rw [← SeqMarked.seq_orderKey, ← hmark, SeqMarked.seq_newNormal, hsnap]
    have hlast : w.lastSeq = s :=
      le_antisymm (hxseq ▸ le_of_nextValue? hx) hst.initial_le
    have hvalue : c.value.isSome = true := by
      rw [nextValue?_intoData hx] at hmark
      cases hv : c.value with
      | none =>
          rw [hv] at hmark
          exact absurd (congrArg SeqMarked.isTombstone hmark) Bool.false_ne_true
      | some v => rfl
    have hsecondary : c.increaseSeq = false := by
      by_contra hinc
      rw [Bool.not_eq_false] at hinc
      rw [hinc] at hx
      have habove := newTombstone_le_of_nextValue? hx
      rw [← hmark, hlast, hsnap] at habove
      exact absurd habove (not_le.2 (Marker.lt_iff.2 (Or.inr ⟨rfl, rfl, rfl⟩)))
    refine hmeets ⟨hsecondary, hvalue, hlast.trans hsnap.symm, hk ▸ hbase, fun ⟨d', ht⟩ => ?_⟩
    -- a tombstone staged at the same number would be newer
    rw [← hk] at ht
    exact absurd (hmax _ d' ht) (not_le.2 (Marker.lt_iff.2 (Or.inr ⟨rfl, rfl, rfl⟩)))
  · exact h k ⟨hbase, d, hheld, (hst.seq_of_holds hheld).2, fun m' d' hm' _ => hmax m' d' hm'⟩

/-- A step that meets the snapshot parts its key. -/
theorem parted_stage (hst : Staged s log w) (hsnap : w.snapshot.snapshotSeq = s) {c : Call K V}
    {x : SeqMarked V} (hx : w.nextValue? c.increaseSeq c.value = some x)
    (hmeets : w.MeetsSnapshot c) : (w.stage c.key x).Parted c.key := by
  obtain ⟨hsecondary, hvalue, hlast, hbase, hnot⟩ := hmeets
  refine ⟨hbase, ?_⟩
  obtain ⟨v, hv⟩ := Option.isSome_iff_exists.1 hvalue
  have hx' : x = .newNormal w.lastSeq v := by
    rw [hsecondary, hv] at hx
    exact (Option.some_inj.1 hx).symm
  rw [hx', hlast]
  refine ⟨some v, Table.holds_put.2 (Or.inl ⟨rfl, rfl, rfl⟩), le_refl _, fun m' d' hm' _ => ?_⟩
  rcases Table.holds_put.1 hm' with ⟨-, rfl, -⟩ | ⟨hm', -⟩
  · exact le_refl _
  · -- a record staged before is at the same number, and not the tombstone
    have hseq : m'.seq = w.snapshot.snapshotSeq := by
      refine le_antisymm (hlast ▸ (hst.seq_of_holds hm').2) ?_
      rw [hsnap]
      exact (hst.seq_of_holds hm').1
    rcases m'.eq_newNormal_or_newTombstone with ⟨hn, -⟩ | ⟨hn, -⟩
    · rw [hn, hseq]
      exact le_refl _
    · rw [hn, hseq] at hm'
      exact absurd ⟨d', hm'⟩ hnot

end Secondary

/-- **With secondary changes, range reads agree with point reads in every state of a run exactly
when no step of it meets the snapshot.** -/
theorem rangeAgrees_iff_no_meeting (P : KMerge.Picker Fault (KVResult K V)) {s : U64} (hs : 1 ≤ s)
    {base : Table K V} {inc : Bool} {calls : List (Call K V)} {replies : List (Reply V)}
    {w : View (Table K V) K V} (hrun : (ofTable s base inc).run calls = .ok (replies, w)) :
    (∀ calls₁ replies₁ w₁, calls₁ <+: calls →
      (ofTable s base inc).run calls₁ = .ok (replies₁, w₁) → w₁.RangeAgrees P) ↔
    ∀ calls₁ c replies₁ w₁, calls₁ ++ [c] <+: calls →
      (ofTable s base inc).run calls₁ = .ok (replies₁, w₁) → ¬w₁.MeetsSnapshot c := by
  have hstaged : ∀ {calls₁ replies₁ w₁}, (ofTable s base inc).run calls₁ = .ok (replies₁, w₁) →
      Staged s (stagedLog calls₁ replies₁) w₁ ∧ w₁.snapshot.snapshotSeq = s := by
    intro calls₁ replies₁ w₁ h
    obtain ⟨hst, hsnap, -⟩ := staged_run (ofTable_changes s base inc) h
    exact ⟨hst, by rw [hsnap]; rfl⟩
  constructor
  · intro hagree calls₁ c replies₁ w₁ hpre hrun₁ hmeets
    -- the run goes on with the step, and its key is parted after it
    obtain ⟨reply, w₂, hcall, hrun₂⟩ := run_of_prefix_concat hrun hpre hrun₁
    obtain ⟨hst, hsnap⟩ := hstaged hrun₁
    have hagree₂ := hagree _ _ _ hpre hrun₂
    obtain ⟨hst₂, hsnap₂⟩ := hstaged hrun₂
    rcases hst.ready.call_cases hcall with ⟨hnone, rfl⟩ | ⟨x, -, hx, rfl⟩
    · have hvalue := Call.isNone_of_staged_eq_none hnone
      rw [Option.isNone_iff_eq_none] at hvalue
      have hsome := hmeets.2.1
      rw [hvalue] at hsome
      cases hsome
    · exact not_rangeAgrees_of_parted P hs hst₂ hsnap₂ (parted_stage hst hsnap hx hmeets) hagree₂
  · intro hnot calls₁ replies₁ w₁ hpre hrun₁
    have hI := run_induction (I := fun log w' => Staged s log w' ∧ w'.snapshot.snapshotSeq = s ∧
      ∀ k, ¬w'.Parted k) (fun hI => hI.1.ready) ⟨staged_nil (ofTable_changes s base inc), rfl, ?_⟩
      ?_ hrun₁
    · exact rangeAgrees_of_not_parted P hs hI.1 hI.2.1 hI.2.2
    · intro k ⟨_, d, hm⟩
      exact Table.not_holds_new _ _ _ hm.mem
    · intro calls₂ c replies₂ w₂ x hpre₂ hrun₂ ⟨hst, hsnap, hparted⟩ hx
      refine ⟨hst.stage c.key (le_of_nextValue? hx), hsnap, ?_⟩
      exact not_parted_stage hst hsnap hparted hx
        (hnot calls₂ c replies₂ w₂ (hpre₂.trans hpre) hrun₂)

/-- Secondary changes of keys that the snapshot does not hold at its own number. -/
theorem rangeAgrees_sample :
    let base : Table ℕ ℕ := ((Table.new.insert 1 4 10).2.insert 2 5 20).2
    ∃ replies w, (ofTable 5 base false).run [.setWithoutSeqIncrement 1 (some 11)] =
      .ok (replies, w) ∧ w.RangeAgrees .leftmost := by
  intro base
  obtain ⟨replies, w, hrun⟩ : ∃ replies w, (ofTable 5 base false).run
    [.setWithoutSeqIncrement 1 (some 11)] = .ok (replies, w) := ⟨_, _, rfl⟩
  refine ⟨replies, w, hrun, (rangeAgrees_iff_no_meeting .leftmost (by decide) hrun).2 ?_ _ _ _
    (List.prefix_refl _) hrun⟩
  intro calls₁ c replies₁ w₁ hpre hrun₁ hmeets
  cases calls₁ with
  | nil =>
      obtain ⟨hc, -⟩ := List.cons_prefix_cons.1 hpre
      cases hrun₁
      obtain ⟨y, hget, hy⟩ := hmeets.2.2.2.1
      rw [hc] at hget
      have hread : base.get 1 5 = .ok (.newNormal 4 10) := by decide
      cases hread.symm.trans hget
      exact absurd hy (by decide)
  | cons c' calls₁ =>
      obtain ⟨-, hpre⟩ := List.cons_prefix_cons.1 hpre
      simp at hpre

/-- A secondary change beside a value of the snapshot makes the range read panic, and beside a
tombstone of the snapshot makes it list the tombstone where `get` returns the new value. -/
theorem rangeAgrees_fails :
    let value : Table ℕ ℕ := (Table.new.insert 1 5 10).2
    let deleted : Table ℕ ℕ := (Table.new.insertTombstone 1 5).2
    let calls : List (Call ℕ ℕ) := [.setWithoutSeqIncrement 1 (some 11)]
    (∃ replies w, (ofTable 5 value false).run calls = .ok (replies, w) ∧
      w.range .leftmost .full = .error .byKeySeq ∧ ¬w.RangeAgrees .leftmost) ∧
    ∃ replies w, (ofTable 5 deleted false).run calls = .ok (replies, w) ∧
      w.range .leftmost .full = .ok (items [(1, .newTombstone 5)]) ∧
      w.get 1 = .ok (.newNormal 5 11) ∧ ¬w.RangeAgrees .leftmost := by
  intro value deleted calls
  constructor
  · refine ⟨_, _, rfl, by decide, fun h => ?_⟩
    exact (h .full RangeBounds.not_inverted_full).1 (by decide)
  · obtain ⟨replies, w, hrun, hrange, hget⟩ : ∃ replies w, (ofTable 5 deleted false).run calls =
        .ok (replies, w) ∧ w.range .leftmost .full = .ok (items [(1, .newTombstone 5)]) ∧
        w.get 1 = .ok (.newNormal 5 11) ∧
        w.snapshot.range .full = .ok (items [(1, .newTombstone 5)]) :=
      ⟨_, _, rfl, by decide, by decide, by decide⟩
    refine ⟨replies, w, hrun, hrange, hget.1, fun h => ?_⟩
    obtain ⟨out, hout, -, hmem⟩ := (h .full RangeBounds.not_inverted_full).2 _ hget.2
    rw [hrange] at hout
    have heq := items_injective (Except.ok.inj hout)
    obtain ⟨-, -, hread⟩ := (hmem 1 (.newTombstone 5)).1 (heq ▸ List.mem_singleton.2 rfl)
    cases hget.1.symm.trans hread

end View

end MapApi
