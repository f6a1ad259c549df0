/-
**Committing a view to the table it was opened on.**

A view opened on a table at the table's last sequence number hands over its staged changes, and the
table takes them by `apply` or by `compact`.  Applied, the table answers every read as a replay of
the staged writes over what it answered before.  The two ways of taking them do not always succeed.
`apply` compares the last markers of the two tables, value before tombstone: an untouched view
carries the least marker there is, and a secondary value staged at the table's own number stands
below a tombstone there.  `compact` asserts that no record is in both tables: a key deleted at the
last number of the table, and deleted again by the view at the same number, is in both.

Main definitions:

* `MapApi.View.CommitsOnto`, `MapApi.View.CompactsOnto` — the logs that `apply` takes, and those
  that `compact` takes;
* `MapApi.View.CompactAgrees` — `compact` succeeds, and reads as `apply` does.

Main results:

* `MapApi.View.commit_replays` — **committing a view replays its writes**, at every key and every
  sequence number;
* `MapApi.View.apply_succeeds_iff` — **when the changes of a view can be applied**;
* `MapApi.View.compact_agrees_iff` — **when they can be compacted with the table**.
-/

import MapApi.TableInvariant
import MapApi.ViewRead

set_option relaxedAutoImplicit false
set_option autoImplicit false

namespace MapApi

/-- A call that does not read first stages its write. -/
theorem Call.outcome_of_not_fetches {K V : Type} {c : Call K V} (hc : c.fetches = false)
    {old : Except Fault (SeqMarked V)} {next : Option (SeqMarked V)} {reply : Reply V}
    {sx : Option (SeqMarked V)} (h : c.outcome old next = .ok (reply, sx)) : sx ≠ none := by
  simp only [outcome, hc, Bool.false_eq_true, if_false] at h
  cases next with
  | none => cases h
  | some x =>
      cases h
      exact Option.some_ne_none x

namespace View

variable {K V : Type} [LinearOrder K]

/-! ### Runs over a paired table -/

/-- **Where a run over a paired table fails**: with the counter at the last sequence number. -/
theorem run_over_error {t : Table K V} (ht : t.Paired) {s : U64} {inc : Bool}
    {calls : List (Call K V)} {f : Fault} (hrun : (ofTable s t inc).run calls = .error f) :
    f = .overflow ∧ ∃ before c after replies w, calls = before ++ c :: after ∧
      (ofTable s t inc).run before = .ok (replies, w) ∧ w.lastSeq = U64.max := by
  obtain ⟨before, c, after, replies, w, hcalls, hbefore, hget | ⟨hover, hmax⟩⟩ :=
    run_stops (staged_nil (ofTable_changes s t inc)) hrun
  · obtain ⟨x, hx⟩ := ht.get_ok c.key s
    cases hx.symm.trans hget
  · exact ⟨hover, before, c, after, replies, w, hcalls, hbefore, hmax⟩

/-- A run over a paired table succeeds, or overflows the counter. -/
theorem run_over_cases {t : Table K V} (ht : t.Paired) (s : U64) (inc : Bool)
    (calls : List (Call K V)) :
    (ofTable s t inc).run calls = .error .overflow ∨
      ∃ replies w, (ofTable s t inc).run calls = .ok (replies, w) := by
  cases hrun : (ofTable s t inc).run calls with
  | ok p => exact Or.inr ⟨p.1, p.2, rfl⟩
  | error f =>
      obtain rfl := (run_over_error ht hrun).1
      exact Or.inl rfl

/-- What a run over a table hands over: the table, and a log of staged changes. -/
theorem ofTable_run {t : Table K V} {s : U64} {inc : Bool} {calls : List (Call K V)}
    {replies : List (Reply V)} {w : View (Table K V) K V}
    (hrun : (ofTable s t inc).run calls = .ok (replies, w)) :
    Staged s (stagedLog calls replies) w ∧ w.intoParts = (t, w.lastSeq, w.changes) := by
  obtain ⟨hst, hsnap, -⟩ := staged_run (ofTable_changes s t inc) hrun
  refine ⟨hst, ?_⟩
  rw [intoParts, hsnap]
  rfl

/-- A run whose first call does not read has staged something. -/
theorem stagedLog_ne_nil {w w' : View (Table K V) K V} (h : w.Ready) {c : Call K V}
    (hc : c.fetches = false) {calls : List (Call K V)} {replies : List (Reply V)}
    (hrun : w.run (c :: calls) = .ok (replies, w')) : stagedLog (c :: calls) replies ≠ [] := by
  obtain ⟨reply, w₁, rest, hcall, -, rfl⟩ := run_cons_eq_ok.1 hrun
  rw [stagedLog_cons]
  rw [h.call_eq] at hcall
  cases ho : c.outcome (w.get c.key) (w.nextValue? c.increaseSeq c.value) with
  | error f => rw [ho] at hcall; cases hcall
  | ok p =>
      obtain ⟨reply', sx⟩ := p
      have hstaged := (Call.outcome_eq_ok (fun x => nextValue?_intoData) ho).1
      have hne := Call.outcome_of_not_fetches hc ho
      rw [ho] at hcall
      cases sx with
      | none => exact absurd rfl hne
      | some x =>
          cases hcall
          rw [hstaged]
          exact List.cons_ne_nil _ _

/-! ### Applying the changes -/

/-- **The logs that `apply` takes.**  Something is staged, unless the table carries the least
marker; and over a tombstone at the table's last number the last write is not a value there. -/
def CommitsOnto (t : Table K V) (log : List (K × SeqMarked V)) : Prop :=
  (log = [] → t.lastSeq = Marker.zero) ∧
    ∀ k x, log.getLast? = some (k, x) → t.lastSeq.isTombstone = true → x.seq = t.lastSeq.seq →
      x.isTombstone = true

/-- The assertion of `apply_changes`, in terms of the log. -/
theorem le_lastSeq_iff {t : Table K V} {log : List (K × SeqMarked V)} {w : View (Table K V) K V}
    (hst : Staged t.lastSeq.seq log w) : t.lastSeq ≤ w.changes.lastSeq ↔ CommitsOnto t log := by
  cases log using List.reverseRecOn with
  | nil =>
      have hzero : w.changes.lastSeq = Marker.zero := hst.lastMarker
      rw [hzero]
      constructor
      · intro hle
        exact ⟨fun _ => le_antisymm hle (Marker.zero_le _), nofun⟩
      · intro h
        exact (h.1 rfl).le
  | append_singleton log e =>
      obtain ⟨k, x⟩ := e
      have hlast : w.changes.lastSeq = x.orderKey := by simpa using hst.lastMarker
      have hge : t.lastSeq.seq ≤ x.seq := hst.bound (k, x) (by simp)
      rw [hlast, Marker.le_iff, SeqMarked.seq_orderKey, SeqMarked.isTombstone_orderKey]
      constructor
      · intro h
        refine ⟨by simp, fun k' y hy ht hseq => ?_⟩
        obtain ⟨rfl, rfl⟩ : k = k' ∧ x = y := by simpa using hy
        rcases h with hlt | ⟨-, himp⟩
        · exact absurd hseq (ne_of_gt hlt)
        · exact himp ht
      · intro h
        rcases lt_or_eq_of_le hge with hlt | heq
        · exact Or.inl hlt
        · exact Or.inr ⟨heq, fun ht => h.2 k x (by simp) ht heq.symm⟩

/-- **When the changes of a view can be applied**: for any staging calls on a view opened at the
last number of a built table, `apply` succeeds exactly for the logs it takes. -/
theorem apply_succeeds_iff {t : Table K V} (ht : Table.Built t) (inc : Bool)
    (calls : List (Call K V)) :
    (ofTable t.lastSeq.internalSeq t inc).run calls = .error .overflow ∨
      ∃ replies w, (ofTable t.lastSeq.internalSeq t inc).run calls = .ok (replies, w) ∧
        ((∃ t', w.intoParts.1.apply w.intoParts.2.2 = .ok t') ↔
          CommitsOnto t (stagedLog calls replies)) := by
  refine (run_over_cases ht.wf.paired _ inc calls).imp_right ?_
  intro ⟨replies, w, hrun⟩
  obtain ⟨hst, hparts⟩ := ofTable_run hrun
  refine ⟨replies, w, hrun, ?_⟩
  rw [hparts, ← le_lastSeq_iff hst]
  constructor
  · intro ⟨t', h⟩
    exact (Table.apply_eq_ok.1 h).1
  · intro hle
    exact ⟨_, Table.apply_eq_ok.2 ⟨hle, rfl⟩⟩

/-- A secondary change after a value has moved the counter is taken. -/
theorem apply_succeeds_sample :
    let t : Table ℕ ℕ := (Table.new.insertTombstone 1 5).2
    let calls : List (Call ℕ ℕ) := [.set 2 (some 20), .setWithoutSeqIncrement 3 (some 30)]
    ∃ replies w, (ofTable 5 t false).run calls = .ok (replies, w) ∧
      ((∃ t', w.intoParts.1.apply w.intoParts.2.2 = .ok t') ↔
        CommitsOnto t (stagedLog calls replies)) ∧
      ∃ t', w.intoParts.1.apply w.intoParts.2.2 = .ok t' := by
  intro t calls
  have ht : Table.Built t := .insertTombstone 1 5 .new rfl
  rcases apply_succeeds_iff ht false calls with hover | ⟨replies, w, hrun, hiff⟩
  · have hok : ∃ p, (ofTable 5 t false).run calls = .ok p := ⟨_, rfl⟩
    obtain ⟨p, hp⟩ := hok
    cases hp.symm.trans hover
  · refine ⟨replies, w, hrun, hiff, hiff.2 ⟨fun h => ?_, fun k x hx _ hseq => ?_⟩⟩
    · cases hrun
      exact absurd h (by decide)
    · cases hrun
      cases hx
      exact absurd hseq (by decide)

/-- Two views whose changes cannot be applied: one has staged nothing, the other a value at the
number of a deletion of the table. -/
theorem apply_succeeds_fails :
    let written : Table ℕ ℕ := (Table.new.insert 1 5 10).2
    let deleted : Table ℕ ℕ := (Table.new.insertTombstone 1 5).2
    Table.Built written ∧ Table.Built deleted ∧
    (∃ replies w, (ofTable 5 written false).run [.fetchAndSet 2 none] = .ok (replies, w) ∧
      w.intoParts.1.apply w.intoParts.2.2 = .error .applyBackwards) ∧
    ∃ replies w, (ofTable 5 deleted false).run [.setWithoutSeqIncrement 2 (some 20)] =
        .ok (replies, w) ∧
      w.intoParts.1.apply w.intoParts.2.2 = .error .applyBackwards := by
  intro written deleted
  exact ⟨.insert 1 5 10 .new rfl, .insertTombstone 1 5 .new rfl, ⟨_, _, rfl, by decide⟩,
    ⟨_, _, rfl, by decide⟩⟩

/-- A dominating log is taken by `apply`. -/
theorem commitsOnto_of_dominates {t : Table K V} {inc : Bool} {log : List (K × SeqMarked V)}
    (hdom : Dominates t.lastSeq.seq inc log) (hne : log ≠ []) : CommitsOnto t log := by
  refine ⟨fun h => absurd h hne, fun k x hlast _ hseq => ?_⟩
  have habove := hdom.above (k, x) (List.mem_of_getLast? hlast)
  rcases Marker.le_iff.1 habove with hlt | ⟨-, himp⟩
  · rw [SeqMarked.seq_newTombstone, SeqMarked.seq_orderKey] at hlt
    exact absurd hseq (ne_of_gt hlt)
  · rw [← SeqMarked.isTombstone_orderKey]
    exact himp rfl

/-! ### Reading the committed table -/

section Committed

variable {t t' : Table K V} {inc : Bool} {log : List (K × SeqMarked V)}

/-- What a reader sees in the committed table: the last write it admits, or what it saw before. -/
theorem sees_committed (ht : Table.Wf t) (hdom : Dominates t.lastSeq.seq inc log)
    (ht' : t'.Holds = Versions.overlay t.Holds (LogHolds log)) {k : K} {u : U64}
    {a : Option (Marker × Option V)} (ha : Versions.Sees t.Holds (Table.Upto u) k a) :
    Versions.Sees t'.Holds (Table.Upto u) k
      (((lastStagedUpto log k u).map fun x => (x.orderKey, x.intoData)).or a) := by
  rw [ht']
  refine Versions.sees_overlay (hdom.sees k u) ha fun m d hmd m' d' hm' _ => ?_
  obtain ⟨x, hx, heq⟩ := Option.map_eq_some_iff.1 hmd
  cases heq
  -- every staged marker is above every marker of the table
  refine le_trans (Marker.le_newTombstone_iff.2 ?_) (hdom.above _ (lastStagedUpto_mem hx).1)
  exact ht.greatest.bound hm'

theorem get_committed (ht : Table.Wf t) (hdom : Dominates t.lastSeq.seq inc log)
    (ht' : t'.Holds = Versions.overlay t.Holds (LogHolds log)) (k : K) (u : U64) :
    t'.get k u =
      match lastStagedUpto log k u with
      | some x => .ok x
      | none => t.get k u := by
  obtain ⟨a, ha⟩ := t.exists_sees k u
  have hsees := sees_committed ht hdom ht' ha
  cases hlast : lastStagedUpto log k u with
  | none =>
      rw [hlast] at hsees
      rw [Table.get_eq_of_sees hsees, Table.get_eq_of_sees ha]
      rfl
  | some x =>
      rw [hlast] at hsees
      rw [Table.get_eq_of_sees hsees]
      change mapUnwrap x.orderKey x.intoData = .ok x
      rw [mapUnwrap_of_fits (Table.fits_orderKey x), SeqMarked.seq_orderKey, ← SeqMarked.eq_ofData]

theorem visible_committed (ht : Table.Wf t) (hdom : Dominates t.lastSeq.seq inc log)
    (ht' : t'.Holds = Versions.overlay t.Holds (LogHolds log)) (k : K) (u : U64) :
    t'.Visible u k ↔ (∃ x, lastStagedUpto log k u = some x) ∨ t.Visible u k := by
  obtain ⟨a, ha⟩ := t.exists_sees k u
  have hsees := sees_committed ht hdom ht' ha
  have hiff : ∀ {t : Table K V} {a : Option (Marker × Option V)},
      Versions.Sees t.Holds (Table.Upto u) k a → (t.Visible u k ↔ a ≠ none) := by
    intro t a ha
    rw [Table.visible_iff]
    cases a with
    | none => exact ⟨fun ⟨m, d, h⟩ => absurd h.admitted (ha m d h.mem), fun h => absurd rfl h⟩
    | some r => exact ⟨fun _ => Option.some_ne_none r, fun _ => ⟨r.1, r.2, ha⟩⟩
  rw [hiff hsees, hiff ha]
  cases lastStagedUpto log k u <;> simp

/-- The committed table is paired. -/
theorem paired_committed (ht : t.Paired)
    (ht' : t'.Holds = Versions.overlay t.Holds (LogHolds log)) : t'.Paired := by
  intro k m d h
  rw [ht'] at h
  rcases h with h | ⟨h, -⟩
  · obtain ⟨x, -, rfl, rfl⟩ := LogHolds.mem h
    exact Table.fits_orderKey x
  · exact ht k m d h

/-- **The committed table lists the last writes of the keys in the range**, and what it listed
before where there is none. -/
theorem range_committed (ht : Table.Wf t) (hdom : Dominates t.lastSeq.seq inc log)
    (ht' : t'.Holds = Versions.overlay t.Holds (LogHolds log)) {r : RangeBounds K}
    (hr : ¬r.Inverted) (u : U64) :
    ∃ old new, t.range r u = .ok old ∧ t'.range r u = .ok new ∧ KeyAscending new ∧
      ∀ k x, (k, x) ∈ new ↔ r.Contains k ∧
        match lastStagedUpto log k u with
        | some y => x = y
        | none => (k, x) ∈ old := by
  obtain ⟨old, hold⟩ := ht.paired.range_ok hr u
  obtain ⟨new, hnew⟩ := (paired_committed ht.paired ht').range_ok hr u
  refine ⟨old, new, hold, hnew, (Table.mem_range hnew).1, fun k x => ?_⟩
  rw [Table.mem_range_iff_get hnew, visible_committed ht hdom ht', get_committed ht hdom ht']
  cases hlast : lastStagedUpto log k u with
  | none => simp [Table.mem_range_iff_get hold]
  | some y => simp [eq_comm]

/-- A reader that admits no staged write reads what it read before. -/
theorem range_committed_of_not_staged (ht : Table.Wf t) (hdom : Dominates t.lastSeq.seq inc log)
    (ht' : t'.Holds = Versions.overlay t.Holds (LogHolds log)) {u : U64}
    (hu : ∀ k, lastStagedUpto log k u = none) (r : RangeBounds K) : t'.range r u = t.range r u := by
  refine Table.range_congr (fun k m d => ?_) r
  obtain ⟨a, ha⟩ := t.exists_sees k u
  have hsees := sees_committed ht hdom ht' ha
  rw [hu k] at hsees
  constructor
  · intro h
    have hread : Versions.Sees t'.Holds (Table.Upto u) k (some (m, d)) := h
    cases hsees.unique t'.functional_holds hread
    exact ha
  · intro h
    have hread : Versions.Sees t.Holds (Table.Upto u) k (some (m, d)) := h
    cases ha.unique t.functional_holds hread
    exact hsees

/-- A reader below the view admits none of its writes, nor does one at its first number when
deletions take a number of their own. -/
theorem lastStagedUpto_eq_none_of_below {w : View (Table K V) K V} {n u : U64}
    (hst : Staged n log w) (hdom : Dominates n inc log) (hu : u < n ∨ (u = n ∧ inc = true))
    (k : K) : lastStagedUpto log k u = none := by
  refine lastStagedUpto_eq_none.2 fun e he _ => ?_
  rcases hu with hlt | ⟨rfl, hinc⟩
  · exact lt_of_lt_of_le hlt (hst.bound e he)
  · exact hdom.strict hinc e he

end Committed

/-- **Committing a view replays its writes.**  For any non-empty sequence of `set` calls on a view
opened at the last number of a built table, `apply` succeeds, and the table it leaves answers a
read of any key at any sequence number with the last write of the key up to that number, or as
before; a range read lists exactly these answers; and reads below the view's writes are
unchanged. -/
theorem commit_replays {t : Table K V} (ht : Table.Built t) (inc : Bool)
    {sets : List (K × Option V)} (hne : sets ≠ []) :
    let s := t.lastSeq.internalSeq
    let calls := sets.map fun e => Call.set e.1 e.2
    (ofTable s t inc).run calls = .error .overflow ∨
      ∃ replies w t', (ofTable s t inc).run calls = .ok (replies, w) ∧
        w.intoParts.1.apply w.intoParts.2.2 = .ok t' ∧
        (∀ k u, t'.get k u =
          match lastStagedUpto (stagedLog calls replies) k u with
          | some x => .ok x
          | none => t.get k u) ∧
        (∀ (r : RangeBounds K) u, ¬r.Inverted →
          ∃ old new, t.range r u = .ok old ∧ t'.range r u = .ok new ∧ KeyAscending new ∧
            ∀ k x, (k, x) ∈ new ↔ r.Contains k ∧
              match lastStagedUpto (stagedLog calls replies) k u with
              | some y => x = y
              | none => (k, x) ∈ old) ∧
        ∀ u, (u < s ∨ (u = s ∧ inc = true)) →
          (∀ k, t'.get k u = t.get k u) ∧ ∀ r, t'.range r u = t.range r u := by
  intro s calls
  have hwf := ht.wf
  refine (run_over_cases hwf.paired s inc calls).imp_right ?_
  intro ⟨replies, w, hrun⟩
  obtain ⟨hst, hparts⟩ := ofTable_run hrun
  have hcalls : ∀ c ∈ calls, c.increaseSeq = true := by
    intro c hc
    obtain ⟨e, -, rfl⟩ := List.mem_map.1 hc
    rfl
  have hdom : Dominates s inc (stagedLog calls replies) :=
    dominates_run (ofTable_changes s t inc) hcalls hrun
  have hlog : stagedLog calls replies ≠ [] := by
    cases sets with
    | nil => exact absurd rfl hne
    | cons e sets => exact stagedLog_ne_nil (staged_nil (ofTable_changes s t inc)).ready rfl hrun
  have hle := (le_lastSeq_iff hst).2 (commitsOnto_of_dominates hdom hlog)
  refine ⟨replies, w, ⟨t.inner.extend w.changes.inner.entries, w.changes.lastSeq⟩, hrun, ?_, ?_⟩
  · rw [hparts]
    exact Table.apply_eq_ok.2 ⟨hle, rfl⟩
  generalize ht'def : (⟨t.inner.extend w.changes.inner.entries, w.changes.lastSeq⟩ : Table K V) = t'
  have ht' : t'.Holds = Versions.overlay t.Holds (LogHolds (stagedLog calls replies)) := by
    rw [← ht'def, Table.holds_extend, hst.holds_changes]
  have hget := get_committed hwf hdom ht'
  refine ⟨hget, fun r u hr => range_committed hwf hdom ht' hr u, fun u hu => ?_⟩
  have hnone := lastStagedUpto_eq_none_of_below hst hdom hu
  refine ⟨fun k => ?_, range_committed_of_not_staged hwf hdom ht' hnone⟩
  rw [hget, hnone]

/-- A transaction that overwrites a value and deletes a key, over a table with an earlier
deletion. -/
theorem commit_replays_sample :
    let t : Table ℕ ℕ := ((Table.new.insert 1 4 10).2.insertTombstone 2 5).2
    let calls : List (Call ℕ ℕ) := [.set 1 (some 11), .set 1 none]
    ∃ replies w t', (ofTable 5 t false).run calls = .ok (replies, w) ∧
      w.intoParts.1.apply w.intoParts.2.2 = .ok t' ∧ t'.get 1 5 = .ok (.newNormal 4 10) ∧
      t'.get 1 6 = .ok (.newTombstone 6) := by
  intro t calls
  have ht : Table.Built t := .insertTombstone 2 5 (.insert 1 4 10 .new rfl) rfl
  have hne : [(1, some 11), (1, none)] ≠ ([] : List (ℕ × Option ℕ)) := List.cons_ne_nil _ _
  rcases commit_replays ht false hne with
    hover | ⟨replies, w, t', hrun, happly, hget, -, -⟩
  · obtain ⟨p, hp⟩ : ∃ p, (ofTable 5 t false).run calls = .ok p := ⟨_, rfl⟩
    cases hp.symm.trans hover
  · refine ⟨replies, w, t', hrun, happly, (hget 1 5).trans ?_, (hget 1 6).trans ?_⟩
    · cases hrun
      decide
    · cases hrun
      decide

/-! ### Compacting the changes -/

/-- `compact` succeeds at a watermark, and its readers at or above it read as after `apply`. -/
def CompactAgrees (P : KMerge.Picker Fault (Ent K V)) (t changes : Table K V) (m : U64) : Prop :=
  ∃ compacted applied, t.compact P changes m = .ok compacted ∧ t.apply changes = .ok applied ∧
    ∀ k u, m ≤ u → compacted.get k u = applied.get k u

/-- The logs that `compact` takes: a key deleted at the table's last number, and deleted again in
the log at the same number, is written again up to the watermark. -/
def CompactsOnto (t : Table K V) (log : List (K × SeqMarked V)) (m : U64) : Prop :=
  ∀ k, t.Holds k (.newTombstone t.lastSeq.seq) none → (k, .newTombstone t.lastSeq.seq) ∈ log →
    ∃ x, (k, x) ∈ log ∧ t.lastSeq.seq < x.seq ∧ x.seq ≤ m

/-- Compacting with changes that the table takes reads as applying them. -/
theorem compactAgrees_of_compact_ok {P : KMerge.Picker Fault (Ent K V)} {t changes c : Table K V}
    {m : U64} (hc : t.compact P changes m = .ok c) (hle : t.lastSeq ≤ changes.lastSeq) :
    CompactAgrees P t changes m := by
  refine ⟨c, _, hc, Table.apply_eq_ok.2 ⟨hle, rfl⟩, fun k u hu => Table.get_congr fun r hr => ?_⟩
  rw [Table.holds_extend]
  exact ((Table.prunedTo_compact hc).sees_iff fun n hn => le_trans hn hu).1 hr

section Compacted

variable {t : Table K V} {inc : Bool} {log : List (K × SeqMarked V)} {w : View (Table K V) K V}

/-- A table and a dominating log collide only at tombstones of the table's last number. -/
theorem collide_iff (ht : Table.Wf t) (hst : Staged t.lastSeq.seq log w)
    (hdom : Dominates t.lastSeq.seq inc log) {k : K} {n : Marker} :
    Table.Collide t w.changes k n ↔ n = .newTombstone t.lastSeq.seq ∧ t.Holds k n none ∧
      (k, .newTombstone t.lastSeq.seq) ∈ log := by
  constructor
  · intro h
    obtain ⟨⟨d, hd⟩, d', hd'⟩ := h
    rw [hst.holds_changes] at hd'
    obtain ⟨x, hx, hxn, -⟩ := LogHolds.mem hd'
    have hn : n = .newTombstone t.lastSeq.seq := by
      refine le_antisymm (Marker.le_newTombstone_iff.2 (ht.greatest.bound hd)) ?_
      rw [← hxn]
      exact hdom.above _ hx
    have hfits := ht.paired k n d hd
    rw [Table.Fits, hn] at hfits
    obtain rfl := Option.isNone_iff_eq_none.1 hfits.symm
    have hxt : x = .newTombstone t.lastSeq.seq := by
      refine (SeqMarked.eq_of_orderKey_tombstone ?_ rfl).symm
      rw [hxn, hn]
      rfl
    exact ⟨hn, hd, hxt ▸ hx⟩
  · intro h
    obtain ⟨hn, hd, hmem⟩ := h
    obtain ⟨d', hd'⟩ := exists_logHolds hmem
    refine ⟨⟨none, hd⟩, d', ?_⟩
    rw [hst.holds_changes, hn]
    exact hd'

/-- The assertion of the fold, in terms of the log. -/
theorem collisionsHidden_iff (ht : Table.Wf t) (hst : Staged t.lastSeq.seq log w)
    (hdom : Dominates t.lastSeq.seq inc log) (m : U64) :
    Table.CollisionsHidden t w.changes m ↔ CompactsOnto t log m := by
  -- only a later write of the log is above the tombstone of the table's last number
  have hhidden : ∀ k, Versions.Hidden (Table.Upto m) (Table.Either t w.changes) k
      (.newTombstone t.lastSeq.seq) ↔ ∃ x, (k, x) ∈ log ∧ t.lastSeq.seq < x.seq ∧ x.seq ≤ m := by
    intro k
    constructor
    · intro ⟨n, d, hin, hlt, hup⟩
      rw [Marker.newTombstone_lt_iff] at hlt
      rcases hin with hin | hin
      · exact absurd (ht.greatest.bound hin) (not_le.2 hlt)
      · rw [hst.holds_changes] at hin
        obtain ⟨x, hx, rfl, -⟩ := LogHolds.mem hin
        rw [SeqMarked.seq_orderKey] at hlt
        exact ⟨x, hx, hlt, by simpa using hup⟩
    · intro ⟨x, hx, hlt, hup⟩
      obtain ⟨d, hd⟩ := exists_logHolds hx
      refine ⟨x.orderKey, d, Or.inr ?_, ?_, ?_⟩
      · rw [hst.holds_changes]
        exact hd
      · rw [Marker.newTombstone_lt_iff, SeqMarked.seq_orderKey]
        exact hlt
      · simpa using hup
  constructor
  · intro h k hd hmem
    exact (hhidden k).1 (h k _ ((collide_iff ht hst hdom).2 ⟨rfl, hd, hmem⟩))
  · intro h k n hcol
    obtain ⟨rfl, hd, hmem⟩ := (collide_iff ht hst hdom).1 hcol
    exact (hhidden k).2 (h k hd hmem)

end Compacted

/-- **When the changes of a view can be compacted with the table**: for any calls that allocate for
values, on a view opened at the last number of a built table, that stage something, `compact` at a
watermark succeeds and agrees with `apply` exactly for the logs it takes. -/
theorem compact_agrees_iff (P : KMerge.Picker Fault (Ent K V)) {t : Table K V}
    (ht : Table.Built t) (inc : Bool) {calls : List (Call K V)}
    (hcalls : ∀ c ∈ calls, c.increaseSeq = true) (m : U64) :
    (ofTable t.lastSeq.internalSeq t inc).run calls = .error .overflow ∨
      ∃ replies w, (ofTable t.lastSeq.internalSeq t inc).run calls = .ok (replies, w) ∧
        (stagedLog calls replies ≠ [] →
          (CompactAgrees P w.intoParts.1 w.intoParts.2.2 m ↔
            CompactsOnto t (stagedLog calls replies) m)) := by
  have hwf := ht.wf
  refine (run_over_cases hwf.paired _ inc calls).imp_right ?_
  intro ⟨replies, w, hrun⟩
  obtain ⟨hst, hparts⟩ := ofTable_run hrun
  have hdom : Dominates t.lastSeq.seq inc (stagedLog calls replies) :=
    dominates_run (ofTable_changes _ t inc) hcalls hrun
  refine ⟨replies, w, hrun, fun hne => ?_⟩
  have hle := (le_lastSeq_iff hst).2 (commitsOnto_of_dominates hdom hne)
  rw [hparts, ← collisionsHidden_iff hwf hst hdom]
  constructor
  · intro ⟨c, _, hc, _⟩
    exact (Table.compact_eq_ok hc).1
  · intro hhidden
    obtain ⟨c, hc, -, -⟩ := Table.compact_spec P hhidden
    exact compactAgrees_of_compact_ok hc hle

/-- A key deleted again, and written again below the watermark. -/
theorem compact_agrees_sample :
    let t : Table ℕ ℕ := (Table.new.insertTombstone 1 5).2
    let calls : List (Call ℕ ℕ) := [.set 1 none, .set 1 (some 11)]
    ∃ replies w, (ofTable 5 t false).run calls = .ok (replies, w) ∧
      CompactAgrees .leftmost w.intoParts.1 w.intoParts.2.2 6 := by
  intro t calls
  have ht : Table.Built t := .insertTombstone 1 5 .new rfl
  have hcalls : ∀ c ∈ calls, c.increaseSeq = true := by decide
  rcases compact_agrees_iff .leftmost ht false hcalls 6 with hover | ⟨replies, w, hrun, hiff⟩
  · obtain ⟨p, hp⟩ : ∃ p, (ofTable 5 t false).run calls = .ok p := ⟨_, rfl⟩
    cases hp.symm.trans hover
  · refine ⟨replies, w, hrun, (hiff ?_).2 fun k hk hmem => ?_⟩
    · cases hrun
      decide
    · cases hrun
      have hone : ((⟨k, .newTombstone 5⟩, none) : Ent ℕ ℕ) ∈ [(⟨1, .newTombstone 5⟩, none)] := hk
      obtain rfl : k = 1 := congrArg (fun e => e.1.key) (List.mem_singleton.1 hone)
      exact ⟨.newNormal 6 11, by decide, by decide, by decide⟩

/-- A key deleted at the last number of the table, and deleted again in the view: `apply` takes the
changes, and `compact` panics. -/
theorem compact_agrees_fails :
    let t : Table ℕ ℕ := ((Table.new.insert 1 5 10).2.insertTombstone 1 5).2
    Table.Built t ∧ ∃ replies w, (ofTable 5 t false).run [.set 1 none] = .ok (replies, w) ∧
      (∃ t', w.intoParts.1.apply w.intoParts.2.2 = .ok t') ∧
      w.intoParts.1.compact .leftmost w.intoParts.2.2 5 = .error .coalesceOrder ∧
      ¬CompactAgrees .leftmost w.intoParts.1 w.intoParts.2.2 5 := by
  intro t
  refine ⟨.insertTombstone 1 5 (.insert 1 5 10 .new rfl) rfl, _, _, rfl, ⟨_, rfl⟩, by decide, ?_⟩
  intro ⟨c, _, hc, _⟩
  have herr : t.compact .leftmost (Table.new.insertTombstone 1 5).2 5 = .error .coalesceOrder := by
    decide
  cases herr.symm.trans hc

end View

end MapApi
