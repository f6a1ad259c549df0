/-
**Snapshots stay as they were.**

A snapshot is a sequence number and a reader.  When the reader is the table of a store, transactions
that come later write into it and compact it, so what the snapshot reads has to be left alone by
them: their records are numbered after the snapshot, and no watermark passes it.  One case is
different.  Where deletions take no numbers of their own, a deletion made first thing after the
snapshot carries the snapshot's number, and the snapshot sees it.

The numbers themselves are handed out without gaps and without repetition.

Main definitions:

* `MapApi.View.Alike` — two views over readers that answer alike;
* `MapApi.Table.After`, `MapApi.Table.Extends` — the markers handed out after a number, and what
  later transactions leave of a table;
* `MapApi.Table.NumberedOnce`, `MapApi.Table.NumberedUpto` — no number is shared, none skipped.

Main results:

* `MapApi.View.alike_simulates` — a view cannot tell such readers apart;
* `MapApi.Store.snapshot_isolated` — **a snapshot reads what it read when it was taken**;
* `MapApi.Store.past_view` — **a view opened on a past number goes on as it would have then**;
* `MapApi.Store.snapshot_below_isolated` — **a snapshot below the last number is left alone by
  whatever is called**;
* `MapApi.Store.numbers_dense` — **every number is given to one write, and none is skipped**.
-/

import MapApi.Store

set_option relaxedAutoImplicit false
set_option autoImplicit false

namespace MapApi

/-! ### Readers that answer alike -/

namespace View

section Alike

variable {D D' K V : Type} [LinearOrder K] [GetAtSeq D K V] [RangeAtSeq D K V] [GetAtSeq D' K V]
  [RangeAtSeq D' K V]

/-- **Two views over readers that answer alike**, with the same changes. -/
structure Alike (w : View D K V) (w' : View D' K V) : Prop where
  ready : w.Ready
  setting : w.increaseSeqForTombstone = w'.increaseSeqForTombstone
  changes : w.changes = w'.changes
  lastSeq : w.lastSeq = w'.lastSeq
  get : ∀ k : K, w.snapshot.get k = (w'.snapshot.get k : Except Fault (SeqMarked V))
  range : ∀ r : RangeBounds K,
    w.snapshot.range r = (w'.snapshot.range r : Except Fault (List (KVResult K V)))

namespace Alike

variable {w : View D K V} {w' : View D' K V}

theorem get_eq (h : Alike w w') (k : K) : w.get k = w'.get k := by
  rw [View.get, View.get, h.changes, h.lastSeq, h.get]

theorem readsSame (h : Alike w w') : ReadsSame w w' := by
  refine ⟨h.lastSeq, h.get_eq, fun P r _ => ?_⟩
  rw [View.range, View.range, h.changes, h.lastSeq, h.range]

theorem stage (h : Alike w w') (k : K) (x : SeqMarked V) : Alike (w.stage k x) (w'.stage k x) := by
  refine ⟨?_, h.setting, ?_, rfl, h.get, h.range⟩
  · rw [Ready, stage_changes, stage_lastSeq, Table.lastSeq_put, SeqMarked.seq_orderKey]
  · rw [stage_changes, stage_changes, h.changes]

end Alike

/-- **A view cannot tell apart readers that answer alike**, whatever it is called with. -/
theorem alike_simulates :
    Machine.Simulates (fun (w : View D K V) (w' : View D' K V) => Alike w w') (fun _ => True)
      step step := by
  intro w w' c h _
  have hready' : w'.Ready := by
    have hready := h.ready
    rwa [Ready, h.changes, h.lastSeq] at hready
  have hnext : w'.nextValue? c.increaseSeq c.value = w.nextValue? c.increaseSeq c.value := by
    rw [nextValue?, nextValue?, h.setting, h.lastSeq]
  rw [h.ready.step_eq, hready'.step_eq, ← h.get_eq, hnext]
  cases ho : c.outcome (w.get c.key) (w.nextValue? c.increaseSeq c.value) with
  | error f => exact .error f
  | ok p =>
      obtain ⟨reply, sx⟩ := p
      cases sx with
      | none => exact .ok reply h
      | some x => exact .ok reply (h.stage c.key x)

/-- Views before their first call. -/
theorem alike_fresh {s : Snapshot D} {s' : Snapshot D'}
    (hget : ∀ k : K, s.get k = (s'.get k : Except Fault (SeqMarked V)))
    (hrange : ∀ r : RangeBounds K, s.range r = (s'.range r : Except Fault (List (KVResult K V))))
    (inc : Bool) (n : U64) : Alike (fresh s inc n : View D K V) (fresh s' inc n : View D' K V) :=
  ⟨Fin.zero_le _, rfl, rfl, rfl, hget, hrange⟩

end Alike

/-- What one call leaves of the table it is committed to. -/
theorem autocommitStep_cases {K V : Type} [LinearOrder K] {inc : Bool} {q q' : Table K V × U64}
    {c : Call K V} {reply : Reply V} (h : autocommitStep inc q c = .ok (reply, q')) :
    q' = q ∨ ∃ x, nextAt inc q.2 c = some x ∧
      q' = (q.1.put c.key x.orderKey x.intoData, x.seq) := by
  rw [autocommitStep] at h
  cases ho : c.outcome (q.1.get c.key q.2) (nextAt inc q.2 c) with
  | error f => rw [ho] at h; cases h
  | ok p =>
      obtain ⟨reply', sx⟩ := p
      rw [ho] at h
      cases sx with
      | none =>
          cases h
          exact Or.inl rfl
      | some x =>
          cases h
          exact Or.inr ⟨x, (Call.outcome_eq_ok (fun y => eq_ofData_of_nextAt) ho).2 x rfl, rfl⟩

end View

/-! ### What later transactions leave of a table -/

namespace Table

variable {K V : Type} [LinearOrder K] {inc : Bool} {n u : U64}

/-- **The markers handed out after a number**: above it, or the tombstone there if deletions take no
numbers of their own. -/
def After (inc : Bool) (n : U64) (m : Marker) : Prop :=
  .newTombstone n ≤ m ∧ (inc = true → n < m.seq)

theorem After.mono {n' : U64} {m : Marker} (h : After inc n' m) (hn : n ≤ n') : After inc n m :=
  ⟨le_trans (Marker.le_newTombstone_iff.2 hn) h.1, fun hinc => lt_of_le_of_lt hn (h.2 hinc)⟩

/-- A snapshot sees no marker handed out after it, the one tombstone excepted. -/
theorem After.not_upto {m : Marker} (h : After inc n m) (hu : u ≤ n) (hfree : inc = true ∨ u < n) :
    ¬Upto u m := by
  intro hup
  rcases hfree with hinc | hlt
  · exact absurd (h.2 hinc) (not_lt.2 (le_trans hup hu))
  · exact absurd (lt_of_lt_of_le hlt (Marker.seq_le_of_le h.1)) (not_lt.2 hup)

/-- What a snapshot sees of the markers handed out after it. -/
theorem After.eq_newTombstone {m : Marker} (h : After inc n m) (hu : u ≤ n) (hup : Upto u m) :
    m = .newTombstone u := by
  have hle : m ≤ .newTombstone u := Marker.le_newTombstone_iff.2 hup
  exact le_antisymm hle (le_trans (Marker.le_newTombstone_iff.2 hu) h.1)

/-- **What later transactions leave of a table**: the records that were numbered before, and no
place that was taken is free. -/
structure Extends (inc : Bool) (n : U64) (t t' : Table K V) : Prop where
  before : ∀ k m d, ¬After inc n m → (t'.Holds k m d ↔ t.Holds k m d)
  taken : ∀ k m d, t.Holds k m d → ∃ d', t'.Holds k m d'

theorem Extends.refl (inc : Bool) (n : U64) (t : Table K V) : Extends inc n t t :=
  ⟨fun _ _ _ _ => Iff.rfl, fun _ _ d h => ⟨d, h⟩⟩

theorem Extends.put {t t' : Table K V} (h : Extends inc n t t') (k : K) {m : Marker}
    (hm : After inc n m) (d : Option V) : Extends inc n t (t'.put k m d) := by
  refine ⟨fun k' m' d' hm' => ?_, fun k' m' d' hheld => ?_⟩
  · rw [holds_put, ← h.before k' m' d' hm']
    have hne : m' ≠ m := fun heq => hm' (heq ▸ hm)
    exact ⟨fun hx => hx.elim (fun hx => absurd hx.2.1 hne) And.left,
      fun hx => Or.inr ⟨hx, fun heq => hne heq.2⟩⟩
  · obtain ⟨d'', hd''⟩ := h.taken k' m' d' hheld
    by_cases hplace : k' = k ∧ m' = m
    · exact ⟨d, holds_put.2 (Or.inl ⟨hplace.1, hplace.2, rfl⟩)⟩
    · exact ⟨d'', holds_put.2 (Or.inr ⟨hd'', hplace⟩)⟩

/-- Point reads of tables that hold the same records of a key up to a number. -/
theorem get_congr_upto {t t' : Table K V} {k : K}
    (h : ∀ m d, Upto u m → (t'.Holds k m d ↔ t.Holds k m d)) : t'.get k u = t.get k u := by
  refine get_congr fun r hr => ?_
  match r with
  | some (m, d) => exact (Versions.isLatest_congr h).1 hr
  | none => exact fun m d hm hup => hr m d ((h m d hup).2 hm) hup

/-- **A snapshot that sees no later marker reads the same.** -/
theorem Extends.reads {t t' : Table K V} (h : Extends inc n t t') (hu : u ≤ n)
    (hfree : inc = true ∨ u < n) :
    (∀ k, t'.get k u = t.get k u) ∧ ∀ r, t'.range r u = t.range r u := by
  have hsame : ∀ k m d, Upto u m → (t'.Holds k m d ↔ t.Holds k m d) := fun k m d hup =>
    h.before k m d fun hafter => hafter.not_upto hu hfree hup
  exact ⟨fun k => get_congr_upto (hsame k),
    range_congr fun k m d => Versions.isLatest_congr fun m' d' => hsame k m' d'⟩

/-- **Any other snapshot reads the same, or the tombstone of its own number.** -/
theorem Extends.get_cases {t t' : Table K V} (h : Extends inc n t t') (hu : u ≤ n) (k : K) :
    t'.get k u = t.get k u ∨ t'.get k u = .ok (.newTombstone u) := by
  by_cases htomb : ∃ d, t'.Holds k (.newTombstone u) d
  · obtain ⟨d, hd⟩ := htomb
    have hsees : Versions.Sees t'.Holds (Upto u) k (some (.newTombstone u, d)) :=
      ⟨hd, le_rfl, fun _ _ _ hup => Marker.le_newTombstone_iff.2 hup⟩
    exact Or.inr ((get_eq_of_sees hsees).trans (mapUnwrap_newTombstone u d))
  · refine Or.inl (get_congr_upto fun m d hup => ?_)
    by_cases hafter : After inc n m
    · -- the tombstone is the only marker handed out later that is seen
      obtain rfl := hafter.eq_newTombstone hu hup
      exact ⟨fun hm => absurd ⟨d, hm⟩ htomb, fun hm => absurd (h.taken k _ d hm) htomb⟩
    · exact h.before k m d hafter

end Table

/-! ### Stores -/

namespace Store

variable {K V : Type} [LinearOrder K] {P : KMerge.Picker Fault (Ent K V)} {inc : Bool}

omit [LinearOrder K] in
/-- The marker of a call is handed out after its counter. -/
theorem after_of_nextAt {n : U64} {c : Call K V} (hc : c.increaseSeq = true) {x : SeqMarked V}
    (hx : View.nextAt inc n c = some x) : Table.After inc n x.orderKey := by
  refine ⟨View.newTombstone_le_of_nextAt hc hx, fun hinc => ?_⟩
  obtain ⟨n', hn, rfl⟩ := Option.map_eq_some_iff.1 hx
  rw [SeqMarked.seq_orderKey, SeqMarked.seq_ofData]
  have hsucc : n.succ? = some n' := by simpa [hc, hinc] using hn
  exact U64.lt_of_succ? hsucc

/-- One call leaves the records numbered before. -/
theorem extends_preserved (t : Table K V) (n : U64) :
    Machine.Preserves
      (fun q : Table K V × U64 => View.Settled q.1 q.2 ∧ n ≤ q.2 ∧ Table.Extends inc n t q.1)
      (fun c => c.increaseSeq = true) (View.autocommitStep inc) := by
  rintro ⟨u, m⟩ c reply q ⟨hu, hn, hext⟩ hc hstep
  rcases View.autocommitStep_cases hstep with rfl | ⟨x, hx, rfl⟩
  · exact ⟨hu, hn, hext⟩
  · have hafter : Table.After inc n x.orderKey := (after_of_nextAt hc hx).mono hn
    exact ⟨hu.put hc hx, le_trans hn (View.seq_of_nextAt hc hx).1, hext.put c.key hafter _⟩

/-- **What a run leaves of the table it starts from**: the twin that it prunes extends it. -/
theorem exists_extends {t t' : Table K V} {n n' : U64} (h : View.Settled t n)
    {txs : List (Transaction K V)} (htxs : ∀ tx ∈ txs, tx.Allocates)
    {replies : List (List (Reply V))}
    (hrun : Machine.run (transact P inc) (t, n) txs = .ok (replies, t', n')) :
    ∃ u', Table.Extends inc n t u' ∧ Table.Twin (Transaction.watermarks txs) t' u' := by
  obtain ⟨u', hrun', htwin, -⟩ := exists_applied_run h htxs hrun
  rw [← Machine.run_map] at hrun'
  have hI := (applied_preserves (P := P) (fun _ hq => hq.1) (extends_preserved t n)).run htxs
    ⟨h, le_rfl, .refl inc n t⟩ hrun'
  exact ⟨u', hI.2.2, htwin⟩

/-- **A snapshot reads what it read when it was taken.**  Transactions run on a settled table, none
of them compacting past the snapshot.  Point reads, batches of them and range reads at the snapshot
are the same on the table they leave, if deletions take numbers of their own or the snapshot is
below the last number.  If neither, a point read may answer the tombstone of the snapshot's own
number instead. -/
theorem snapshot_isolated {t t' : Table K V} {n n' : U64} (h : View.Settled t n)
    {txs : List (Transaction K V)} (htxs : ∀ tx ∈ txs, tx.Allocates)
    {replies : List (List (Reply V))}
    (hrun : Machine.run (transact P inc) (t, n) txs = .ok (replies, t', n')) {s : U64}
    (hs : s ≤ n) (hws : ∀ m ∈ Transaction.watermarks txs, m ≤ s) :
    (inc = true ∨ s < n → (∀ k, t'.get k s = t.get k s) ∧
        (∀ ks, (Snapshot.new s t').getMany ks = t.getMany ks s) ∧
        ∀ r, t'.range r s = t.range r s) ∧
      ∀ k, t'.get k s = t.get k s ∨ t'.get k s = .ok (.newTombstone s) := by
  obtain ⟨u', hext, htwin⟩ := exists_extends h htxs hrun
  obtain ⟨hget, hrange⟩ := htwin.reads hws
  refine ⟨fun hfree => ?_, fun k => ?_⟩
  · obtain ⟨hget', hrange'⟩ := hext.reads hs hfree
    have hpoint : ∀ k, t'.get k s = t.get k s := fun k => (hget k).trans (hget' k)
    refine ⟨hpoint, fun ks => ?_, fun r => (hrange r).trans (hrange' r)⟩
    exact congrArg ks.mapM (funext hpoint)
  · rw [hget k]
    exact hext.get_cases hs k

/-- A deletion and an overwrite after the snapshot, compacted at it. -/
theorem snapshot_isolated_sample :
    let txs : List (Transaction ℕ ℕ) :=
      [⟨[.set 1 (some 10), .set 2 (some 20)], none⟩]
    let txs' : List (Transaction ℕ ℕ) := [⟨[.set 1 none], some 2⟩, ⟨[.set 2 (some 21)], some 1⟩]
    ∃ replies t replies' t', Machine.run (transact .leftmost true) (.new, 0) txs =
        .ok (replies, t, 2) ∧
      Machine.run (transact .leftmost true) (t, 2) txs' = .ok (replies', t', 4) ∧
      (∀ k, t'.get k 2 = t.get k 2) ∧ t'.get 1 3 = .ok (.newTombstone 3) := by
  intro txs txs'
  have htxs : ∀ tx ∈ txs, tx.Allocates := by decide
  have htxs' : ∀ tx ∈ txs', tx.Allocates := by decide
  obtain ⟨replies, t, hrun⟩ : ∃ replies t, Machine.run (transact .leftmost true) (.new, 0) txs =
    .ok (replies, t, 2) := ⟨_, _, rfl⟩
  obtain ⟨u, -, htwin, hu⟩ := exists_applied_run View.settled_new htxs hrun
  obtain ⟨replies', t', hrun'⟩ : ∃ replies' t', Machine.run (transact .leftmost true) (t, 2) txs' =
    .ok (replies', t', 4) := by
      cases hrun
      exact ⟨_, _, rfl⟩
  have hws : ∀ m ∈ Transaction.watermarks txs', m ≤ 2 := by
    intro m hm
    have hmem : m ∈ [2, 1] := hm
    rcases List.mem_pair.1 hmem with rfl | rfl <;> decide
  refine ⟨replies, t, replies', t', hrun, hrun',
    ((snapshot_isolated (htwin.settled hu) htxs' hrun' le_rfl hws).1 (Or.inl rfl)).1, ?_⟩
  cases hrun
  cases hrun'
  rfl

/-- **A view opened on a past number goes on as it would have then.**  Two views are opened at a
snapshot's number, one on the table as it was and one on the table that later transactions have
left; deletions take numbers of their own, or the snapshot is below the last number.  Whatever the
views are called with, they fail alike, or return the same replies and read the same afterwards. -/
theorem past_view {t t' : Table K V} {n n' : U64} (h : View.Settled t n)
    {txs : List (Transaction K V)} (htxs : ∀ tx ∈ txs, tx.Allocates)
    {replies : List (List (Reply V))}
    (hrun : Machine.run (transact P inc) (t, n) txs = .ok (replies, t', n')) {s : U64}
    (hs : s ≤ n) (hws : ∀ m ∈ Transaction.watermarks txs, m ≤ s) (hfree : inc = true ∨ s < n)
    (inc' : Bool) (n₀ : U64) (calls : List (Call K V)) :
    Machine.Agree View.ReadsSame
      ((View.fresh (.new s t') inc' n₀ : View (Table K V) K V).run calls)
      ((View.fresh (.new s t) inc' n₀ : View (Table K V) K V).run calls) := by
  obtain ⟨u', hext, htwin⟩ := exists_extends h htxs hrun
  obtain ⟨hget, hrange⟩ := htwin.reads hws
  obtain ⟨hget', hrange'⟩ := hext.reads hs hfree
  have hpoint : ∀ k : K, (Snapshot.new s t').get k =
      ((Snapshot.new s t).get k : Except Fault (SeqMarked V)) := fun k =>
    (hget k).trans (hget' k)
  have hscan : ∀ r : RangeBounds K, (Snapshot.new s t').range r =
      ((Snapshot.new s t).range r : Except Fault (List (KVResult K V))) := by
    intro r
    change (t'.range r s >>= _) = (t.range r s >>= _)
    rw [hrange r, hrange' r]
  rw [View.run_eq_machine, View.run_eq_machine]
  exact (View.alike_simulates.run (fun _ _ => trivial)
    (View.alike_fresh hpoint hscan inc' n₀)).mono fun _ _ hw => hw.readsSame

/-- A view opened on the empty table, after two transactions on it. -/
theorem past_view_sample :
    let txs : List (Transaction ℕ ℕ) := [⟨[.set 1 (some 10)], none⟩, ⟨[.set 1 none], some 0⟩]
    let calls : List (Call ℕ ℕ) := [.fetchAndSet 1 (some 11), .setWithoutSeqIncrement 2 (some 20)]
    ∃ replies t, Machine.run (transact .leftmost true) (.new, 0) txs = .ok (replies, t, 2) ∧
      Machine.Agree View.ReadsSame
        ((View.fresh (.new 0 t) false 7 : View (Table ℕ ℕ) ℕ ℕ).run calls)
        ((View.fresh (.new 0 .new) false 7 : View (Table ℕ ℕ) ℕ ℕ).run calls) := by
  intro txs calls
  have htxs : ∀ tx ∈ txs, tx.Allocates := by decide
  obtain ⟨replies, t, hrun⟩ : ∃ replies t, Machine.run (transact .leftmost true) (.new, 0) txs =
    .ok (replies, t, 2) := ⟨_, _, rfl⟩
  have hws : ∀ m ∈ Transaction.watermarks txs, m ≤ 0 := by
    intro m hm
    have hmem : m ∈ [0] := hm
    exact (List.mem_singleton.1 hmem).le
  exact ⟨replies, t, hrun,
    past_view View.settled_new htxs hrun le_rfl hws (Or.inl rfl) false 7 calls⟩

/-- At the last number, where deletions take none of their own, a view sees the deletion of a later
transaction, and overwrites it. -/
example :
    let t : Table ℕ ℕ := (Table.new.insert 1 1 10).2
    let txs : List (Transaction ℕ ℕ) := [⟨[.set 1 none], none⟩, ⟨[.set 2 (some 20)], none⟩]
    let view (t : Table ℕ ℕ) : View (Table ℕ ℕ) ℕ ℕ := View.fresh (.new 1 t) false 1
    ((view t).run [.fetchAndSet 1 (some 11)]).map Prod.fst =
        .ok [.beforeAfter (.newNormal 1 10) (.newNormal 2 11)] ∧
      ((Machine.run (transact .leftmost false) (t, 1) txs).bind fun p =>
        ((view p.2.1).run [.fetchAndSet 1 (some 11)]).map Prod.fst) =
          .ok [.beforeAfter (.newTombstone 1) (.newNormal 2 11)] := by
  decide

/-! ### Snapshots below the last number -/

/-- What comes into a table with the changes of a view, less what a compaction hides. -/
theorem install_pruned {w : View (Table K V) K V} {m? : Option U64} {q : Table K V × U64}
    (h : w.install P m? = .ok q) {s : U64} (hs : ∀ m ∈ m?, m ≤ s) :
    q.2 = w.intoParts.2.1 ∧ Versions.PrunedTo (Table.Upto s) q.1.Holds
      (Versions.overlay w.intoParts.1.Holds w.intoParts.2.2.Holds) := by
  rcases hparts : w.intoParts with ⟨t, n, changes⟩
  cases m? with
  | none =>
      have hcommit : w.commit = .ok q := h
      rw [View.commit, hparts] at hcommit
      simp only at hcommit
      split_ifs at hcommit with hempty
      · cases hcommit
        have hnone : changes.inner.entries = [] := List.isEmpty_iff.1 hempty
        have hholds := Table.holds_extend t changes t.lastSeq
        rw [hnone] at hholds
        exact ⟨rfl, hholds ▸ .refl _ _⟩
      · cases happly : t.apply changes with
        | error f => rw [happly] at hcommit; cases hcommit
        | ok t' =>
            rw [happly] at hcommit
            cases hcommit
            obtain ⟨-, rfl⟩ := Table.apply_eq_ok.1 happly
            exact ⟨rfl, Table.holds_extend t changes changes.lastSeq ▸ .refl _ _⟩
  | some m =>
      rw [View.install, hparts] at h
      simp only at h
      cases hc : t.compact P changes m with
      | error f => rw [hc] at h; cases h
      | ok t' =>
          rw [hc] at h
          cases h
          exact ⟨rfl, (Table.prunedTo_compact hc).mono fun n hn => le_trans hn (hs m rfl)⟩

/-- **One transaction leaves the part of a snapshot below its number**, less what a compaction up to
the snapshot hides. -/
theorem below_preserved (P : KMerge.Picker Fault (Ent K V)) (inc : Bool) (t₀ : Table K V)
    (s : U64) :
    Machine.Preserves
      (fun q : Table K V × U64 => s < q.2 ∧ Versions.PrunedTo (Table.Upto s)
        (Versions.restrict (Table.Upto s) q.1.Holds) (Versions.restrict (Table.Upto s) t₀.Holds))
      (fun tx => ∀ m ∈ tx.watermark?, m ≤ s) (transact P inc) := by
  rintro ⟨t, n⟩ tx replies q ⟨hs, hpart⟩ hm hstep
  obtain ⟨w, hrun, hq⟩ := transact_eq_ok hstep
  obtain ⟨hst, hparts⟩ := View.ofTable_run hrun
  obtain ⟨hnum, hpruned⟩ := install_pruned hq hm
  rw [hparts] at hnum hpruned
  -- whatever is staged is not below the number the view was opened at
  have hlater : ∀ k m d, w.changes.Holds k m d → ¬Table.Upto s m := by
    intro k m d hheld hup
    rw [hst.holds_changes] at hheld
    obtain ⟨x, hx, rfl, -⟩ := LogHolds.mem hheld
    rw [Table.Upto, SeqMarked.seq_orderKey] at hup
    exact absurd (lt_of_lt_of_le hs (hst.bound _ hx)) (not_lt.2 hup)
  have hrestrict := hpruned.restrict fun _ hup => hup
  rw [Versions.restrict_overlay hlater] at hrestrict
  exact ⟨hnum ▸ lt_of_lt_of_le hs hst.initial_le, hrestrict.trans hpart⟩

/-- **A snapshot below the last number is left alone by every transaction**, whatever it calls.
Transactions run on any table, at a number above the snapshot, and none of them compacts past it.
Point reads, batches of them and range reads at the snapshot are the same on the table they
leave. -/
theorem snapshot_below_isolated {t t' : Table K V} {n n' : U64} {txs : List (Transaction K V)}
    {replies : List (List (Reply V))}
    (hrun : Machine.run (transact P inc) (t, n) txs = .ok (replies, t', n')) {s : U64}
    (hs : s < n) (hws : ∀ m ∈ Transaction.watermarks txs, m ≤ s) :
    (∀ k, t'.get k s = t.get k s) ∧ (∀ ks, (Snapshot.new s t').getMany ks = t.getMany ks s) ∧
      ∀ r, t'.range r s = t.range r s := by
  have htxs : ∀ tx ∈ txs, ∀ m ∈ tx.watermark?, m ≤ s := fun tx htx m hm =>
    hws m (List.mem_filterMap.2 ⟨tx, htx, hm⟩)
  obtain ⟨-, hpruned⟩ := (below_preserved P inc t s).run htxs ⟨hs, .refl _ _⟩ hrun
  have hsees : ∀ k r, Versions.Sees t'.Holds (Table.Upto s) k r ↔
      Versions.Sees t.Holds (Table.Upto s) k r := fun k r => by
    rw [← Versions.sees_restrict, hpruned.sees_iff fun _ hup => hup, Versions.sees_restrict]
  have hget : ∀ k, t'.get k s = t.get k s := fun k =>
    (Table.get_congr fun r hr => (hsees k r).2 hr).symm
  refine ⟨hget, fun ks => congrArg ks.mapM (funext hget), ?_⟩
  exact Table.range_congr fun k m d => hsees k (some (m, d))

/-- A value replaced at the number after the snapshot, and a compaction up to the snapshot. -/
theorem snapshot_below_isolated_sample :
    let txs : List (Transaction ℕ ℕ) := [⟨[.set 1 (some 10), .set 1 (some 11)], none⟩]
    let txs' : List (Transaction ℕ ℕ) :=
      [⟨[.setWithoutSeqIncrement 1 (some 12)], none⟩, ⟨[.set 1 none], some 1⟩]
    ∃ replies t replies' t', Machine.run (transact .leftmost true) (.new, 0) txs =
        .ok (replies, t, 2) ∧
      Machine.run (transact .leftmost true) (t, 2) txs' = .ok (replies', t', 3) ∧
      (∀ k, t'.get k 1 = t.get k 1) ∧ t'.get 1 2 ≠ t.get 1 2 := by
  intro txs txs'
  obtain ⟨replies, t, hrun⟩ : ∃ replies t, Machine.run (transact .leftmost true) (.new, 0) txs =
    .ok (replies, t, 2) := ⟨_, _, rfl⟩
  obtain ⟨replies', t', hrun'⟩ : ∃ replies' t', Machine.run (transact .leftmost true) (t, 2) txs' =
    .ok (replies', t', 3) := by
      cases hrun
      exact ⟨_, _, rfl⟩
  have hws : ∀ m ∈ Transaction.watermarks txs', m ≤ 1 := by
    intro m hm
    have hmem : m ∈ [1] := hm
    exact (List.mem_singleton.1 hmem).le
  refine ⟨replies, t, replies', t', hrun, hrun',
    (snapshot_below_isolated hrun' (by decide) hws).1, ?_⟩
  cases hrun
  cases hrun'
  decide

end Store

/-! ### Numbers -/

namespace Table

variable {K V : Type} [LinearOrder K]

/-- A marker that took a number of its own. -/
def Allocated (inc : Bool) (m : Marker) : Prop := inc = true ∨ m.isTombstone = false

/-- **Every number is given to one write.** -/
def NumberedOnce (inc : Bool) (t : Table K V) : Prop :=
  ∀ ⦃k m d k' m' d'⦄, t.Holds k m d → t.Holds k' m' d' → Allocated inc m → Allocated inc m' →
    m.seq = m'.seq → k = k' ∧ m = m'

/-- **No number is skipped.** -/
def NumberedUpto (inc : Bool) (n : U64) (t : Table K V) : Prop :=
  ∀ a, 1 ≤ a → a ≤ n → ∃ k m d, t.Holds k m d ∧ m.seq = a ∧ Allocated inc m

end Table

namespace View

variable {K V : Type}

/-- A call takes the next number, or stays at the counter and takes none. -/
theorem nextAt_cases {inc : Bool} {n : U64} {c : Call K V} (hc : c.increaseSeq = true)
    {x : SeqMarked V} (hx : nextAt inc n c = some x) :
    (Table.Allocated inc x.orderKey ∧ n < x.seq ∧ ∀ a, a ≤ x.seq → a ≤ n ∨ a = x.seq) ∨
      (¬Table.Allocated inc x.orderKey ∧ x.seq = n) := by
  obtain ⟨n', hn, rfl⟩ := Option.map_eq_some_iff.1 hx
  have hnext : n.succ? = some n' → n < n' ∧ ∀ a, a ≤ n' → a ≤ n ∨ a = n' := by
    intro hsucc
    have hval := U64.val_of_succ? hsucc
    refine ⟨U64.lt_of_succ? hsucc, fun a ha => ?_⟩
    rcases Nat.lt_or_ge a.val n'.val with hlt | hge
    · exact Or.inl (Fin.le_def.2 (by omega))
    · exact Or.inr (le_antisymm ha (Fin.le_def.2 hge))
  rw [SeqMarked.seq_ofData, Table.Allocated, SeqMarked.isTombstone_orderKey]
  cases hv : c.value with
  | some v =>
      rw [hv] at hn
      exact Or.inl ⟨Or.inr rfl, hnext (by simpa [hc] using hn)⟩
  | none =>
      rw [hv] at hn
      cases inc with
      | true => exact Or.inl ⟨Or.inl rfl, hnext (by simpa using hn)⟩
      | false =>
          refine Or.inr ⟨?_, (Option.some_inj.1 (by simpa using hn)).symm⟩
          rintro (hinc | ht) <;> cases ‹_›

end View

namespace Store

variable {K V : Type} [LinearOrder K] {P : KMerge.Picker Fault (Ent K V)} {inc : Bool}

/-- One call takes at most one number, the next. -/
theorem numbered_preserved :
    Machine.Preserves
      (fun q : Table K V × U64 => View.Settled q.1 q.2 ∧ Table.NumberedOnce inc q.1 ∧
        Table.NumberedUpto inc q.2 q.1)
      (fun c => c.increaseSeq = true) (View.autocommitStep inc) := by
  rintro ⟨u, n⟩ c reply q ⟨hu, honce, hupto⟩ hc hstep
  change View.Settled u n at hu
  rcases View.autocommitStep_cases hstep with rfl | ⟨x, hx, rfl⟩
  · exact ⟨hu, honce, hupto⟩
  · have hbound : ∀ k m d, u.Holds k m d → m.seq ≤ n := fun k m d hm =>
      hu.lastSeq ▸ hu.wf.greatest.bound hm
    refine ⟨hu.put hc hx, ?_⟩
    rcases View.nextAt_cases hc hx with ⟨halloc, hlt, hnext⟩ | ⟨hnot, heq⟩
    · -- the new record is the only one with the new number
      have hnew : ∀ k m d, u.Holds k m d → m.seq ≠ x.orderKey.seq := fun k m d hm => by
        rw [SeqMarked.seq_orderKey]
        exact ne_of_lt (lt_of_le_of_lt (hbound k m d hm) hlt)
      constructor
      · intro k m d k' m' d' hm hm' ha ha' hseq
        rcases Table.holds_put.1 hm with ⟨rfl, rfl, -⟩ | ⟨hm, -⟩ <;>
          rcases Table.holds_put.1 hm' with ⟨rfl, rfl, -⟩ | ⟨hm', -⟩
        · exact ⟨rfl, rfl⟩
        · exact absurd hseq.symm (hnew k' m' d' hm')
        · exact absurd hseq (hnew k m d hm)
        · exact honce hm hm' ha ha' hseq
      · intro a hpos ha
        rcases hnext a ha with ha | rfl
        · obtain ⟨k, m, d, hm, rfl, hma⟩ := hupto a hpos ha
          refine ⟨k, m, d, Table.holds_put.2 (Or.inr ⟨hm, fun hplace => ?_⟩), rfl, hma⟩
          exact hnew k m d hm (congrArg SeqMarked.seq hplace.2)
        · exact ⟨c.key, x.orderKey, x.intoData, Table.holds_put.2 (Or.inl ⟨rfl, rfl, rfl⟩),
            SeqMarked.seq_orderKey x, halloc⟩
    · -- the new record takes no number
      have hold : ∀ k m d, (u.put c.key x.orderKey x.intoData).Holds k m d →
          Table.Allocated inc m → u.Holds k m d := by
        intro k m d hm ha
        rcases Table.holds_put.1 hm with ⟨-, rfl, -⟩ | ⟨hm, -⟩
        · exact absurd ha hnot
        · exact hm
      constructor
      · intro k m d k' m' d' hm hm' ha ha' hseq
        exact honce (hold k m d hm ha) (hold k' m' d' hm' ha') ha ha' hseq
      · intro a hpos ha
        obtain ⟨k, m, d, hm, hma, hall⟩ := hupto a hpos (heq ▸ ha)
        refine ⟨k, m, d, Table.holds_put.2 (Or.inr ⟨hm, fun hplace => ?_⟩), hma, hall⟩
        exact hnot (hplace.2 ▸ hall)

/-- The numbers of a run from the empty table, in its twin that nothing is dropped from. -/
theorem numbered_run {txs : List (Transaction K V)} (htxs : ∀ tx ∈ txs, tx.Allocates)
    {replies : List (List (Reply V))} {t : Table K V} {n : U64}
    (hrun : Machine.run (transact P inc) (.new, 0) txs = .ok (replies, t, n)) :
    ∃ u, Table.Twin (Transaction.watermarks txs) t u ∧ View.Settled u n ∧
      Table.NumberedOnce inc u ∧ Table.NumberedUpto inc n u := by
  obtain ⟨u, hrun', htwin, hu⟩ := exists_applied_run View.settled_new htxs hrun
  rw [← Machine.run_map] at hrun'
  have hempty : Table.NumberedUpto inc 0 (Table.new : Table K V) := fun a hpos ha => by
    rw [Fin.le_zero_iff.1 ha] at hpos
    exact absurd hpos (by decide)
  have hpreserved : Machine.Preserves _ _ (View.autocommitStep inc) := numbered_preserved (K := K)
    (V := V)
  obtain ⟨-, honce, hupto⟩ := (applied_preserves (P := P) (fun _ hq => hq.1) hpreserved).run htxs
    ⟨View.settled_new, fun _ _ _ _ _ _ hm => absurd hm (Table.not_holds_new _ _ _), hempty⟩ hrun'
  exact ⟨u, htwin, hu, honce, hupto⟩

/-- **Every number is given to one write, and none is skipped.**  After any transactions from the
empty table, no two records share a number taken by their write, compacted or not, and no number is
above the last one; and where nothing has been compacted, each number up to the last is held. -/
theorem numbers_dense {txs : List (Transaction K V)} (htxs : ∀ tx ∈ txs, tx.Allocates)
    {replies : List (List (Reply V))} {t : Table K V} {n : U64}
    (hrun : Machine.run (transact P inc) (.new, 0) txs = .ok (replies, t, n)) :
    Table.NumberedOnce inc t ∧ (∀ k m d, t.Holds k m d → m.seq ≤ n) ∧
      (Transaction.watermarks txs = [] → Table.NumberedUpto inc n t) := by
  obtain ⟨u, htwin, hu, honce, hupto⟩ := numbered_run htxs hrun
  refine ⟨fun k m d k' m' d' hm hm' => ?_, fun k m d hm => ?_, fun hnone a hpos ha => ?_⟩
  · exact honce (htwin.pruned.sub hm) (htwin.pruned.sub hm')
  · exact hu.lastSeq ▸ hu.wf.greatest.bound (htwin.pruned.sub hm)
  · obtain ⟨k, m, d, hm, hma, hall⟩ := hupto a hpos ha
    rw [hnone] at htwin
    rcases htwin.pruned.kept hm with hm | ⟨m', d', -, -, w, hw, -⟩
    · exact ⟨k, m, d, hm, hma, hall⟩
    · cases hw

/-- Two values and a deletion between them, which stays at the number of the first. -/
theorem numbers_dense_sample :
    let txs : List (Transaction ℕ ℕ) := [⟨[.set 1 (some 10), .set 1 none, .set 2 (some 20)], none⟩]
    ∃ replies t, Machine.run (transact .leftmost false) (.new, 0) txs = .ok (replies, t, 2) ∧
      Table.NumberedOnce false t ∧ Table.NumberedUpto false 2 t := by
  intro txs
  have htxs : ∀ tx ∈ txs, tx.Allocates := by decide
  obtain ⟨replies, t, hrun⟩ : ∃ replies t, Machine.run (transact .leftmost false) (.new, 0) txs =
    .ok (replies, t, 2) := ⟨_, _, rfl⟩
  obtain ⟨honce, -, hupto⟩ := numbers_dense htxs hrun
  exact ⟨replies, t, hrun, honce, hupto rfl⟩

end Store

end MapApi
