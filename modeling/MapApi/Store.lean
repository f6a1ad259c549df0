/-
**A table between transactions.**

A table is kept over many transactions.  Each runs on a view over the table at the last number, and
its changes come into the table in one of two ways: they are applied, which is fast and keeps every
version, or the table is compacted with them, which drops the versions no live snapshot needs.  The
choice is not seen from outside.  The store that compacts is compared, step by step, with the one
that applies: their tables differ by hidden records only, so the next view reads the same from both,
makes the same calls and stages the same changes.

Main definitions:

* `MapApi.Transaction`, `MapApi.View.install` — a transaction, and how its changes come in;
* `MapApi.Store.transact` — the machine whose actions are transactions.

Main results:

* `MapApi.View.Settled.transact_cases` — what one transaction does;
* `MapApi.Store.transact_simulates` — one transaction of the two stores;
* `MapApi.Store.compaction_unobservable` — **whether changes are applied or compacted is not
  observable**.
-/

import MapApi.CompactOrder
import MapApi.CompactRun
import MapApi.MapMachine

set_option relaxedAutoImplicit false
set_option autoImplicit false

namespace MapApi

/-! ### Twins -/

namespace Table.Twin

variable {K V : Type} [LinearOrder K] {ws : List U64} {t u : Table K V}

theorem mono (h : Twin ws t u) {ws' : List U64} (hws : ws ⊆ ws') : Twin ws' t u :=
  ⟨h.lastSeq, h.pruned.mono fun _ hn => hn.mono hws⟩

/-- A twin of a settled table is settled. -/
theorem settled (h : Twin ws t u) {n : U64} (hu : View.Settled u n) : View.Settled t n := by
  refine ⟨⟨fun k m d hm => hu.wf.paired k m d (h.pruned.sub hm), fun {k m d} hm => ?_, ?_⟩,
    h.lastSeq ▸ hu.lastSeq, fun k d hm => hu.no_value k d (h.pruned.sub hm)⟩
  · rw [h.lastSeq]
    exact hu.wf.greatest.bound (h.pruned.sub hm)
  · rw [h.lastSeq]
    refine hu.wf.greatest.attained.imp_right ?_
    rintro ⟨k, m, d, hm, hseq⟩
    rcases h.pruned.kept hm with hm | ⟨m', d', hm', hlt, -⟩
    · exact ⟨k, m, d, hm, hseq⟩
    · -- the record that hides it is no older
      refine ⟨k, m', d', hm', le_antisymm (hu.wf.greatest.bound (h.pruned.sub hm')) ?_⟩
      rw [← hseq]
      exact Marker.seq_le_of_le hlt.le

/-- Above the records of the table it does not matter where they were compacted. -/
theorem narrow (h : Twin ws t u) {n : U64} (hn : ∀ k m d, u.Holds k m d → Upto n m) :
    Twin [n] t u := by
  refine ⟨h.lastSeq, h.pruned.sub, fun {k m d} hm => ?_⟩
  rcases h.pruned.kept hm with hm | ⟨m', d', hm', hlt, -⟩
  · exact Or.inl hm
  · exact Or.inr ⟨m', d', hm', hlt, n, List.mem_singleton_self n, hn k m' d' (h.pruned.sub hm')⟩

/-- **Twins read the same** at and above the counter, and at and above every watermark. -/
theorem reads_settled (h : Twin ws t u) {n : U64} (hu : View.Settled u n) {T : U64}
    (hT : n ≤ T ∨ ∀ w ∈ ws, w ≤ T) :
    (∀ k, t.get k T = u.get k T) ∧ ∀ r, t.range r T = u.range r T := by
  rcases hT with hT | hT
  · have hn : Twin [n] t u := h.narrow fun k m d hm => hu.lastSeq ▸ hu.wf.greatest.bound hm
    refine hn.reads fun w hw => ?_
    rw [List.mem_singleton.1 hw]
    exact hT
  · exact h.reads hT

theorem shown_eq (h : Twin ws t u) {n : U64} (hu : View.Settled u n) : t.shown n = u.shown n := by
  funext k
  rw [shown, shown, (h.reads_settled hu (Or.inl le_rfl)).2]

/-- Writes on top of both. -/
theorem committed (h : Twin ws t u) (log : List (K × SeqMarked V)) :
    Twin ws (View.committed t log) (View.committed u log) := by
  refine ⟨?_, ?_⟩
  · rw [View.committed, View.committed, h.lastSeq]
  · rw [View.holds_committed, View.holds_committed]
    exact h.pruned.overlay _

end Table.Twin

/-! ### Transactions -/

/-- **A transaction**: its calls, and the watermark the table is compacted at with its changes, or
none if they are applied. -/
structure Transaction (K V : Type) where
  calls : List (Call K V)
  watermark? : Option U64

namespace Transaction

variable {K V : Type}

/-- Every value the transaction writes takes a number of its own. -/
def Allocates (tx : Transaction K V) : Prop := ∀ c ∈ tx.calls, c.increaseSeq = true

instance (tx : Transaction K V) : Decidable tx.Allocates :=
  inferInstanceAs (Decidable (∀ c ∈ tx.calls, c.increaseSeq = true))

/-- The same transaction, with its changes applied. -/
def applied (tx : Transaction K V) : Transaction K V := ⟨tx.calls, none⟩

/-- The watermarks of some transactions. -/
def watermarks (txs : List (Transaction K V)) : List U64 := txs.filterMap watermark?

end Transaction

namespace View

variable {K V : Type} [LinearOrder K]

/-- Bring the changes of a view into the table it was opened on, at a watermark if there is one. -/
def install (P : KMerge.Picker Fault (Ent K V)) (w : View (Table K V) K V) :
    Option U64 → Except Fault (Table K V × U64)
  | none => w.commit
  | some minSnapshotSeq => do
      let (t, n, changes) := w.intoParts
      let t ← t.compact P changes minSnapshotSeq
      return (t, n)

/-- **What one transaction does on a settled table**: it overflows with the machine of the map, or
returns its replies, and its log leads to the table of the machine that commits every call, which
is settled and shows the map. -/
theorem Settled.transact_cases {t : Table K V} {n : U64} (h : Settled t n) (inc : Bool)
    {calls : List (Call K V)} (hcalls : ∀ c ∈ calls, c.increaseSeq = true) :
    ((ofTable n t inc).run calls = .error .overflow ∧
      Machine.run (MapState.call inc) ⟨t.shown n, n⟩ calls = .error .overflow) ∨
    ∃ replies w, (ofTable n t inc).run calls = .ok (replies, w) ∧
      Machine.run (MapState.call inc) ⟨t.shown n, n⟩ calls =
        .ok (replies, ⟨(committed t (stagedLog calls replies)).shown w.lastSeq, w.lastSeq⟩) ∧
      Simulates t inc (stagedLog calls replies) w ∧
      Settled (committed t (stagedLog calls replies)) w.lastSeq ∧
      Machine.run (autocommitStep inc) (t, n) calls =
        .ok (replies, committed t (stagedLog calls replies), w.lastSeq) := by
  obtain rfl := h.lastSeq
  have hnil : committed t [] = t := rfl
  have hagree := (autocommit_simulates inc).run hcalls
    (s := (t, t.lastSeq.seq)) (t := ⟨t.shown t.lastSeq.seq, t.lastSeq.seq⟩) ⟨h, rfl⟩
  rw [← autocommit_eq_machine] at hagree
  have hsim := (Simulates.start h inc).run hcalls
  rw [hnil, ofTable_lastSeq] at hsim
  rcases hsim with ⟨f, hrun, hauto⟩ | ⟨replies, w, log, hrun, hlog, hauto⟩
  · have hspec := (hagree.error_iff f).1 hauto
    obtain rfl := (MapState.run_error hspec).1
    exact Or.inl ⟨hrun, hspec⟩
  · obtain ⟨hst, hsnap, hset⟩ := staged_run (ofTable_changes _ t inc) hrun
    have hstaged : Simulates t inc (stagedLog calls replies) w :=
      ⟨h, hst, dominates_run (ofTable_changes _ t inc) hcalls hrun, hsnap, hset⟩
    -- both logs commit to the table the view commits to
    have heq : committed t log = committed t (stagedLog calls replies) :=
      congrArg Prod.fst (Except.ok.inj (hlog.commit_eq.symm.trans hstaged.commit_eq))
    rw [heq] at hauto
    obtain ⟨s, hs, hsettled, rfl⟩ := hagree.of_ok hauto
    exact Or.inr ⟨replies, w, hrun, hs, hstaged, hsettled,
      (autocommit_eq_machine inc calls (t, t.lastSeq.seq)).symm.trans hauto⟩

namespace Simulates

variable {t : Table K V} {inc : Bool} {log : List (K × SeqMarked V)} {w : View (Table K V) K V}

theorem intoParts_eq (h : Simulates t inc log w) : w.intoParts = (t, w.lastSeq, w.changes) := by
  rw [intoParts, h.snapshot]
  rfl

/-- The table extended by the changes is the table the log leads to. -/
theorem extend_eq_committed (h : Simulates t inc log w) :
    (⟨t.inner.extend w.changes.inner.entries, max t.lastSeq w.changes.lastSeq⟩ : Table K V) =
      committed t log := by
  have hlast : max t.lastSeq w.changes.lastSeq =
      (log.getLast?.map fun e => e.2.orderKey).getD t.lastSeq := by
    have hmark := h.staged.lastMarker
    by_cases hlog : log = []
    · subst hlog
      have hzero : w.changes.lastSeq = Marker.zero := hmark
      rw [hzero]
      exact max_eq_left (Marker.zero_le _)
    · have hle := (le_lastSeq_iff h.staged).2 (commitsOnto_of_dominates h.dominates hlog)
      rw [max_eq_right hle, hmark]
      cases log using List.reverseRecOn with
      | nil => exact absurd rfl hlog
      | append_singleton log e => simp
  rw [hlast, committed, h.staged.inner, BTreeMap.extend_fromIter]

theorem install_some (h : Simulates t inc log w) (P : KMerge.Picker Fault (Ent K V)) (m : U64) :
    w.install P (some m) = (t.compact P w.changes m).map fun t => (t, w.lastSeq) := by
  rw [install, h.intoParts_eq]
  cases hc : t.compact P w.changes m <;> simp only [hc] <;> rfl

/-- Changes whose deletions take numbers of their own share no place with the table. -/
theorem noCollision (h : Simulates t inc log w) (hinc : inc = true) :
    Table.NoCollision t w.changes := by
  rintro k m ⟨⟨d, hd⟩, d', hd'⟩
  rw [h.staged.holds_changes] at hd'
  obtain ⟨x, hx, rfl, -⟩ := LogHolds.mem hd'
  have hle := h.base.wf.greatest.bound hd
  rw [SeqMarked.seq_orderKey] at hle
  exact absurd (h.dominates.strict hinc _ hx) (not_lt.2 hle)

end Simulates

end View

/-! ### The store -/

namespace Store

variable {K V : Type} [LinearOrder K]

/-- **One transaction** on a table at its last number: the replies, and the table and number after
it. -/
def transact (P : KMerge.Picker Fault (Ent K V)) (inc : Bool) :
    Machine Fault (Table K V × U64) (Transaction K V) (List (Reply V))
  | (t, n), tx => do
      let (replies, w) ← (View.ofTable n t inc).run tx.calls
      let p ← w.install P tx.watermark?
      return (replies, p)

variable {P : KMerge.Picker Fault (Ent K V)} {inc : Bool}

theorem transact_of_run {p q : Table K V × U64} (tx : Transaction K V) {replies : List (Reply V)}
    {w : View (Table K V) K V} (hrun : (View.ofTable p.2 p.1 inc).run tx.calls = .ok (replies, w))
    (hq : w.install P tx.watermark? = .ok q) : transact P inc p tx = .ok (replies, q) := by
  rw [transact, hrun, ok_bind]
  simp only [hq, ok_bind]
  rfl

theorem transact_of_error {p : Table K V × U64} (tx : Transaction K V) {f : Fault}
    (hrun : (View.ofTable p.2 p.1 inc).run tx.calls = .error f) :
    transact P inc p tx = .error f := by
  rw [transact, hrun, error_bind]

/-- A transaction that succeeds: its calls do, and its changes come in. -/
theorem transact_eq_ok {p q : Table K V × U64} {tx : Transaction K V} {replies : List (Reply V)}
    (h : transact P inc p tx = .ok (replies, q)) :
    ∃ w, (View.ofTable p.2 p.1 inc).run tx.calls = .ok (replies, w) ∧
      w.install P tx.watermark? = .ok q := by
  rw [transact] at h
  cases hrun : (View.ofTable p.2 p.1 inc).run tx.calls with
  | error f => rw [hrun] at h; cases h
  | ok r =>
      obtain ⟨replies', w⟩ := r
      rw [hrun, ok_bind] at h
      cases hq : w.install P tx.watermark? with
      | error f => simp only [hq] at h; cases h
      | ok q' =>
          simp only [hq] at h
          cases h
          exact ⟨w, rfl, hq⟩

/-- **The store against the one that applies all changes**: the same number, and tables that are
twins. -/
structure Compacted (ws : List U64) (p q : Table K V × U64) : Prop where
  number : p.2 = q.2
  twin : Table.Twin ws p.1 q.1
  settled : View.Settled q.1 q.2

/-- **One transaction of the two stores.**  They agree, unless a deletion that takes no number of
its own trips the assertion of the compaction. -/
theorem transact_simulates (P : KMerge.Picker Fault (Ent K V)) (inc : Bool) (ws : List U64) :
    Machine.SimulatesUnless (fun f => inc = false ∧ f = .coalesceOrder) (Compacted ws)
      (fun tx => tx.Allocates ∧ ∀ m ∈ tx.watermark?, m ∈ ws) (transact P inc)
      (fun q (tx : Transaction K V) => transact P inc q tx.applied) := by
  rintro ⟨t, n⟩ ⟨u, n'⟩ tx ⟨hnum, h, hu⟩ ⟨hcalls, hws⟩
  obtain rfl : n = n' := hnum
  change Table.Twin ws t u at h
  change View.Settled u n at hu
  change Machine.AgreeUnless _ _ (transact P inc (t, n) tx) (transact P inc (u, n) tx.applied)
  have ht := h.settled hu
  have hspec := ht.transact_cases inc hcalls
  rw [h.shown_eq hu] at hspec
  rcases hspec with ⟨hrun, hmap⟩ | ⟨replies, w, hrun, hmap, hw, -⟩ <;>
    rcases hu.transact_cases inc hcalls with
      ⟨hrun', hmap'⟩ | ⟨replies', w', hrun', hmap', hw', hsettled', -⟩
  · rw [transact_of_error tx hrun, transact_of_error tx.applied hrun']
    exact Or.inr (.error _)
  · cases hmap.symm.trans hmap'
  · cases hmap.symm.trans hmap'
  · have hsame := Except.ok.inj (hmap.symm.trans hmap')
    obtain rfl : replies = replies' := congrArg Prod.fst hsame
    have hnum : w.lastSeq = w'.lastSeq := congrArg (fun p => p.2.counter) hsame
    -- the same replies report the same log, so the changes are the same as well
    have hchanges : w.changes = w'.changes := by
      have hinner := hw.staged.inner.trans hw'.staged.inner.symm
      have hlast := hw.staged.lastMarker.trans hw'.staged.lastMarker.symm
      cases hc : w.changes
      cases hc' : w'.changes
      rw [hc, hc'] at hinner hlast
      exact congrArg₂ Table.mk hinner hlast
    rw [transact_of_run tx.applied hrun' hw'.commit_eq]
    cases hm : tx.watermark? with
    | none =>
        rw [transact_of_run tx hrun ((congrArg (w.install P) hm).trans hw.commit_eq)]
        exact Or.inr (.ok replies ⟨hnum, h.committed _, hsettled'⟩)
    | some m =>
        have hinstall := (congrArg (w.install P) hm).trans (hw.install_some P m)
        by_cases hhidden : Table.CollisionsHidden t w.changes m
        · obtain ⟨t', ht', -, -⟩ := Table.compact_spec P hhidden
          rw [ht'] at hinstall
          rw [transact_of_run tx hrun hinstall]
          refine Or.inr (.ok replies ⟨hnum, ?_, hsettled'⟩)
          have htwin := h.compact ht'
          rw [hchanges, hw'.extend_eq_committed] at htwin
          refine htwin.mono fun a ha => ?_
          rcases List.mem_append.1 ha with ha | ha
          · exact ha
          · rw [List.mem_singleton.1 ha]
            exact hws m hm
        · -- only deletions at the last number of the table collide with it
          refine Or.inl ⟨.coalesceOrder, ⟨?_, rfl⟩, ?_⟩
          · cases inc
            · rfl
            · exact absurd (fun k n hc => absurd hc (hw.noCollision rfl k n)) hhidden
          · rw [Table.compact_error P hhidden] at hinstall
            rw [transact, hrun, ok_bind]
            simp only [hinstall]
            rfl

/-- **One transaction whose changes are applied** makes its calls on the machine of the map. -/
theorem applied_simulates (P : KMerge.Picker Fault (Ent K V)) (inc : Bool) :
    Machine.Simulates
      (fun (q : Table K V × U64) s => View.Settled q.1 q.2 ∧ s = ⟨q.1.shown q.2, q.2⟩)
      Transaction.Allocates (fun q (tx : Transaction K V) => transact P inc q tx.applied)
      (fun s tx => Machine.run (MapState.call inc) s tx.calls) := by
  rintro ⟨u, n⟩ _ tx ⟨hu, rfl⟩ hcalls
  change View.Settled u n at hu
  change Machine.Agree _ (transact P inc (u, n) tx.applied)
    (Machine.run (MapState.call inc) ⟨u.shown n, n⟩ tx.calls)
  rcases hu.transact_cases inc hcalls with ⟨hrun, hmap⟩ |
      ⟨replies, w, hrun, hmap, hw, hsettled, -⟩
  · rw [transact_of_error tx.applied hrun, hmap]
    exact .error _
  · rw [transact_of_run tx.applied hrun hw.commit_eq, hmap]
    exact .ok replies ⟨hsettled, rfl⟩

/-- **An invariant of single calls is one of transactions** whose changes are applied. -/
theorem applied_preserves {I : Table K V × U64 → Prop} (hI : ∀ q, I q → View.Settled q.1 q.2)
    (h : Machine.Preserves I (fun c => c.increaseSeq = true) (View.autocommitStep inc)) :
    Machine.Preserves I Transaction.Allocates
      (fun q (tx : Transaction K V) => transact P inc q tx.applied) := by
  rintro ⟨u, n⟩ tx replies q hq hcalls hstep
  have hu : View.Settled u n := hI _ hq
  change transact P inc (u, n) tx.applied = _ at hstep
  rcases hu.transact_cases inc hcalls with ⟨hrun, -⟩ | ⟨replies', w, hrun, -, hw, -, hauto⟩
  · cases (transact_of_error tx.applied hrun).symm.trans hstep
  · cases (transact_of_run tx.applied hrun hw.commit_eq).symm.trans hstep
    exact h.run hcalls hq hauto

/-- A run whose changes are applied only fails past the last number. -/
theorem applied_error {t : Table K V} {n : U64} (h : View.Settled t n)
    {txs : List (Transaction K V)} (htxs : ∀ tx ∈ txs, tx.Allocates) {f : Fault}
    (hrun : Machine.run (transact P inc) (t, n) (txs.map Transaction.applied) = .error f) :
    f = .overflow := by
  rw [← Machine.run_map] at hrun
  have hspec := (((applied_simulates P inc).run htxs ⟨h, rfl⟩).error_iff f).1 hrun
  have hfails : ∀ (s : MapState K V) (tx : Transaction K V) e,
      Machine.run (MapState.call inc) s tx.calls = .error e → e = .overflow :=
    fun _ _ _ he => (MapState.run_error he).1
  exact Machine.run_error hfails txs hspec

/-- **A run of the two stores.** -/
theorem compacted_run (P : KMerge.Picker Fault (Ent K V)) (inc : Bool) {t : Table K V} {n : U64}
    (h : View.Settled t n) {txs : List (Transaction K V)} (htxs : ∀ tx ∈ txs, tx.Allocates) :
    Machine.AgreeUnless (fun f => inc = false ∧ f = .coalesceOrder)
      (Compacted (Transaction.watermarks txs)) (Machine.run (transact P inc) (t, n) txs)
      (Machine.run (transact P inc) (t, n) (txs.map Transaction.applied)) := by
  have hall : ∀ tx ∈ txs, tx.Allocates ∧ ∀ m ∈ tx.watermark?, m ∈ Transaction.watermarks txs :=
    fun tx htx => ⟨htxs tx htx, fun m hm => List.mem_filterMap.2 ⟨tx, htx, hm⟩⟩
  rw [← Machine.run_map (transact P inc) Transaction.applied]
  exact (transact_simulates P inc (Transaction.watermarks txs)).run hall ⟨rfl, .refl _ t, h⟩

/-- The run of the store that applies, behind a run that succeeds. -/
theorem exists_applied_run {t t' : Table K V} {n n' : U64} (h : View.Settled t n)
    {txs : List (Transaction K V)} (htxs : ∀ tx ∈ txs, tx.Allocates)
    {replies : List (List (Reply V))}
    (hrun : Machine.run (transact P inc) (t, n) txs = .ok (replies, t', n')) :
    ∃ u', Machine.run (transact P inc) (t, n) (txs.map Transaction.applied) =
        .ok (replies, u', n') ∧
      Table.Twin (Transaction.watermarks txs) t' u' ∧ View.Settled u' n' := by
  rcases compacted_run P inc h htxs with ⟨f, -, hfail⟩ | hagree
  · cases hrun.symm.trans hfail
  · obtain ⟨⟨u', n''⟩, hrun', hnum, htwin, hsettled⟩ := hagree.of_ok hrun
    obtain rfl : n' = n'' := hnum
    exact ⟨u', hrun', htwin, hsettled⟩

/-- A run of transactions on a settled table leaves a settled table. -/
theorem settled_run {t t' : Table K V} {n n' : U64} (h : View.Settled t n)
    {txs : List (Transaction K V)} (htxs : ∀ tx ∈ txs, tx.Allocates)
    {replies : List (List (Reply V))}
    (hrun : Machine.run (transact P inc) (t, n) txs = .ok (replies, t', n')) :
    View.Settled t' n' := by
  obtain ⟨u', -, htwin, hu⟩ := exists_applied_run h htxs hrun
  exact htwin.settled hu

/-- **Whether changes are applied or compacted is not observable.**  Some transactions run on a
settled table, each applied or compacted at a watermark.  If all are applied instead, they run past
the last number alike, or return the same replies and end at the same number; and the two tables
read the same at and above that number, and at and above every watermark.  The one exception: where
deletions take no numbers of their own, a compaction may trip its assertion. -/
theorem compaction_unobservable (P : KMerge.Picker Fault (Ent K V)) (inc : Bool) {t : Table K V}
    {n : U64} (h : View.Settled t n) {txs : List (Transaction K V)}
    (htxs : ∀ tx ∈ txs, tx.Allocates) :
    (inc = false ∧ Machine.run (transact P inc) (t, n) txs = .error .coalesceOrder) ∨
    (Machine.run (transact P inc) (t, n) txs = .error .overflow ∧
      Machine.run (transact P inc) (t, n) (txs.map Transaction.applied) = .error .overflow) ∨
    ∃ replies t' u' n', Machine.run (transact P inc) (t, n) txs = .ok (replies, t', n') ∧
      Machine.run (transact P inc) (t, n) (txs.map Transaction.applied) = .ok (replies, u', n') ∧
      ∀ T, (n' ≤ T ∨ ∀ m ∈ Transaction.watermarks txs, m ≤ T) →
        (∀ k, t'.get k T = u'.get k T) ∧ ∀ r, t'.range r T = u'.range r T := by
  rcases compacted_run P inc h htxs with ⟨f, ⟨hinc, rfl⟩, hrun⟩ | hagree
  · exact Or.inl ⟨hinc, hrun⟩
  · refine Or.inr ?_
    cases hrun : Machine.run (transact P inc) (t, n) txs with
    | error f =>
        have hrun' := (hagree.error_iff f).1 hrun
        obtain rfl := applied_error h htxs hrun'
        exact Or.inl ⟨rfl, hrun'⟩
    | ok p =>
        obtain ⟨u', hrun', htwin, hsettled⟩ := exists_applied_run h htxs hrun
        exact Or.inr ⟨p.1, p.2.1, u', p.2.2, rfl, hrun', fun T => htwin.reads_settled hsettled⟩

/-- A key written in three transactions, the last two of them compacted. -/
theorem compaction_unobservable_sample :
    let txs : List (Transaction ℕ ℕ) := [⟨[.set 1 (some 10), .set 2 (some 20)], none⟩,
      ⟨[.fetchAndSet 1 (some 11)], some 2⟩, ⟨[.fetchAndSet 2 none, .fetchAndSet 1 none], some 4⟩]
    ∃ replies t u n, Machine.run (transact .leftmost true) (.new, 0) txs = .ok (replies, t, n) ∧
      Machine.run (transact .leftmost true) (.new, 0) (txs.map Transaction.applied) =
        .ok (replies, u, n) ∧ t ≠ u ∧ ∀ T, 4 ≤ T → ∀ k, t.get k T = u.get k T := by
  intro txs
  have htxs : ∀ tx ∈ txs, tx.Allocates := by decide
  rcases compaction_unobservable .leftmost true View.settled_new htxs with
    ⟨hinc, -⟩ | ⟨hover, -⟩ | ⟨replies, t, u, n, hrun, hrun', hreads⟩
  · cases hinc
  · obtain ⟨p, hp⟩ : ∃ p, Machine.run (transact .leftmost true) (.new, 0) txs = .ok p := ⟨_, rfl⟩
    cases hp.symm.trans hover
  · refine ⟨replies, t, u, n, hrun, hrun', ?_, fun T hT => (hreads T (Or.inr ?_)).1⟩
    · cases hrun
      cases hrun'
      decide
    · intro m hm
      have hmem : m ∈ [2, 4] := hm
      rcases List.mem_pair.1 hmem with rfl | rfl
      · exact le_trans (by decide) hT
      · exact hT

end Store

end MapApi
