/-
**The map a view implements.**

What a view does is best said without tables and snapshots.  The state is a map with one record per
key and a counter; a write stores its value at the next number, a deletion stores a tombstone at the
next number or at the current one, depending on a setting, and a call that reads first returns the
record before, and stores nothing when it deletes a key without record.

A view over any reader that answers as a map implements this machine from the reader's map on, and
so does a store that takes each transaction's changes.  Since both implement one machine, whatever
is exported from a view and imported into a table goes on as the view would have.

Main definitions:

* `MapApi.MapState`, `MapApi.MapState.call` — the machine;
* `MapApi.Shown.Below` — the maps a counter can start over;
* `MapApi.View.Implements` — the simulation.

Main results:

* `MapApi.View.Implements.readsAs` — **the reads of a view answer as the machine's map**;
* `MapApi.View.refines_map` — **a view over any reader refines the machine**;
* `MapApi.View.commitAll_refines_map` — **so do transactions, however they are cut**;
* `MapApi.View.commitAll_error` — which fail only at the last sequence number;
* `MapApi.View.checkpoint_restores` — **an exported view goes on as it would have**.
-/

import MapApi.Discipline
import MapApi.Machine
import MapApi.Reader
import MapApi.Transactions
import MapApi.ViewRead

set_option relaxedAutoImplicit false
set_option autoImplicit false

namespace MapApi

/-! ### The machine -/

/-- **A map and a counter.** -/
structure MapState (K V : Type) where
  records : Shown K V
  counter : U64

namespace MapState

variable {K V : Type} [LinearOrder K]

/-- Store a record, and count up to it. -/
def store (s : MapState K V) (key : K) (x : SeqMarked V) : MapState K V :=
  ⟨Function.update s.records key (some x), x.seq⟩

/-- The record of a key. -/
def read (s : MapState K V) (key : K) : SeqMarked V := (s.records key).getD .newNotFound

/-- **One call**: it reads, allocates a number if it writes, and stores. -/
def call (inc : Bool) (s : MapState K V) (c : Call K V) :
    Except Fault (Reply V × MapState K V) :=
  let old := s.read c.key
  if c.fetches ∧ old.isNotFound ∧ c.value.isNone then .ok (.beforeAfter old (.newTombstone 0), s)
  else
    match View.nextAt inc s.counter c with
    | none => .error .overflow
    | some x =>
        .ok (if c.fetches then .beforeAfter old x else .marker x.orderKey, s.store c.key x)

/-- What the machine does, by the outcome of the call. -/
theorem call_eq (inc : Bool) (s : MapState K V) (c : Call K V) :
    s.call inc c =
      match c.outcome (.ok (s.read c.key)) (View.nextAt inc s.counter c) with
      | .error f => .error f
      | .ok (reply, none) => .ok (reply, s)
      | .ok (reply, some x) => .ok (reply, s.store c.key x) := by
  unfold call Call.outcome
  by_cases hf : c.fetches = true
  · simp only [hf, true_and, if_true]
    split_ifs
    · rfl
    · cases View.nextAt inc s.counter c <;> rfl
  · simp only [hf, false_and, if_false, Bool.false_eq_true]
    cases View.nextAt inc s.counter c <;> rfl

/-- A call fails only with the counter at the last sequence number. -/
theorem call_error {inc : Bool} {s : MapState K V} {c : Call K V} {f : Fault}
    (h : s.call inc c = .error f) : f = .overflow ∧ s.counter = U64.max := by
  rw [call_eq] at h
  cases ho : c.outcome (.ok (s.read c.key)) (View.nextAt inc s.counter c) with
  | error e =>
      rw [ho] at h
      cases h
      obtain ⟨hover, hnext⟩ := (Call.outcome_eq_error ho).resolve_left nofun
      exact ⟨hover, View.eq_max_of_nextAt hnext⟩
  | ok p =>
      obtain ⟨reply, sx⟩ := p
      rw [ho] at h
      cases sx <;> cases h

/-- **Where a run of the machine fails**: the calls before succeed and count to the last sequence
number. -/
theorem run_error {inc : Bool} {s : MapState K V} {calls : List (Call K V)} {f : Fault}
    (h : Machine.run (call inc) s calls = .error f) :
    f = .overflow ∧ ∃ before c after replies s', calls = before ++ c :: after ∧
      Machine.run (call inc) s before = .ok (replies, s') ∧ s'.counter = U64.max := by
  obtain ⟨before, c, after, replies, s', rfl, hbefore, hstep⟩ := Machine.run_eq_error.1 h
  obtain ⟨hover, hmax⟩ := call_error hstep
  exact ⟨hover, before, c, after, replies, s', rfl, hbefore, hmax⟩

end MapState

namespace Shown

variable {K V : Type} [LinearOrder K]

/-- **The records a counter can start over**: none above it, and no value at `0` if it starts
there. -/
structure Below (m : Shown K V) (n : U64) : Prop where
  seq_le : ∀ k x, m k = some x → x.seq ≤ n
  zero : n = 0 → ∀ k x, m k = some x → x.isTombstone = true

/-- Writes on top of a map. -/
def overlay (m : Shown K V) (log : List (K × SeqMarked V)) : Shown K V := fun k =>
  (lastStaged log k).or (m k)

@[simp] theorem overlay_nil (m : Shown K V) : m.overlay [] = m := rfl

theorem overlay_concat (m : Shown K V) (log : List (K × SeqMarked V)) (k : K) (x : SeqMarked V) :
    m.overlay (log ++ [(k, x)]) = Function.update (m.overlay log) k (some x) := by
  funext k'
  rw [overlay, lastStaged_concat, Function.update_apply]
  by_cases h : k = k'
  · subst h
    simp
  · rw [if_neg h, if_neg (Ne.symm h), overlay]

theorem overlay_eq_first (m : Shown K V) (log : List (K × SeqMarked V)) :
    m.overlay log = first [fun k => lastStaged log k, m] := by
  funext k
  rw [first_cons, first_cons, first_nil, Option.or_none, overlay]

end Shown

/-! ### Views -/

namespace View

/-- What a write stages carries its value. -/
theorem eq_ofData_of_nextAt {K V : Type} {inc : Bool} {n : U64} {c : Call K V} {x : SeqMarked V}
    (h : nextAt inc n c = some x) : x = .ofData x.seq c.value := by
  obtain ⟨n', -, rfl⟩ := Option.map_eq_some_iff.1 h
  rw [SeqMarked.seq_ofData]

/-- A write that allocates for values is at or above the tombstone of the counter. -/
theorem newTombstone_le_of_nextAt {K V : Type} {inc : Bool} {n : U64} {c : Call K V}
    (hc : c.increaseSeq = true) {x : SeqMarked V} (h : nextAt inc n c = some x) :
    .newTombstone n ≤ x.orderKey := by
  obtain ⟨hle, hvalue⟩ := seq_of_nextAt hc h
  cases ht : x.isTombstone with
  | false =>
      refine (Marker.newTombstone_lt_iff.2 ?_).le
      rw [SeqMarked.seq_orderKey]
      exact hvalue ht
  | true =>
      refine Marker.le_iff.2 ((lt_or_eq_of_le hle).imp (fun hlt => ?_) fun heq => ⟨?_, fun _ => ?_⟩)
      · rw [SeqMarked.seq_orderKey]
        exact hlt
      · rw [SeqMarked.seq_orderKey]
        exact heq
      · rw [SeqMarked.isTombstone_orderKey, ht]

variable {D K V : Type} [LinearOrder K] [GetAtSeq D K V]

theorem Ready.step_eq {w : View D K V} (h : w.Ready) (c : Call K V) :
    w.step c =
      match c.outcome (w.get c.key) (w.nextValue? c.increaseSeq c.value) with
      | .error f => .error f
      | .ok (reply, none) => .ok (reply, w)
      | .ok (reply, some x) => .ok (reply, w.stage c.key x) := by
  rw [step, h.call_eq]
  rcases c.outcome (w.get c.key) (w.nextValue? c.increaseSeq c.value) with f | ⟨reply, _ | x⟩
  · rfl
  · rfl
  · rfl

variable [RangeAtSeq D K V]

/-- **A view against the machine**: its snapshot shows a map the counter could start over, and what
it has staged lies on top of that map. -/
structure Implements (m : Shown K V) (n : U64) (inc : Bool) (log : List (K × SeqMarked V))
    (w : View D K V) (s : MapState K V) : Prop where
  shows : w.snapshot.Shows m
  below : m.Below n
  staged : Staged n log w
  dominates : Dominates n inc log
  setting : w.increaseSeqForTombstone = inc
  counter : s.counter = w.lastSeq
  records : s.records = m.overlay log

namespace Implements

variable {m : Shown K V} {n : U64} {inc : Bool} {log : List (K × SeqMarked V)}
  {w : View D K V} {s : MapState K V}

/-- What the changes show is the last staged writes. -/
theorem changes_shown (h : Implements m n inc log w s) (k : K) :
    w.changes.shown w.lastSeq k = lastStaged log k := by
  have hsees := h.staged.sees_changes h.dominates k
  cases hlast : lastStaged log k with
  | none =>
      rw [hlast] at hsees
      exact h.staged.paired.shown_eq_none.2 hsees
  | some x =>
      rw [hlast] at hsees
      exact h.staged.paired.shown_eq_some.2 hsees

/-- A staged record is above the reader's, or both are the same tombstone. -/
theorem newer (h : Implements m n inc log w s) :
    Shown.Newer (fun k => lastStaged log k) m := by
  intro k x y hx hy
  have habove := h.dominates.above (k, x) (lastStaged_mem hx)
  have hy' : y.orderKey ≤ SeqMarked.newTombstone n := by
    rw [Marker.le_newTombstone_iff, SeqMarked.seq_orderKey]
    exact h.below.seq_le k y hy
  rcases lt_or_eq_of_le (le_trans hy' habove) with hlt | heq
  · exact Or.inl hlt
  · refine Or.inr ⟨heq, ?_⟩
    rw [← SeqMarked.isTombstone_orderKey, le_antisymm (heq ▸ hy') habove]
    rfl

/-- A point read answers the machine's record. -/
theorem get_eq (h : Implements m n inc log w s) (k : K) : w.get k = .ok (s.read k) := by
  have hsees := h.staged.sees_changes h.dominates k
  rw [MapState.read, h.records, Shown.overlay]
  cases hlast : lastStaged log k with
  | none =>
      rw [hlast] at hsees
      rw [get_of_not_staged hsees, Option.none_or]
      exact h.shows.get_eq k
  | some x =>
      rw [hlast] at hsees
      cases hnf : x.isNotFound with
      | false => exact get_of_isLatest h.staged.paired hsees hnf
      | true =>
          -- the tombstone of `0` is staged over a reader that shows nothing but such tombstones
          obtain rfl := SeqMarked.isNotFound_iff.1 hnf
          rw [get_of_isLatest_notFound h.staged.paired hsees hnf]
          refine (h.shows.get_eq k).trans (congrArg Except.ok ?_)
          have hzero : n = 0 := Fin.le_zero_iff.1 (h.staged.bound _ (lastStaged_mem hlast))
          cases hm : m k with
          | none => rfl
          | some y =>
              have hseq : y.seq = 0 := Fin.le_zero_iff.1 (hzero ▸ h.below.seq_le k y hm)
              have hnot : y.isNotFound = true := by
                simp [SeqMarked.isNotFound, h.below.zero hzero k y hm, hseq]
              exact SeqMarked.isNotFound_iff.1 hnot

/-- **The reads of a view answer as the machine's map.** -/
theorem readsAs (h : Implements m n inc log w s) (P : KMerge.Picker Fault (KVResult K V)) :
    ReadsAs (fun k => w.get k) (fun r => w.range P r) s.records := by
  refine ⟨h.get_eq, fun r hr => ?_⟩
  obtain ⟨base, hbase, hlist⟩ := h.shows.range_eq r hr
  obtain ⟨updates, hupdates, hlist'⟩ := h.staged.paired.lists hr w.lastSeq
  rw [funext h.changes_shown] at hlist'
  have hlists : ListsEach r [fun k => lastStaged log k, m] [updates, base] :=
    .cons hlist' (.cons hlist .nil)
  have hnew : [fun k => lastStaged log k, m].Pairwise Shown.Newer := List.pairwise_pair.2 h.newer
  obtain ⟨out, hout, hfirst⟩ := mergeStreams_first P hlists hnew
  refine ⟨out, ?_, by rw [h.records, Shown.overlay_eq_first]; exact hfirst⟩
  -- the view merges the two streams in the other order
  have hswap := mergeStreams_perm (List.Perm.swap updates base []) hlists.ascending
    (hlists.compatible hnew) P P
  change (w.snapshot.range r >>= _) = _
  rw [hbase, ok_bind, hupdates, ok_bind]
  exact hswap.trans hout

theorem nextValue?_eq (h : Implements m n inc log w s) (c : Call K V) :
    w.nextValue? c.increaseSeq c.value = nextAt inc s.counter c := by
  rw [nextValue?, nextAt, h.setting, h.counter]

/-- The simulation holds after a staged write. -/
theorem stage (h : Implements m n inc log w s) {c : Call K V} (hc : c.increaseSeq = true)
    {x : SeqMarked V} (hx : nextAt inc s.counter c = some x) :
    Implements m n inc (log ++ [(c.key, x)]) (w.stage c.key x) (s.store c.key x) := by
  rw [← h.nextValue?_eq, hc] at hx
  refine ⟨h.shows, h.below, h.staged.stage c.key (le_of_nextValue? hx), ?_, h.setting, rfl, ?_⟩
  · have hdom := h.dominates
    rw [← h.setting] at hdom ⊢
    exact hdom.stage h.staged c.key hx
  · rw [MapState.store, h.records, Shown.overlay_concat]

/-- The counter could start over the machine's map as well. -/
theorem below_records (h : Implements m n inc log w s) : s.records.Below s.counter := by
  rw [h.records, h.counter]
  have hle := h.staged.initial_le
  constructor
  · intro k x hx
    rcases Option.or_eq_some_iff.1 hx with hx | ⟨-, hx⟩
    · exact h.staged.le_counter _ (lastStaged_mem hx)
    · exact (h.below.seq_le k x hx).trans hle
  · intro hzero k x hx
    have hn : n = 0 := Fin.le_zero_iff.1 (hzero ▸ hle)
    rcases Option.or_eq_some_iff.1 hx with hx | ⟨-, hx⟩
    · -- a staged record at `0` is at or above the tombstone there
      have hseq : x.seq = 0 :=
        Fin.le_zero_iff.1 (hzero ▸ h.staged.le_counter _ (lastStaged_mem hx))
      rcases Marker.le_iff.1 (h.dominates.above _ (lastStaged_mem hx)) with hlt | ⟨-, ht⟩
      · rw [SeqMarked.seq_orderKey, hseq, SeqMarked.seq_newTombstone, hn] at hlt
        exact absurd hlt (lt_irrefl _)
      · rw [← SeqMarked.isTombstone_orderKey]
        exact ht rfl
    · exact h.below.zero hn k x hx

end Implements

/-- A view before its first call implements the machine on its reader's map. -/
theorem implements_fresh {snapshot : Snapshot D} {m : Shown K V} (hshow : snapshot.Shows m)
    {n : U64} (hm : m.Below n) (inc : Bool) :
    Implements m n inc [] (fresh snapshot inc n : View D K V) ⟨m, n⟩ :=
  ⟨hshow, hm, staged_nil (fresh_changes snapshot inc n), dominates_nil _ _, rfl, rfl, rfl⟩

/-- **One call of a view is one of the machine.** -/
theorem simulates_map (m : Shown K V) (n : U64) (inc : Bool) :
    Machine.Simulates (fun (w : View D K V) s => ∃ log, Implements m n inc log w s)
      (fun c => c.increaseSeq = true) step (MapState.call inc) := by
  rintro w s c ⟨log, h⟩ hc
  rw [h.staged.ready.step_eq, MapState.call_eq, h.get_eq, h.nextValue?_eq]
  cases ho : c.outcome (.ok (s.read c.key)) (nextAt inc s.counter c) with
  | error f => exact .error f
  | ok p =>
      obtain ⟨reply, sx⟩ := p
      cases sx with
      | none => exact .ok reply ⟨log, h⟩
      | some x =>
          have hx := (Call.outcome_eq_ok (fun y => eq_ofData_of_nextAt) ho).2 x rfl
          exact .ok reply ⟨_, h.stage hc hx⟩

/-- **A view over any reader refines the machine.**  For calls that allocate for values, on a view
over a reader that answers as a map the counter could start over, both overflow, or both return the
same replies and count to the same number, and the reads of the view answer as the machine's map. -/
theorem refines_map {snapshot : Snapshot D} {m : Shown K V} (hshow : snapshot.Shows m) {n : U64}
    (hm : m.Below n) (inc : Bool) {calls : List (Call K V)}
    (hcalls : ∀ c ∈ calls, c.increaseSeq = true) :
    ((fresh snapshot inc n : View D K V).run calls = .error .overflow ∧
      Machine.run (MapState.call inc) ⟨m, n⟩ calls = .error .overflow) ∨
    ∃ replies w s, (fresh snapshot inc n : View D K V).run calls = .ok (replies, w) ∧
      Machine.run (MapState.call inc) ⟨m, n⟩ calls = .ok (replies, s) ∧
      w.lastSeq = s.counter ∧
      ∀ P, ReadsAs (fun k => w.get k) (fun r => w.range P r) s.records := by
  have hagree := (simulates_map m n inc).run hcalls ⟨[], implements_fresh hshow hm inc⟩
  rw [run_eq_machine]
  cases hrun : Machine.run step (fresh snapshot inc n : View D K V) calls with
  | error f =>
      rw [hrun] at hagree
      have hspec := (hagree.error_iff f).1 rfl
      obtain rfl := (MapState.run_error hspec).1
      exact Or.inl ⟨rfl, hspec⟩
  | ok p =>
      obtain ⟨replies, w⟩ := p
      obtain ⟨s, hs, log, h⟩ := hagree.of_ok hrun
      exact Or.inr ⟨replies, w, s, rfl, hs, h.counter.symm, h.readsAs⟩

end View

/-- A counter above `0` can start over what a table shows up to it. -/
theorem Table.Paired.below_shown {K V : Type} [LinearOrder K] {t : Table K V} (ht : t.Paired)
    {u n : U64} (hu : u ≤ n) (hn : 1 ≤ n) : (t.shown u).Below n :=
  ⟨fun _ _ hx => (seq_le_of_shown ht hx).trans hu,
    fun hzero => absurd hzero (U64.ne_zero_of_one_le hn)⟩

namespace View

/-- A view that counts on from above its snapshot. -/
theorem refines_map_sample :
    let base : Table ℕ ℕ := ((Table.new.insert 1 4 10).2.insertTombstone 2 5).2
    let calls : List (Call ℕ ℕ) := [.fetchAndSet 1 none, .set 2 (some 20), .fetchAndSet 3 none]
    ∃ replies w s, (fresh (.new 5 base) false 7).run calls = .ok (replies, w) ∧
      Machine.run (MapState.call false) ⟨base.shown 5, 7⟩ calls = .ok (replies, s) ∧
      s.counter = 8 ∧ w.get 1 = .ok (s.read 1) := by
  intro base calls
  have hp : base.Paired := by decide
  have hcalls : ∀ c ∈ calls, c.increaseSeq = true := by decide
  rcases refines_map (hp.shows 5) (hp.below_shown (by decide) (by decide)) false (n := 7)
    hcalls with ⟨hover, -⟩ | ⟨replies, w, s, hrun, hs, hseq, hreads⟩
  · obtain ⟨p, hp⟩ : ∃ p, (fresh (.new 5 base) false 7).run calls = .ok p := ⟨_, rfl⟩
    cases hp.symm.trans hover
  · refine ⟨replies, w, s, hrun, hs, ?_, (hreads .leftmost).get_eq 1⟩
    rw [← hseq]
    cases hrun
    rfl

end View

/-! ### Transactions -/

namespace View

variable {K V : Type} [LinearOrder K]

/-- The machine that commits every call, one step of it. -/
def autocommitStep (inc : Bool) (p : Table K V × U64) (c : Call K V) :
    Except Fault (Reply V × Table K V × U64) :=
  match c.outcome (p.1.get c.key p.2) (nextAt inc p.2 c) with
  | .error f => .error f
  | .ok (reply, none) => .ok (reply, p)
  | .ok (reply, some x) => .ok (reply, p.1.put c.key x.orderKey x.intoData, x.seq)

theorem autocommit_eq_machine (inc : Bool) (calls : List (Call K V)) : ∀ p : Table K V × U64,
    autocommit inc p.1 p.2 calls = Machine.run (autocommitStep inc) p calls := by
  induction calls with
  | nil =>
      intro p
      rfl
  | cons c calls ih =>
      rintro ⟨t, n⟩
      rw [autocommit, Machine.run, autocommitStep]
      cases c.outcome (t.get c.key n) (nextAt inc n c) with
      | error f => rfl
      | ok q =>
          obtain ⟨reply, sx⟩ := q
          cases sx with
          | none =>
              simp only [← ih]
              cases autocommit inc t n calls <;> rfl
          | some x =>
              simp only [← ih]
              cases autocommit inc (t.put c.key x.orderKey x.intoData) x.seq calls <;> rfl

/-- **A write to a settled table is a write to the map it shows.** -/
theorem Settled.shown_put {t : Table K V} {n : U64} (h : Settled t n) {inc : Bool} {c : Call K V}
    (hc : c.increaseSeq = true) {x : SeqMarked V} (hx : nextAt inc n c = some x) :
    (t.put c.key x.orderKey x.intoData).shown x.seq =
      Function.update (t.shown n) c.key (some x) := by
  have hp := (h.put hc hx).wf.paired
  have hbelow : ∀ k m d, t.Holds k m d → m.seq ≤ n := fun k m d hm =>
    h.lastSeq ▸ h.wf.greatest.bound hm
  have hle := (seq_of_nextAt hc hx).1
  funext k
  rw [Function.update_apply]
  split_ifs with hk
  · -- the record just stored is the newest of its key
    subst hk
    refine hp.shown_eq_some.2 ⟨Table.holds_put.2 (Or.inl ⟨rfl, rfl, rfl⟩), ?_, ?_⟩
    · exact (SeqMarked.seq_orderKey x).le
    · intro m' d' hm' _
      rcases Table.holds_put.1 hm' with ⟨-, rfl, -⟩ | ⟨hm', -⟩
      · exact le_rfl
      · exact le_trans (Marker.le_newTombstone_iff.2 (hbelow _ _ _ hm'))
          (newTombstone_le_of_nextAt hc hx)
  · ext y
    rw [hp.shown_eq_some, h.wf.paired.shown_eq_some]
    -- at other keys the table holds the same, and both numbers admit all of it
    have hsame : ∀ m d, (t.put c.key x.orderKey x.intoData).Holds k m d ↔ t.Holds k m d := by
      intro m d
      rw [Table.holds_put]
      exact ⟨fun hm => hm.elim (fun hm => absurd hm.1 hk) And.left,
        fun hm => Or.inr ⟨hm, fun heq => hk heq.1⟩⟩
    have hall : ∀ m d, t.Holds k m d → (Table.Upto x.seq m ↔ Table.Upto n m) := fun m d hm =>
      ⟨fun _ => hbelow k m d hm, fun hm' => le_trans hm' hle⟩
    constructor
    · intro hy
      exact Versions.Sees.congr (r := some (y.orderKey, y.intoData)) hall
        (Versions.Sees.congr_store hsame hy)
    · intro hy
      exact Versions.Sees.congr_store (r := some (y.orderKey, y.intoData))
        (fun m d => (hsame m d).symm)
        (Versions.Sees.congr (fun m d hm => (hall m d hm).symm) hy)

/-- A settled table against the machine. -/
theorem autocommit_simulates (inc : Bool) :
    Machine.Simulates
      (fun (p : Table K V × U64) s => Settled p.1 p.2 ∧ s = ⟨p.1.shown p.2, p.2⟩)
      (fun c => c.increaseSeq = true) (autocommitStep inc) (MapState.call inc) := by
  rintro ⟨t, n⟩ s c ⟨h, rfl⟩ hc
  have hget : t.get c.key n = .ok (MapState.read ⟨t.shown n, n⟩ c.key) :=
    (h.wf.paired.shows n).get_eq c.key
  rw [autocommitStep, MapState.call_eq, hget]
  cases ho : c.outcome (.ok (MapState.read ⟨t.shown n, n⟩ c.key)) (nextAt inc n c) with
  | error f => exact .error f
  | ok p =>
      obtain ⟨reply, sx⟩ := p
      cases sx with
      | none => exact .ok reply ⟨h, rfl⟩
      | some x =>
          have hx := (Call.outcome_eq_ok (fun y => eq_ofData_of_nextAt) ho).2 x rfl
          refine .ok reply ⟨h.put hc hx, ?_⟩
          rw [MapState.store, h.shown_put hc hx]

/-- **Transactions refine the machine, however they are cut**: both overflow, or both return the
same replies, and the table they leave shows the machine's map at the machine's number. -/
theorem commitAll_refines_map (inc : Bool) (cuts : List (List (Call K V))) {t : Table K V} {n : U64}
    (h : Settled t n) (hcalls : ∀ c ∈ cuts.flatten, c.increaseSeq = true) :
    (commitAll inc t n cuts = .error .overflow ∧
      Machine.run (MapState.call inc) ⟨t.shown n, n⟩ cuts.flatten = .error .overflow) ∨
    ∃ replies t' n', commitAll inc t n cuts = .ok (replies, t', n') ∧
      Machine.run (MapState.call inc) ⟨t.shown n, n⟩ cuts.flatten =
        .ok (replies, ⟨t'.shown n', n'⟩) ∧ Settled t' n' := by
  have hagree := (autocommit_simulates inc).run hcalls
    (s := (t, n)) (t := ⟨t.shown n, n⟩) ⟨h, rfl⟩
  rw [← autocommit_eq_machine] at hagree
  rw [commitAll_eq_autocommit inc cuts h hcalls]
  cases hrun : autocommit inc t n cuts.flatten with
  | error f =>
      rw [hrun] at hagree
      have hspec := (hagree.error_iff f).1 rfl
      obtain rfl := (MapState.run_error hspec).1
      exact Or.inl ⟨rfl, hspec⟩
  | ok p =>
      obtain ⟨replies, t', n'⟩ := p
      obtain ⟨s, hs, hsettled, rfl⟩ := hagree.of_ok hrun
      exact Or.inr ⟨replies, t', n', rfl, hs, hsettled⟩

/-- Three transactions from the empty table, the second of which stages nothing. -/
theorem commitAll_refines_map_sample :
    let cuts : List (List (Call ℕ ℕ)) :=
      [[.set 1 (some 10), .set 2 (some 20)], [.fetchAndSet 3 none], [.fetchAndSet 1 none]]
    ∃ replies t' n', commitAll true .new 0 cuts = .ok (replies, t', n') ∧
      Machine.run (MapState.call true) ⟨Table.new.shown 0, 0⟩ cuts.flatten =
        .ok (replies, ⟨t'.shown n', n'⟩) ∧ n' = 3 := by
  intro cuts
  rcases commitAll_refines_map true cuts settled_new (by decide) with
    ⟨hover, -⟩ | ⟨replies, t', n', hall, hs, -⟩
  · obtain ⟨p, hp⟩ : ∃ p, commitAll true .new 0 cuts = .ok p := ⟨_, rfl⟩
    cases hp.symm.trans hover
  · refine ⟨replies, t', n', hall, hs, ?_⟩
    cases hall
    rfl

/-- **Where transactions fail**: with the number at the last one, however the calls are cut. -/
theorem commitAll_error {inc : Bool} {cuts : List (List (Call K V))} {t : Table K V} {n : U64}
    (h : Settled t n) (hcalls : ∀ c ∈ cuts.flatten, c.increaseSeq = true) {f : Fault}
    (hrun : commitAll inc t n cuts = .error f) :
    f = .overflow ∧ ∃ before c after replies t', cuts.flatten = before ++ c :: after ∧
      autocommit inc t n before = .ok (replies, t', U64.max) := by
  have hcut := commitAll_eq_autocommit inc cuts h hcalls
  rw [hrun, autocommit_eq_machine inc cuts.flatten (t, n)] at hcut
  obtain ⟨before, c, after, replies, ⟨t', n'⟩, heq, hbefore, hstep⟩ :=
    Machine.run_eq_error.1 hcut.symm
  rw [← autocommit_eq_machine inc before (t, n)] at hbefore
  have hsettled : Settled t' n' := by
    rcases autocommit_settled h (fun c' hc' => hcalls c' (heq ▸ List.mem_append_left _ hc')) with
      herr | ⟨r, t₁, n₁, hok, hs⟩
    · cases hbefore.symm.trans herr
    · cases hbefore.symm.trans hok
      exact hs
  have hc := hcalls c (heq ▸ List.mem_append_right _ List.mem_cons_self)
  obtain ⟨hover, hmax⟩ := MapState.call_error
    (((autocommit_simulates inc (t', n') _ c ⟨hsettled, rfl⟩ hc).error_iff f).1 hstep)
  obtain rfl : n' = U64.max := hmax
  exact ⟨hover, before, c, after, replies, t', heq, hbefore⟩

end View

/-! ### Checkpoints -/

/-- A table read from a list of shown records shows them. -/
theorem Table.shown_imported {K V : Type} [LinearOrder K] {m : Shown K V}
    {out : List (K × SeqMarked V)} (h : Lists m .full out) {u : U64}
    (hu : ∀ k x, m k = some x → x.seq ≤ u) : (imported out).shown u = m := by
  have hmem : ∀ k x, (k, x) ∈ out ↔ m k = some x := fun k x =>
    (h.mem_iff k x).trans (and_iff_right (RangeBounds.contains_full k))
  funext k
  ext x
  rw [(paired_imported h.ascending).shown_eq_some]
  constructor
  · rintro ⟨hheld, -, -⟩
    obtain ⟨y, hy, hmark, hdata⟩ := (holds_imported h.ascending).1 hheld
    rw [← SeqMarked.eq_of_orderKey_intoData hmark hdata]
    exact (hmem k y).1 hy
  · intro hx
    refine ⟨(holds_imported h.ascending).2 ⟨x, (hmem k x).2 hx, rfl, rfl⟩, ?_, ?_⟩
    · rw [Upto, SeqMarked.seq_orderKey]
      exact hu k x hx
    · rintro m' d' hheld -
      obtain ⟨y, hy, rfl, -⟩ := (holds_imported h.ascending).1 hheld
      rw [Option.some_inj.1 (((hmem k y).1 hy).symm.trans hx)]

namespace View

variable {D K V : Type} [LinearOrder K] [GetAtSeq D K V] [RangeAtSeq D K V]

/-- **Two views read the same**: at the same number, by point and by range. -/
structure ReadsSame {D' : Type} [GetAtSeq D' K V] [RangeAtSeq D' K V] (w : View D K V)
    (w' : View D' K V) : Prop where
  lastSeq : w.lastSeq = w'.lastSeq
  get : ∀ k, w.get k = w'.get k
  range : ∀ P r, ¬r.Inverted → w.range P r = w'.range P r

/-- Views that implement the machine in one state read the same. -/
theorem Implements.readsSame {D' : Type} [GetAtSeq D' K V] [RangeAtSeq D' K V]
    {m m' : Shown K V} {n n' : U64} {inc : Bool} {log log' : List (K × SeqMarked V)}
    {w : View D K V} {w' : View D' K V} {s : MapState K V} (h : Implements m n inc log w s)
    (h' : Implements m' n' inc log' w' s) : ReadsSame w w' := by
  refine ⟨h.counter.symm.trans h'.counter, fun k => (h.get_eq k).trans (h'.get_eq k).symm,
    fun P r hr => ?_⟩
  obtain ⟨out, hout, hlist⟩ := (h.readsAs P).range_eq r hr
  obtain ⟨out', hout', hlist'⟩ := (h'.readsAs P).range_eq r hr
  rw [hout, hout', hlist.unique hlist']

/-- **An exported view goes on as it would have.**  After any calls that allocate for values, the
full range of a view, read into a table in any order of its items, is a snapshot on which a new view
takes any further such calls as the old one: they overflow alike, or return the same replies, and
read the same afterwards. -/
theorem checkpoint_restores {snapshot : Snapshot D} {m : Shown K V} (hshow : snapshot.Shows m)
    {n : U64} (hm : m.Below n) (inc : Bool) {calls : List (Call K V)}
    (hcalls : ∀ c ∈ calls, c.increaseSeq = true) {replies : List (Reply V)} {w : View D K V}
    (hrun : (fresh snapshot inc n).run calls = .ok (replies, w))
    (P : KMerge.Picker Fault (KVResult K V)) :
    ∃ stream, w.range P .full = .ok stream ∧ ∃ t : Table K V,
      (∀ stream' : List (KVResult K V), stream'.Perm stream → Table.fromStream stream' = .ok t) ∧
      ∀ calls' : List (Call K V), (∀ c ∈ calls', c.increaseSeq = true) →
        Machine.Agree ReadsSame (w.run calls')
          ((fresh (.new w.lastSeq t) inc w.lastSeq : View (Table K V) K V).run calls') := by
  rw [run_eq_machine] at hrun
  obtain ⟨s, -, log, h⟩ := ((simulates_map m n inc).run hcalls
    ⟨[], implements_fresh hshow hm inc⟩).of_ok hrun
  obtain ⟨out, hout, hlist⟩ := (h.readsAs P).range_eq .full RangeBounds.not_inverted_full
  refine ⟨items out, hout, Table.imported out,
    fun stream' hperm => Table.fromStream_perm hlist.ascending hperm, fun calls' hcalls' => ?_⟩
  -- the table shows the map of the machine, and the new view starts from there
  have hbelow := h.below_records
  have hshow' : (Snapshot.new w.lastSeq (Table.imported out)).Shows s.records := by
    have hshown := (Table.paired_imported hlist.ascending).shows w.lastSeq
    rw [Table.shown_imported hlist fun k x hx => h.counter ▸ hbelow.seq_le k x hx] at hshown
    exact hshown
  have hstart : (⟨s.records, w.lastSeq⟩ : MapState K V) = s := by rw [← h.counter]
  have hnew := implements_fresh hshow' (h.counter ▸ hbelow) inc
  rw [hstart] at hnew
  have hold := (simulates_map m n inc).run hcalls' ⟨log, h⟩
  have hgoes := (simulates_map s.records w.lastSeq inc).run hcalls' ⟨[], hnew⟩
  rw [run_eq_machine, run_eq_machine]
  refine (hold.trans hgoes.symm).mono ?_
  rintro w₁ w₂ ⟨s', ⟨log₁, h₁⟩, ⟨log₂, h₂⟩⟩
  exact h₁.readsSame h₂

/-- A deletion and an overwrite, exported and gone on with. -/
theorem checkpoint_restores_sample :
    let base : Table ℕ ℕ := ((Table.new.insert 1 4 10).2.insert 2 5 20).2
    let calls : List (Call ℕ ℕ) := [.fetchAndSet 1 none, .set 2 (some 21)]
    ∃ replies w stream t, (fresh (.new 5 base) false 5).run calls = .ok (replies, w) ∧
      w.range .leftmost .full = .ok stream ∧ Table.fromStream stream.reverse = .ok t ∧
      Machine.Agree ReadsSame (w.run [.fetchAndSet 1 (some 11)])
        ((fresh (.new w.lastSeq t) false w.lastSeq).run [.fetchAndSet 1 (some 11)]) := by
  intro base calls
  have hp : base.Paired := by decide
  have hcalls : ∀ c ∈ calls, c.increaseSeq = true := by decide
  obtain ⟨replies, w, hrun⟩ : ∃ replies w,
    (fresh (.new 5 base) false 5).run calls = .ok (replies, w) := ⟨_, _, rfl⟩
  obtain ⟨stream, hstream, t, ht, hagree⟩ := checkpoint_restores (hp.shows 5)
    (hp.below_shown le_rfl (by decide)) false hcalls hrun .leftmost
  exact ⟨replies, w, stream, t, hrun, hstream, ht _ stream.reverse_perm,
    hagree _ (by decide)⟩

/-! ### Scans -/

/-- **A view is scanned in pages as in one piece, and read key by key.**  After any calls that
allocate for values, the pages of a range, cut at any of its keys, make up the range, and a batch of
point reads of the keys listed answers the values listed. -/
theorem scan_in_pages {snapshot : Snapshot D} {m : Shown K V} (hshow : snapshot.Shows m) {n : U64}
    (hm : m.Below n) (inc : Bool) {calls : List (Call K V)}
    (hcalls : ∀ c ∈ calls, c.increaseSeq = true) {replies : List (Reply V)} {w : View D K V}
    (hrun : (fresh snapshot inc n).run calls = .ok (replies, w))
    (P : KMerge.Picker Fault (KVResult K V)) {r : RangeBounds K} (hr : ¬r.Inverted) {cuts : List K}
    (hcuts : cuts.Pairwise (· ≤ ·)) (hin : ∀ k ∈ cuts, r.Contains k) :
    ((pages r.startBound r.endBound cuts).mapM (w.range P)).map List.flatten = w.range P r ∧
      ∃ out, w.range P r = .ok (items out) ∧
        w.getMany (out.map Prod.fst) = .ok (out.map Prod.snd) := by
  rw [run_eq_machine] at hrun
  obtain ⟨s, -, log, h⟩ := ((simulates_map m n inc).run hcalls
    ⟨[], implements_fresh hshow hm inc⟩).of_ok hrun
  obtain ⟨out, hout, hlist⟩ := (h.readsAs P).range_eq r hr
  exact ⟨(h.readsAs P).pages_eq hr hcuts hin, out, hout, (h.readsAs P).mapM_get hlist⟩

/-- Three pages, one of them empty. -/
theorem scan_in_pages_sample :
    let base : Table ℕ ℕ := ((Table.new.insert 1 4 10).2.insert 2 5 20).2
    ∃ replies w, (fresh (.new 5 base) false 5).run [.set 7 (some 70)] = .ok (replies, w) ∧
      ((pages .unbounded .unbounded [2, 4]).mapM (w.range .leftmost)).map List.flatten =
        w.range .leftmost .full := by
  intro base
  have hp : base.Paired := by decide
  obtain ⟨replies, w, hrun⟩ : ∃ replies w,
    (fresh (.new 5 base) false 5).run [.set 7 (some 70)] = .ok (replies, w) := ⟨_, _, rfl⟩
  have hcuts : ([2, 4] : List ℕ).Pairwise (· ≤ ·) := by decide
  exact ⟨replies, w, hrun, (scan_in_pages (hp.shows 5) (hp.below_shown le_rfl (by decide)) false
    (by decide) hrun .leftmost RangeBounds.not_inverted_full hcuts (by decide)).1⟩

end View

end MapApi
