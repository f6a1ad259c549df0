/-
**The sequence discipline of a view.**

The counter of a view and the last marker of its table of changes are separate state, kept in step
by the four staging calls.  Whatever the reader, the initial number and the order of the calls: the
table refuses no record at or above the counter, and the calls stage there; the counter never
decreases; what is staged stands between the initial number and the counter; and a call that
allocates a number for a value returns one above all those returned before.

A call that reads before it writes also returns the value before.  That one may be the snapshot's,
at whatever number the reader says; otherwise its number is below the allocated one as well.

Main definitions:

* `MapApi.View.fresh` — a view before its first staging call, with the settings of its builder;
* `MapApi.Reply.seq`, `MapApi.View.Follows` — the number a call returns, and a call whose allocated
  number is above those of an earlier one.

Main results:

* `MapApi.View.Ready.call_eq_ok` — what a successful call returns and stages;
* `MapApi.View.run_staged` — the log of a run, against its calls;
* `MapApi.View.Numbered.call` — one call keeps the numbers returned at or below the counter;
* `MapApi.View.sequence_discipline` — **inserts are infallible, and allocated numbers are new**.
-/

import MapApi.Staging

set_option relaxedAutoImplicit false
set_option autoImplicit false

namespace MapApi

/-- The sequence number a call returns for what it has written. -/
def Reply.seq {V : Type} : Reply V → U64
  | .marker m => m.internalSeq
  | .beforeAfter _ new => new.internalSeq

/-- The calls that allocate a sequence number whatever the setting: those that write a value. -/
def Call.Allocates {K V : Type} (c : Call K V) : Prop :=
  c.increaseSeq = true ∧ c.value.isSome = true

namespace View

variable {D K V : Type} [LinearOrder K]

/-- `View::new(snapshot).with_tombstone_seq_increment(inc).with_initial_seq(n)`: a view before its
first staging call.  Its initial number is the snapshot's unless it is set. -/
def fresh (snapshot : Snapshot D) (inc : Bool) (n : U64) : View D K V :=
  ((View.new snapshot).withTombstoneSeqIncrement inc).withInitialSeq n

theorem new_eq_fresh (snapshot : Snapshot D) :
    (View.new snapshot : View D K V) = fresh snapshot false snapshot.snapshotSeq := rfl

@[simp] theorem fresh_changes (snapshot : Snapshot D) (inc : Bool) (n : U64) :
    (fresh snapshot inc n : View D K V).changes = .new := rfl
@[simp] theorem fresh_lastSeq (snapshot : Snapshot D) (inc : Bool) (n : U64) :
    (fresh snapshot inc n : View D K V).lastSeq = n := rfl
@[simp] theorem fresh_snapshot (snapshot : Snapshot D) (inc : Bool) (n : U64) :
    (fresh snapshot inc n : View D K V).snapshot = snapshot := rfl
@[simp] theorem fresh_increaseSeqForTombstone (snapshot : Snapshot D) (inc : Bool) (n : U64) :
    (fresh snapshot inc n : View D K V).increaseSeqForTombstone = inc := rfl

/-- A value whose number is allocated is above the counter. -/
theorem lt_of_nextValue?_some {w : View D K V} {v : V} {x : SeqMarked V}
    (h : w.nextValue? true (some v) = some x) : w.lastSeq < x.seq := by
  obtain ⟨n, hn, rfl⟩ := Option.map_eq_some_iff.1 h
  exact U64.lt_of_succ? hn

variable [GetAtSeq D K V]

/-- A point read answers with a staged record, up to the counter, or with the snapshot's. -/
theorem seq_le_of_get {w : View D K V} {k : K} {x : SeqMarked V} (h : w.get k = .ok x) :
    x.seq ≤ w.lastSeq ∨ w.snapshot.get k = .ok x := by
  rw [get] at h
  obtain ⟨updated, hupdated, h⟩ := bind_eq_ok.1 h
  split_ifs at h with hfound
  · obtain ⟨base, hbase, h⟩ := bind_eq_ok.1 h
    cases h
    rw [compactSeqMarkedPair, if_pos hfound]
    exact Or.inr hbase
  · cases h
    exact Or.inl (Table.seq_le_of_get hupdated)

/-- **What a successful call returns and stages**: it finds nothing to delete, or it stages a
value and returns it. -/
theorem Ready.call_eq_ok {w w' : View D K V} (h : w.Ready) {c : Call K V} {reply : Reply V}
    (hc : w.call c = (.ok reply, w')) :
    (w' = w ∧ c.value = none ∧ ∃ old, w.get c.key = .ok old ∧
      reply = .beforeAfter old (.newTombstone 0)) ∨
    ∃ x, w.nextValue? c.increaseSeq c.value = some x ∧ w' = w.stage c.key x ∧
      (reply = .marker x.orderKey ∨ ∃ old, w.get c.key = .ok old ∧ reply = .beforeAfter old x) := by
  rw [h.call_eq] at hc
  cases ho : c.outcome (w.get c.key) (w.nextValue? c.increaseSeq c.value) with
  | error e => rw [ho] at hc; cases hc
  | ok p =>
      obtain ⟨reply', sx⟩ := p
      rw [ho] at hc
      rcases Call.outcome_cases ho with ⟨rfl, old, hold, hnone, rfl⟩ |
        ⟨x, rfl, hx, rfl | ⟨old, hold, -, rfl⟩⟩
      · cases hc
        exact Or.inl ⟨rfl, Option.isNone_iff_eq_none.1 hnone.2, old, hold, rfl⟩
      · cases hc
        exact Or.inr ⟨x, hx, rfl, Or.inl rfl⟩
      · cases hc
        exact Or.inr ⟨x, hx, rfl, Or.inr ⟨old, hold, rfl⟩⟩

/-- **What the log says of a call**: the key and the value it was called with.  The marker that
`set` returns is that of the record. -/
theorem Ready.staged_of_call {w w' : View D K V} (h : w.Ready) {c : Call K V} {reply : Reply V}
    (hc : w.call c = (.ok reply, w')) {k : K} {x : SeqMarked V}
    (hx : c.staged reply = some (k, x)) :
    k = c.key ∧ x.intoData = c.value ∧ ∀ m, reply = .marker m → m = x.orderKey := by
  rcases h.call_cases hc with ⟨hnone, -⟩ | ⟨y, hy, hnext, rfl⟩
  · cases hx.symm.trans hnone
  · cases hx.symm.trans hy
    refine ⟨rfl, ?_, ?_⟩
    · rw [nextValue?_intoData hnext, SeqMarked.intoData_ofData]
    · rintro m rfl
      rcases h.call_eq_ok hc with ⟨-, -, old, -, heq⟩ | ⟨z, hz, -, heq | ⟨old, -, heq⟩⟩
      · cases heq
      · cases heq
        cases hz.symm.trans hnext
        rfl
      · cases heq

/-- **What the log says of a run**: the key and the value of each call, at the marker returned. -/
theorem run_staged {n : U64} {log : List (K × SeqMarked V)} {w w' : View D K V}
    (h : Staged n log w) {calls : List (Call K V)} {replies : List (Reply V)}
    (hrun : w.run calls = .ok (replies, w')) :
    ∀ p ∈ calls.zip replies, ∀ k x, p.1.staged p.2 = some (k, x) →
      k = p.1.key ∧ x.intoData = p.1.value ∧ ∀ m, p.2 = .marker m → m = x.orderKey := by
  induction calls generalizing log w replies with
  | nil => nofun
  | cons c calls ih =>
      obtain ⟨reply, w₁, rest, hc, hrest, rfl⟩ := run_cons_eq_ok.1 hrun
      obtain ⟨⟨log₁, h₁⟩, -⟩ :=
        staged_preserved n w.snapshot w c reply w₁ ⟨⟨log, h⟩, rfl⟩ trivial (step_eq_ok.2 hc)
      intro p hp k x hx
      rcases List.mem_cons.1 hp with rfl | hp
      · exact h.ready.staged_of_call hc hx
      · exact ih h₁ hrest p hp k x hx

/-- The counter does not decrease with a call, and the number the call returns is at or below it. -/
theorem Ready.seq_le_of_call {w w' : View D K V} (h : w.Ready) {c : Call K V} {reply : Reply V}
    (hc : w.call c = (.ok reply, w')) : w.lastSeq ≤ w'.lastSeq ∧ reply.seq ≤ w'.lastSeq := by
  rcases h.call_eq_ok hc with ⟨rfl, -, old, -, rfl⟩ | ⟨x, hx, rfl, rfl | ⟨old, -, rfl⟩⟩
  · exact ⟨le_rfl, Fin.zero_le _⟩
  · exact ⟨le_of_nextValue? hx, (SeqMarked.seq_orderKey x).le⟩
  · exact ⟨le_of_nextValue? hx, le_refl x.seq⟩

/-- The value before is what a read answered. -/
theorem Ready.get_of_call {w w' : View D K V} (h : w.Ready) {c : Call K V} {old new : SeqMarked V}
    (hc : w.call c = (.ok (.beforeAfter old new), w')) : w.get c.key = .ok old := by
  rcases h.call_eq_ok hc with ⟨-, -, old', hget, heq⟩ | ⟨x, -, -, heq | ⟨old', hget, heq⟩⟩
  · cases heq
    exact hget
  · cases heq
  · cases heq
    exact hget

/-- **The view is numbered after some calls**: it has staged a log from the initial number on, and
the numbers their replies returned are at or below its counter, those of the snapshot's own records
apart. -/
structure Numbered (snapshot : Snapshot D) (n : U64) (w : View D K V)
    (done : List (Call K V × Reply V)) : Prop where
  staged : ∃ log, Staged n log w
  snapshot_eq : w.snapshot = snapshot
  returned : ∀ p ∈ done, p.2.seq ≤ w.lastSeq
  before : ∀ p ∈ done, ∀ old new, p.2 = .beforeAfter old new →
    old.seq ≤ w.lastSeq ∨ snapshot.get p.1.key = .ok old

/-- The second call, if it allocates, returns a number above those the first one returned, unless
that was the snapshot's. -/
def Follows (snapshot : Snapshot D) (p q : Call K V × Reply V) : Prop :=
  q.1.Allocates → p.2.seq < q.2.seq ∧
    ∀ old new, p.2 = .beforeAfter old new →
      old.seq < q.2.seq ∨ snapshot.get p.1.key = .ok old

namespace Numbered

variable {snapshot : Snapshot D} {n : U64} {w w' : View D K V}
  {done : List (Call K V × Reply V)} {c : Call K V} {reply : Reply V}

theorem init (snapshot : Snapshot D) (inc : Bool) (n : U64) :
    Numbered snapshot n (fresh snapshot inc n : View D K V) [] :=
  ⟨⟨[], staged_nil (fresh_changes snapshot inc n)⟩, rfl, nofun, nofun⟩

theorem ready (h : Numbered snapshot n w done) : w.Ready := by
  obtain ⟨log, hst⟩ := h.staged
  exact hst.ready

/-- **One call keeps the numbers**: the counter does not decrease, and the reply's numbers are at or
below it. -/
theorem call (h : Numbered snapshot n w done) (hc : w.call c = (.ok reply, w')) :
    Numbered snapshot n w' (done ++ [(c, reply)]) ∧ w.lastSeq ≤ w'.lastSeq := by
  obtain ⟨log, hst⟩ := h.staged
  obtain ⟨hmono, hseq⟩ := h.ready.seq_le_of_call hc
  have hkept : (∃ log', Staged n log' w') ∧ w'.snapshot = snapshot := by
    rcases h.ready.call_cases hc with ⟨-, rfl⟩ | ⟨x, -, hx, rfl⟩
    · exact ⟨h.staged, h.snapshot_eq⟩
    · exact ⟨⟨_, hst.stage c.key (le_of_nextValue? hx)⟩, h.snapshot_eq⟩
  refine ⟨⟨hkept.1, hkept.2, fun p hp => ?_, fun p hp old new heq => ?_⟩, hmono⟩
  · rcases List.mem_append.1 hp with hp | hp
    · exact (h.returned p hp).trans hmono
    · rw [List.mem_singleton.1 hp]
      exact hseq
  · rcases List.mem_append.1 hp with hp | hp
    · exact (h.before p hp old new heq).imp_left fun hle => hle.trans hmono
    · rw [List.mem_singleton.1 hp] at heq ⊢
      obtain rfl : reply = .beforeAfter old new := heq
      rw [← h.snapshot_eq]
      exact (seq_le_of_get (h.ready.get_of_call hc)).imp_left fun hle => hle.trans hmono

/-- A call that allocates returns a number above all those returned before. -/
theorem follows (h : Numbered snapshot n w done) (hc : w.call c = (.ok reply, w')) :
    ∀ p ∈ done, Follows snapshot p (c, reply) := by
  rintro p hp ⟨hinc, hvalue⟩
  obtain ⟨v, hv⟩ := Option.isSome_iff_exists.1 hvalue
  have hnew : w.lastSeq < reply.seq := by
    rcases h.ready.call_eq_ok hc with ⟨-, hnone, -⟩ | ⟨x, hx, -, hreply⟩
    · rw [hnone] at hv
      cases hv
    · rw [hinc, hv] at hx
      have hlt := lt_of_nextValue?_some hx
      rcases hreply with rfl | ⟨old, -, rfl⟩
      · rw [← SeqMarked.seq_orderKey] at hlt
        exact hlt
      · exact hlt
  refine ⟨lt_of_le_of_lt (h.returned p hp) hnew, fun old new heq => ?_⟩
  exact (h.before p hp old new heq).imp_left fun hle => lt_of_le_of_lt hle hnew

/-- **A run keeps the numbers**, and its calls follow one another. -/
theorem run {calls : List (Call K V)} : ∀ {w : View D K V} {done : List (Call K V × Reply V)}
    {replies : List (Reply V)}, Numbered snapshot n w done → done.Pairwise (Follows snapshot) →
    w.run calls = .ok (replies, w') →
    Numbered snapshot n w' (done ++ calls.zip replies) ∧ w.lastSeq ≤ w'.lastSeq ∧
      (done ++ calls.zip replies).Pairwise (Follows snapshot) := by
  induction calls with
  | nil =>
      intro w done replies h hpw hrun
      cases hrun
      rw [List.zip_nil_left, List.append_nil]
      exact ⟨h, le_rfl, hpw⟩
  | cons c calls ih =>
      intro w done replies h hpw hrun
      obtain ⟨reply, w₁, rest, hc, hrest, rfl⟩ := run_cons_eq_ok.1 hrun
      obtain ⟨h₁, hmono⟩ := h.call hc
      have hpw₁ : (done ++ [(c, reply)]).Pairwise (Follows snapshot) := by
        refine List.pairwise_append.2 ⟨hpw, List.pairwise_singleton _ _, fun p hp q hq => ?_⟩
        rw [List.mem_singleton.1 hq]
        exact h.follows hc p hp
      obtain ⟨h', hmono', hpw'⟩ := ih h₁ hpw₁ hrest
      rw [List.append_assoc] at h' hpw'
      exact ⟨h', hmono.trans hmono', hpw'⟩

end Numbered

/-- **The sequence discipline of a view.**  A run from a fresh view fails only past the last
sequence number, or with a read of the snapshot.  In the view it leaves, the table of changes
accepts every record from the counter on, so that the next call fails for those reasons only; every
staged record stands between the initial number and the counter; the counter has not decreased since
any earlier point of the run, nor does it with the next call; and every call that allocates a number
for a value has returned one above all those returned before it, the records of the snapshot
apart. -/
theorem sequence_discipline (snapshot : Snapshot D) (inc : Bool) (n : U64)
    (calls : List (Call K V)) :
    (∀ f, (fresh snapshot inc n).run calls = .error f →
      f = .overflow ∨ ∃ k : K, snapshot.get k = .error f) ∧
    ∀ replies (w : View D K V), (fresh snapshot inc n).run calls = .ok (replies, w) →
      (∀ k m d, w.lastSeq ≤ m.seq → (w.changes.internalInsert k m d).1 = .ok ()) ∧
      (∀ c f, (w.call c).1 = .error f → f = .overflow ∨ snapshot.get c.key = .error f) ∧
      (∀ k m d, w.changes.Holds k m d → n ≤ m.seq ∧ m.seq ≤ w.lastSeq) ∧
      (∀ calls₁ replies₁ w₁, calls₁ <+: calls →
        (fresh snapshot inc n).run calls₁ = .ok (replies₁, w₁) → w₁.lastSeq ≤ w.lastSeq) ∧
      (∀ c, w.lastSeq ≤ (w.call c).2.lastSeq) ∧
      (calls.zip replies).Pairwise (Follows snapshot) := by
  refine ⟨fun f hf => run_error (staged_nil (fresh_changes snapshot inc n)) hf,
    fun replies w hrun => ?_⟩
  obtain ⟨hnum, -, hpw⟩ := (Numbered.init snapshot inc n).run List.Pairwise.nil hrun
  rw [List.nil_append] at hnum hpw
  obtain ⟨log, hst⟩ := hnum.staged
  refine ⟨fun k m d hm => ?_, fun c f hf => ?_, fun k m d hm => hst.seq_of_holds hm,
    fun calls₁ replies₁ w₁ hpre hrun₁ => ?_, fun c => ?_, hpw⟩
  · have hins : w.changes.internalInsert k m d = (.ok (), w.changes.put k m d) :=
      Table.internalInsert_eq_ok.2 ⟨le_trans hst.ready hm, rfl⟩
    rw [hins]
  · have hc : w.call c = (.error f, (w.call c).2) := Prod.ext hf rfl
    refine (hst.ready.call_eq_error hc).2.symm.imp And.left fun hget => ?_
    exact hnum.snapshot_eq ▸ hst.get_eq_error hget
  · obtain ⟨rest, replies₂, -, hrest⟩ := run_of_prefix hrun hpre hrun₁
    obtain ⟨hnum₁, -, hpw₁⟩ := (Numbered.init snapshot inc n).run List.Pairwise.nil hrun₁
    exact (hnum₁.run hpw₁ hrest).2.1
  · cases hc : w.call c with
    | mk result w' =>
        cases result with
        | ok reply => exact (hnum.call hc).2
        | error f => rw [(hst.ready.call_eq_error hc).1]

end View

end MapApi
