/-
**Transaction boundaries are unobservable.**

A list of calls is cut into transactions; each runs on a view over the table the previous ones have
left, at the sequence number they have ended at, and is applied to the table if it has staged
something.  Where the cuts are makes no difference: every way of cutting is simulated by a machine
that writes each call to the table at once, so that a read of a staged record in one run and of a
committed record in another are the same read of that machine.

Main definitions:

* `MapApi.View.commit`, `MapApi.View.commitAll` — committing a view, and a run of transactions;
* `MapApi.View.autocommit` — the machine that commits every call at once;
* `MapApi.View.Simulates` — a view halfway through its calls, against that machine.

Main results:

* `MapApi.View.Simulates.run` — a transaction is simulated, by induction on its calls;
* `MapApi.View.commitAll_eq_autocommit` — **a run of transactions is the machine's run of all
  their calls**;
* `MapApi.View.transactions_unobservable` — **two ways of cutting the same calls return the same
  values and leave the same table**.
-/

import MapApi.Commit

set_option relaxedAutoImplicit false
set_option autoImplicit false

namespace MapApi

namespace View

variable {K V : Type} [LinearOrder K]

/-! ### Runs of transactions -/

/-- Commit a view: its changes are applied to the table it was opened on, if there are any. -/
def commit (w : View (Table K V) K V) : Except Fault (Table K V × U64) :=
  let (t, n, changes) := w.intoParts
  if changes.inner.entries.isEmpty then .ok (t, n)
  else do
    let t ← t.apply changes
    return (t, n)

/-- **A run of transactions**, each a list of calls on a view over the table left so far: the
replies to all calls, the table left, and the final sequence number. -/
def commitAll (inc : Bool) (t : Table K V) (s : U64) :
    List (List (Call K V)) → Except Fault (List (Reply V) × Table K V × U64)
  | [] => .ok ([], t, s)
  | calls :: rest => do
      let (replies, w) ← (ofTable s t inc).run calls
      let (t', s') ← w.commit
      let (replies', t'', s'') ← commitAll inc t' s' rest
      return (replies ++ replies', t'', s'')

/-! ### The machine that commits every call -/

/-- The value a write stages at a counter. -/
def nextAt (inc : Bool) (n : U64) (c : Call K V) : Option (SeqMarked V) :=
  let allocates := if c.value.isSome then c.increaseSeq else inc
  (if allocates then n.succ? else some n).map fun n => .ofData n c.value

/-- **Every call at once**: each reads the table, and is written to it. -/
def autocommit (inc : Bool) (t : Table K V) (n : U64) :
    List (Call K V) → Except Fault (List (Reply V) × Table K V × U64)
  | [] => .ok ([], t, n)
  | c :: calls =>
      match c.outcome (t.get c.key n) (nextAt inc n c) with
      | .error f => .error f
      | .ok (reply, none) => do
          let (replies, t', n') ← autocommit inc t n calls
          return (reply :: replies, t', n')
      | .ok (reply, some x) => do
          let (replies, t', n') ← autocommit inc (t.put c.key x.orderKey x.intoData) x.seq calls
          return (reply :: replies, t', n')

/-- The machine runs two lists of calls one after the other. -/
theorem autocommit_append (inc : Bool) (calls calls' : List (Call K V)) :
    ∀ (t : Table K V) (n : U64), autocommit inc t n (calls ++ calls') = do
      let (replies, t', n') ← autocommit inc t n calls
      let (replies', t'', n'') ← autocommit inc t' n' calls'
      return (replies ++ replies', t'', n'') := by
  induction calls with
  | nil =>
      intro t n
      simp only [List.nil_append, autocommit, ok_bind]
      cases autocommit inc t n calls' <;> rfl
  | cons c calls ih =>
      intro t n
      rw [List.cons_append]
      simp only [autocommit]
      match c.outcome (t.get c.key n) (nextAt inc n c) with
      | .error f => rfl
      | .ok (reply, none) =>
          simp only [ih, bind_assoc, pure_bind, List.cons_append]
      | .ok (reply, some x) =>
          simp only [ih, bind_assoc, pure_bind, List.cons_append]

/-- **The tables between transactions**: well formed, at the counter, and without value at sequence
number `0`. -/
structure Settled (t : Table K V) (n : U64) : Prop where
  wf : Table.Wf t
  lastSeq : t.lastSeq.seq = n
  no_value : ∀ k d, ¬t.Holds k (.newNormal 0 ()) d

theorem settled_new : Settled (Table.new : Table K V) 0 :=
  ⟨Table.wf_new, rfl, fun _ _ h => Table.not_holds_new _ _ _ h⟩

omit [LinearOrder K] in
/-- A value that a call stages has a sequence number above the counter. -/
theorem seq_of_nextAt {inc : Bool} {n : U64} {c : Call K V} (hc : c.increaseSeq = true)
    {x : SeqMarked V} (h : nextAt inc n c = some x) :
    n ≤ x.seq ∧ (x.isTombstone = false → n < x.seq) := by
  obtain ⟨n', hn, rfl⟩ := Option.map_eq_some_iff.1 h
  rw [SeqMarked.seq_ofData]
  cases hv : c.value with
  | some v =>
      rw [hv, hc] at hn
      have hlt := U64.lt_of_succ? (by simpa using hn)
      exact ⟨hlt.le, fun _ => hlt⟩
  | none =>
      refine ⟨?_, fun ht => by cases ht⟩
      rw [hv] at hn
      cases inc
      · exact (Option.some_inj.1 (by simpa using hn)).le
      · exact (U64.lt_of_succ? (by simpa using hn)).le

omit [LinearOrder K] in
/-- Only the last sequence number has no next one. -/
theorem eq_max_of_nextAt {inc : Bool} {n : U64} {c : Call K V} (h : nextAt inc n c = none) :
    n = U64.max := by
  rw [nextAt, Option.map_eq_none_iff] at h
  split_ifs at h
  · exact U64.eq_max_of_succ? h
  · exact U64.eq_max_of_succ? h

theorem Settled.put {t : Table K V} {n : U64} (h : Settled t n) {inc : Bool} {c : Call K V}
    (hc : c.increaseSeq = true) {x : SeqMarked V} (hx : nextAt inc n c = some x) :
    Settled (t.put c.key x.orderKey x.intoData) x.seq := by
  obtain ⟨hle, hvalue⟩ := seq_of_nextAt hc hx
  refine ⟨h.wf.put (Table.fits_orderKey x) ?_, SeqMarked.seq_orderKey x, fun k d hk => ?_⟩
  · rw [h.lastSeq, SeqMarked.seq_orderKey]
    exact hle
  · rcases Table.holds_put.1 hk with ⟨-, hmark, -⟩ | ⟨hk, -⟩
    · -- a value is staged above the counter, so not at `0`
      have ht : x.isTombstone = false := by
        rw [← SeqMarked.isTombstone_orderKey, ← hmark]
        rfl
      have hzero : x.seq = 0 := by
        rw [← SeqMarked.seq_orderKey, ← hmark]
        rfl
      have hlt := hvalue ht
      rw [hzero] at hlt
      exact absurd hlt (not_lt.2 (Fin.zero_le n))
    · exact h.no_value k d hk

/-- On a settled table, the machine keeps it settled, and fails only past the last number. -/
theorem autocommit_settled {inc : Bool} {calls : List (Call K V)} :
    ∀ {t : Table K V} {n : U64}, Settled t n → (∀ c ∈ calls, c.increaseSeq = true) →
      autocommit inc t n calls = .error .overflow ∨
        ∃ replies t' n', autocommit inc t n calls = .ok (replies, t', n') ∧ Settled t' n' := by
  induction calls with
  | nil =>
      intro t n h _
      exact Or.inr ⟨[], t, n, rfl, h⟩
  | cons c calls ih =>
      intro t n h hcalls
      have hc := hcalls c List.mem_cons_self
      have hrest := fun c' hc' => hcalls c' (List.mem_cons_of_mem _ hc')
      simp only [autocommit]
      cases ho : c.outcome (t.get c.key n) (nextAt inc n c) with
      | error f =>
          rcases Call.outcome_eq_error ho with hget | ⟨rfl, -⟩
          · obtain ⟨x, hx⟩ := h.wf.paired.get_ok c.key n
            cases hx.symm.trans hget
          · exact Or.inl rfl
      | ok p =>
          obtain ⟨reply, sx⟩ := p
          cases sx with
          | none =>
              rcases ih h hrest with herr | ⟨replies, t', n', hok, hs⟩
              · exact Or.inl (by simp only [herr, error_bind])
              · exact Or.inr ⟨reply :: replies, t', n', by simp only [hok, ok_bind]; rfl, hs⟩
          | some x =>
              have hx : nextAt inc n c = some x :=
                (Call.outcome_eq_ok (fun y hy => (by
                  obtain ⟨n', -, rfl⟩ := Option.map_eq_some_iff.1 hy
                  rw [SeqMarked.seq_ofData])) ho).2 x rfl
              rcases ih (h.put hc hx) hrest with herr | ⟨replies, t', n', hok, hs⟩
              · exact Or.inl (by simp only [herr, error_bind])
              · exact Or.inr ⟨reply :: replies, t', n', by simp only [hok, ok_bind]; rfl, hs⟩

/-! ### The simulation -/

/-- The table a log of writes turns a table into. -/
def committed (t : Table K V) (log : List (K × SeqMarked V)) : Table K V :=
  ⟨t.inner.extend (log.map Table.entryOf),
    (log.getLast?.map fun e => e.2.orderKey).getD t.lastSeq⟩

theorem committed_concat (t : Table K V) (log : List (K × SeqMarked V)) (k : K)
    (x : SeqMarked V) :
    committed t (log ++ [(k, x)]) = (committed t log).put k x.orderKey x.intoData := by
  simp only [committed, List.map_append, List.map_singleton, BTreeMap.extend_append,
    BTreeMap.extend_singleton, List.getLast?_concat, Option.map_some, Option.getD_some]
  rfl

theorem holds_committed (t : Table K V) (log : List (K × SeqMarked V)) :
    (committed t log).Holds = Versions.overlay t.Holds (LogHolds log) := by
  funext k m d
  rw [Table.Holds, committed, ← BTreeMap.extend_fromIter]
  refine propext (BTreeMap.mem_extend_entries.trans (or_congr ?_ (and_congr_right fun _ => ?_)))
  · exact mem_fromIter_log log k m d
  · exact forall_congr' fun d' => not_congr (mem_fromIter_log log k m d')

/-- **A view halfway through its calls**, and the table the machine has then. -/
structure Simulates (t : Table K V) (inc : Bool) (log : List (K × SeqMarked V))
    (w : View (Table K V) K V) : Prop where
  base : Settled t t.lastSeq.seq
  staged : Staged t.lastSeq.seq log w
  dominates : Dominates t.lastSeq.seq inc log
  snapshot : w.snapshot = .new t.lastSeq.seq t
  setting : w.increaseSeqForTombstone = inc

namespace Simulates

variable {t : Table K V} {inc : Bool} {log : List (K × SeqMarked V)} {w : View (Table K V) K V}

theorem start (ht : Settled t t.lastSeq.seq) (inc : Bool) :
    Simulates t inc [] (View.ofTable t.lastSeq.seq t inc) :=
  ⟨ht, staged_nil (ofTable_changes t.lastSeq.seq t inc), dominates_nil _ _, rfl, rfl⟩

/-- **The view reads what the machine reads.** -/
theorem get_eq (h : Simulates t inc log w) (k : K) :
    w.get k = (committed t log).get k w.lastSeq := by
  have hseq : w.snapshot.snapshotSeq = t.lastSeq.seq := by rw [h.snapshot]; rfl
  have h₀ : w.NotFoundBelow := by
    refine notFoundBelow_of_staged h.staged hseq (Or.inr ?_)
    rw [h.snapshot]
    exact h.base.no_value
  rw [get_of_dominates h.staged h.dominates h₀,
    get_committed h.base.wf h.dominates (holds_committed t log),
    lastStaged_eq_upto h.staged.le_counter]
  cases lastStagedUpto log k w.lastSeq with
  | some x => rfl
  | none =>
      -- the counter admits the same records of the table as the snapshot
      rw [h.snapshot]
      obtain ⟨r, hr⟩ := t.exists_sees k t.lastSeq.seq
      have hr' : Versions.Sees t.Holds (Table.Upto w.lastSeq) k r := by
        refine hr.congr fun m d hm => ?_
        have hm' := h.base.wf.greatest.bound hm
        exact ⟨fun _ => hm'.trans h.staged.initial_le, fun _ => hm'⟩
      exact (Table.get_eq_of_sees hr).trans (Table.get_eq_of_sees hr').symm

theorem nextValue?_eq (h : Simulates t inc log w) (c : Call K V) :
    w.nextValue? c.increaseSeq c.value = nextAt inc w.lastSeq c := by
  rw [nextValue?, nextAt, h.setting]

theorem stage (h : Simulates t inc log w) {c : Call K V} (hc : c.increaseSeq = true)
    {x : SeqMarked V} (hx : w.nextValue? c.increaseSeq c.value = some x) :
    Simulates t inc (log ++ [(c.key, x)]) (w.stage c.key x) := by
  refine ⟨h.base, h.staged.stage c.key (le_of_nextValue? hx), ?_, h.snapshot, h.setting⟩
  have hdom := h.dominates
  rw [hc] at hx
  rw [← h.setting] at hdom ⊢
  exact hdom.stage h.staged c.key hx

/-- **A transaction is simulated**, by induction on its calls. -/
theorem run {calls : List (Call K V)} : ∀ {log : List (K × SeqMarked V)}
    {w : View (Table K V) K V}, Simulates t inc log w → (∀ c ∈ calls, c.increaseSeq = true) →
      (∃ f, w.run calls = .error f ∧
        autocommit inc (committed t log) w.lastSeq calls = .error f) ∨
      ∃ replies w' log', w.run calls = .ok (replies, w') ∧ Simulates t inc log' w' ∧
        autocommit inc (committed t log) w.lastSeq calls =
          .ok (replies, committed t log', w'.lastSeq) := by
  induction calls with
  | nil =>
      intro log w h _
      exact Or.inr ⟨[], w, log, rfl, h, rfl⟩
  | cons c calls ih =>
      intro log w h hcalls
      have hc := hcalls c List.mem_cons_self
      have hrest := fun c' hc' => hcalls c' (List.mem_cons_of_mem _ hc')
      rw [View.run, h.staged.ready.call_eq, h.get_eq, h.nextValue?_eq]
      simp only [autocommit]
      cases ho : c.outcome ((committed t log).get c.key w.lastSeq) (nextAt inc w.lastSeq c) with
      | error f => exact Or.inl ⟨f, rfl, rfl⟩
      | ok p =>
          obtain ⟨reply, sx⟩ := p
          cases sx with
          | none =>
              rcases ih h hrest with ⟨f, hrun, hauto⟩ | ⟨replies, w', log', hrun, hsim, hauto⟩
              · exact Or.inl ⟨f, by simp only [hrun, error_bind], by simp only [hauto, error_bind]⟩
              · refine Or.inr ⟨reply :: replies, w', log', ?_, hsim, ?_⟩
                · simp only [hrun, ok_bind]
                  rfl
                · simp only [hauto, ok_bind]
                  rfl
          | some x =>
              rw [← h.get_eq, ← h.nextValue?_eq] at ho
              have hx := (Call.outcome_eq_ok (fun y => nextValue?_intoData) ho).2 x rfl
              have hstage := h.stage hc hx
              have hih := ih hstage hrest
              rw [committed_concat] at hih
              rcases hih with ⟨f, hrun, hauto⟩ | ⟨replies, w', log', hrun, hsim, hauto⟩
              · exact Or.inl ⟨f, by simp only [hrun, error_bind],
                  (congrArg (fun r => r >>= _) hauto).trans rfl⟩
              · refine Or.inr ⟨reply :: replies, w', log', ?_, hsim, ?_⟩
                · simp only [hrun, ok_bind]
                  rfl
                · exact (congrArg (fun r => r >>= _) hauto).trans rfl

/-- **Committing the view leaves the machine's table.** -/
theorem commit_eq (h : Simulates t inc log w) : w.commit = .ok (committed t log, w.lastSeq) := by
  have hparts : w.intoParts = (t, w.lastSeq, w.changes) := by
    rw [intoParts, h.snapshot]
    rfl
  rw [commit, hparts]
  by_cases hlog : log = []
  · -- nothing staged: the transaction is skipped
    subst hlog
    have hinner : w.changes.inner.entries = [] := by
      rw [h.staged.inner]
      rfl
    simp only [hinner, List.isEmpty_nil, if_true]
    rfl
  · have hne : w.changes.inner.entries.isEmpty = false := by
      obtain ⟨e, he⟩ := List.exists_mem_of_ne_nil log hlog
      obtain ⟨d, hd⟩ := exists_logHolds (k := e.1) (x := e.2) he
      rw [← h.staged.holds_changes] at hd
      exact List.isEmpty_eq_false_iff_exists_mem.2 ⟨_, hd⟩
    have hle := (le_lastSeq_iff h.staged).2 (commitsOnto_of_dominates h.dominates hlog)
    have happly : t.apply w.changes = .ok (committed t log) := by
      refine Table.apply_eq_ok.2 ⟨hle, ?_⟩
      rw [committed, h.staged.inner, BTreeMap.extend_fromIter, h.staged.lastMarker]
      cases log using List.reverseRecOn with
      | nil => exact absurd rfl hlog
      | append_singleton log e => simp
    simp only [hne, Bool.false_eq_true, if_false, happly, ok_bind]
    rfl

end Simulates

/-- **A run of transactions is the machine's run of all their calls.** -/
theorem commitAll_eq_autocommit (inc : Bool) (cuts : List (List (Call K V))) :
    ∀ {t : Table K V} {n : U64}, Settled t n → (∀ c ∈ cuts.flatten, c.increaseSeq = true) →
      commitAll inc t n cuts = autocommit inc t n cuts.flatten := by
  induction cuts with
  | nil =>
      intro t n _ _
      rfl
  | cons calls rest ih =>
      intro t n h hcalls
      obtain ⟨hwf, rfl, hno⟩ := h
      have hfirst : ∀ c ∈ calls, c.increaseSeq = true := fun c hc => hcalls c (by simp [hc])
      have hrest : ∀ c ∈ rest.flatten, c.increaseSeq = true := by
        intro c hc
        exact hcalls c (by rw [List.flatten_cons]; exact List.mem_append_right _ hc)
      have hsettled : Settled t t.lastSeq.seq := ⟨hwf, rfl, hno⟩
      rw [List.flatten_cons, autocommit_append]
      have hnil : committed t [] = t := rfl
      rcases (Simulates.start hsettled inc).run hfirst with
        ⟨f, hrun, hauto⟩ | ⟨replies, w, log, hrun, hsim, hauto⟩
      · rw [hnil] at hauto
        rw [commitAll, hrun, error_bind]
        exact (congrArg (fun r => r >>= _) hauto).symm
      · rw [hnil, ofTable_lastSeq] at hauto
        have hsettled' : Settled (committed t log) w.lastSeq := by
          rcases autocommit_settled hsettled hfirst with herr | ⟨r, t', n', hok, hs⟩
          · cases hauto.symm.trans herr
          · cases hauto.symm.trans hok
            exact hs
        rw [commitAll, hrun, ok_bind, hauto, ok_bind]
        simp only [hsim.commit_eq, ok_bind, ih hsettled' hrest]

/-- **Transaction boundaries are unobservable.**  Two ways of cutting the same calls into
transactions, from the empty table at sequence number `0`, both run past the last sequence number,
or both return the same values, leave the same table and end at the same number. -/
theorem transactions_unobservable (inc : Bool) {calls : List (Call K V)}
    (hcalls : ∀ c ∈ calls, c.increaseSeq = true) {cuts cuts' : List (List (Call K V))}
    (h : cuts.flatten = calls) (h' : cuts'.flatten = calls) :
    (commitAll inc .new 0 cuts = .error .overflow ∧
      commitAll inc .new 0 cuts' = .error .overflow) ∨
    ∃ replies t n, commitAll inc .new 0 cuts = .ok (replies, t, n) ∧
      commitAll inc .new 0 cuts' = .ok (replies, t, n) := by
  subst h
  have hcut := commitAll_eq_autocommit inc cuts settled_new hcalls
  have hcut' := commitAll_eq_autocommit inc cuts' settled_new (h' ▸ hcalls)
  rw [h'] at hcut'
  rw [hcut, hcut']
  rcases autocommit_settled settled_new hcalls with herr | ⟨replies, t, n, hok, -⟩
  · exact Or.inl ⟨herr, herr⟩
  · exact Or.inr ⟨replies, t, n, hok, hok⟩

/-- Five calls in one transaction, and cut after a value that a later call reads: both end at `2`,
with four records. -/
theorem transactions_unobservable_sample :
    let calls : List (Call ℕ ℕ) := [.set 1 none, .set 1 (some 10), .fetchAndSet 1 (some 11),
      .fetchAndSet 2 none, .fetchAndSet 1 none]
    let records : List (Ent ℕ ℕ) := [(⟨1, .newTombstone 0⟩, none), (⟨1, .newNormal 1 ()⟩, some 10),
      (⟨1, .newNormal 2 ()⟩, some 11), (⟨1, .newTombstone 2⟩, none)]
    let table : Table ℕ ℕ := ⟨.fromIter records, .newTombstone 2⟩
    ∃ replies, commitAll false .new 0 [calls] = .ok (replies, table, 2) ∧
      commitAll false .new 0 [calls.take 2, [], calls.drop 2] = .ok (replies, table, 2) := by
  intro calls records table
  have hcalls : ∀ c ∈ calls, c.increaseSeq = true := by decide
  have hone : [calls].flatten = calls := rfl
  have hthree : [calls.take 2, [], calls.drop 2].flatten = calls := rfl
  obtain ⟨replies, hrun⟩ : ∃ replies, commitAll false .new 0 [calls] = .ok (replies, table, 2) :=
    ⟨_, rfl⟩
  rcases transactions_unobservable false hcalls hone hthree with ⟨hover, -⟩ | ⟨_, _, _, hok, hok'⟩
  · cases hrun.symm.trans hover
  · cases hrun.symm.trans hok
    exact ⟨replies, hrun, hok'⟩

end View

end MapApi
