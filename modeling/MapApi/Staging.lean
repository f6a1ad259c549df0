/-
**What a sequence of staging calls leaves in a view.**

A view's changes are the replay of a log: the writes its calls have staged, in order, each at the
marker its call returned.  The sequence numbers of the log never decrease and end at the counter,
so the table of changes refuses no write; the only way a staging call fails is a failed read of the
snapshot, or the end of the counter.  When every call allocates for values, the markers never
decrease either, and are at or above the tombstone of the initial number.

Main definitions:

* `MapApi.lastStaged`, `MapApi.lastStagedUpto` — the last write of a key in a log, and the last one
  up to a sequence number;
* `MapApi.View.step` — one staging call, as the step of a machine;
* `MapApi.View.Staged`, `MapApi.View.Dominates` — the invariant of every view, and that of views
  whose calls allocate for values.

Main results:

* `MapApi.View.run_induction` — an invariant of one staged write is one of a whole run;
* `MapApi.View.staged_run`, `MapApi.View.dominates_run` — **a run stages the log its replies
  report**;
* `MapApi.View.run_stops` — a run fails only with a read of the snapshot, or with the counter at the
  last sequence number;
* `MapApi.View.Staged.sees_changes` — **the changes are read through the last staged writes**.
-/

import MapApi.Machine
import MapApi.Versions
import MapApi.View

set_option relaxedAutoImplicit false
set_option autoImplicit false

namespace MapApi

/-! ### Logs of staged writes -/

section Log

variable {K V : Type} [LinearOrder K]

/-- The last write of a key. -/
def lastStaged (log : List (K × SeqMarked V)) (k : K) : Option (SeqMarked V) :=
  (Versions.lastThat (fun e => e.1 = k) log).map Prod.snd

/-- **The last write of a key whose sequence number is at most `u`.** -/
def lastStagedUpto (log : List (K × SeqMarked V)) (k : K) (u : U64) : Option (SeqMarked V) :=
  (Versions.lastThat (fun e => e.1 = k ∧ e.2.seq ≤ u) log).map Prod.snd

/-- A staged write, as a versioned record. -/
def writeOf (e : K × SeqMarked V) : K × Marker × Option V := (e.1, e.2.orderKey, e.2.intoData)

/-- The records a log leaves. -/
abbrev LogHolds (log : List (K × SeqMarked V)) : Versions.Records K Marker (Option V) :=
  Versions.Replay (log.map writeOf)

theorem lastStaged_eq_upto {log : List (K × SeqMarked V)} {u : U64}
    (h : ∀ e ∈ log, e.2.seq ≤ u) (k : K) : lastStaged log k = lastStagedUpto log k u := by
  rw [lastStaged, lastStagedUpto, Versions.lastThat_congr fun e he => (and_iff_left (h e he)).symm]

theorem lastStaged_concat (log : List (K × SeqMarked V)) (e : K × SeqMarked V) (k : K) :
    lastStaged (log ++ [e]) k = if e.1 = k then some e.2 else lastStaged log k := by
  rw [lastStaged, Versions.lastThat_concat]
  split_ifs <;> rfl

/-- A key without last write is written nowhere. -/
theorem lastStaged_eq_none {log : List (K × SeqMarked V)} {k : K} :
    lastStaged log k = none ↔ ∀ x, (k, x) ∉ log := by
  rw [lastStaged, Option.map_eq_none_iff, Versions.lastThat_eq_none]
  constructor
  · intro h x hx
    exact h (k, x) hx rfl
  · rintro h ⟨k', x⟩ hx rfl
    exact h x hx

theorem lastStagedUpto_concat (log : List (K × SeqMarked V)) (e : K × SeqMarked V) (k : K)
    (u : U64) : lastStagedUpto (log ++ [e]) k u =
      if e.1 = k ∧ e.2.seq ≤ u then some e.2 else lastStagedUpto log k u := by
  rw [lastStagedUpto, Versions.lastThat_concat]
  split_ifs <;> rfl

theorem lastStagedUpto_mem {log : List (K × SeqMarked V)} {k : K} {u : U64} {x : SeqMarked V}
    (h : lastStagedUpto log k u = some x) : (k, x) ∈ log ∧ x.seq ≤ u := by
  obtain ⟨e, he, rfl⟩ := Option.map_eq_some_iff.1 h
  obtain ⟨hmem, rfl, hle⟩ := Versions.lastThat_mem he
  exact ⟨hmem, hle⟩

theorem lastStaged_mem {log : List (K × SeqMarked V)} {k : K} {x : SeqMarked V}
    (h : lastStaged log k = some x) : (k, x) ∈ log := by
  obtain ⟨e, he, rfl⟩ := Option.map_eq_some_iff.1 h
  obtain ⟨hmem, rfl⟩ := Versions.lastThat_mem he
  exact hmem

theorem lastStagedUpto_eq_none {log : List (K × SeqMarked V)} {k : K} {u : U64} :
    lastStagedUpto log k u = none ↔ ∀ e ∈ log, e.1 = k → u < e.2.seq := by
  simp [lastStagedUpto, Versions.lastThat_eq_none]

theorem lastWrite_map_writeOf (log : List (K × SeqMarked V)) (k : K) (u : U64) :
    Versions.lastWrite (Table.Upto u) (log.map writeOf) k =
      (lastStagedUpto log k u).map fun x => (x.orderKey, x.intoData) := by
  induction log using List.reverseRecOn with
  | nil => rfl
  | append_singleton log e ih =>
      rw [List.map_append, List.map_singleton, Versions.lastWrite_concat, lastStagedUpto_concat, ih]
      simp only [writeOf, Table.Upto, SeqMarked.seq_orderKey]
      split_ifs <;> rfl

/-- The map a log is collected into holds the records it leaves. -/
theorem mem_fromIter_log (log : List (K × SeqMarked V)) (k : K) (m : Marker) (d : Option V) :
    ((⟨k, m⟩, d) : Ent K V) ∈ (BTreeMap.fromIter (log.map Table.entryOf)).entries ↔
      LogHolds log k m d := by
  rw [← BTreeMap.get?_eq_some, BTreeMap.get?_fromIter]
  simp only [LogHolds, Versions.Replay]
  induction log using List.reverseRecOn with
  | nil => simp
  | append_singleton log e ih =>
      rw [List.map_append, List.map_append, List.map_singleton, List.map_singleton,
        BTreeMap.lastValue_concat, Versions.lastThat_concat]
      have hkey : (Table.entryOf e).1 = ⟨k, m⟩ ↔ (writeOf e).1 = k ∧ (writeOf e).2.1 = m := by
        rw [RecordKey.ext_iff]
        rfl
      by_cases h : (writeOf e).1 = k ∧ (writeOf e).2.1 = m
      · rw [if_pos (hkey.2 h), if_pos h]
        obtain ⟨rfl, rfl⟩ := h
        simp [Table.entryOf, writeOf]
      · rw [if_neg (mt hkey.1 h), if_neg h]
        exact ih

theorem LogHolds.mem {log : List (K × SeqMarked V)} {k : K} {m : Marker} {d : Option V}
    (h : LogHolds log k m d) : ∃ x, (k, x) ∈ log ∧ x.orderKey = m ∧ x.intoData = d := by
  obtain ⟨⟨k', x⟩, hmem, heq⟩ := List.mem_map.1 (Versions.Replay.mem h)
  cases heq
  exact ⟨x, hmem, rfl, rfl⟩

/-- A log leaves a record at every place it writes. -/
theorem exists_logHolds {log : List (K × SeqMarked V)} {k : K} {x : SeqMarked V}
    (h : (k, x) ∈ log) : ∃ d, LogHolds log k x.orderKey d := by
  have hmem : Table.entryOf (k, x) ∈ log.map Table.entryOf := List.mem_map_of_mem h
  obtain ⟨d, hd⟩ := BTreeMap.lastValue_isSome_of_mem hmem
  refine ⟨d, (mem_fromIter_log log k x.orderKey d).1 ?_⟩
  rw [← BTreeMap.get?_eq_some, BTreeMap.get?_fromIter]
  exact hd

end Log

theorem stagedLog_cons {K V : Type} (c : Call K V) (calls : List (Call K V)) (reply : Reply V)
    (replies : List (Reply V)) :
    stagedLog (c :: calls) (reply :: replies) =
      (c.staged reply).toList ++ stagedLog calls replies := by
  rw [stagedLog, List.zip_cons_cons, List.filterMap_cons]
  cases c.staged reply <;> rfl

theorem stagedLog_append {K V : Type} {calls : List (Call K V)} {replies : List (Reply V)}
    (h : replies.length = calls.length) (calls' : List (Call K V)) (replies' : List (Reply V)) :
    stagedLog (calls ++ calls') (replies ++ replies') =
      stagedLog calls replies ++ stagedLog calls' replies' := by
  rw [stagedLog, List.zip_append h.symm, List.filterMap_append]
  rfl

theorem stagedLog_concat {K V : Type} {calls : List (Call K V)} {replies : List (Reply V)}
    (h : replies.length = calls.length) (c : Call K V) (reply : Reply V) :
    stagedLog (calls ++ [c]) (replies ++ [reply]) =
      stagedLog calls replies ++ (c.staged reply).toList := by
  have hnil : stagedLog ([] : List (Call K V)) [] = [] := rfl
  rw [stagedLog_append h, stagedLog_cons, hnil, List.append_nil]

namespace View

variable {D K V : Type} [LinearOrder K]

/-! ### Runs -/

section Runs

variable [GetAtSeq D K V]

/-- One staging call, as the step of a machine. -/
def step (w : View D K V) (c : Call K V) : Except Fault (Reply V × View D K V) :=
  match w.call c with
  | (.error f, _) => .error f
  | (.ok reply, w') => .ok (reply, w')

theorem step_eq_ok {w w' : View D K V} {c : Call K V} {reply : Reply V} :
    w.step c = .ok (reply, w') ↔ w.call c = (.ok reply, w') := by
  rw [step]
  match w.call c with
  | (.error f, _) => simp
  | (.ok reply', w₁) => simp

theorem step_eq_error {w : View D K V} {c : Call K V} {f : Fault} :
    w.step c = .error f ↔ (w.call c).1 = .error f := by
  rw [step]
  match w.call c with
  | (.error e, _) => simp
  | (.ok reply, _) => simp

/-- A sequence of staging calls is a run of the machine. -/
theorem run_eq_machine (calls : List (Call K V)) : ∀ w : View D K V,
    w.run calls = Machine.run step w calls := by
  induction calls with
  | nil =>
      intro w
      rfl
  | cons c calls ih =>
      intro w
      rw [run, Machine.run, step]
      obtain ⟨r, w'⟩ := w.call c
      cases r with
      | error f => rfl
      | ok reply =>
          simp only [ih]
          cases Machine.run step w' calls <;> rfl

/-- A run is its first call and the run of the others. -/
theorem run_cons_eq_ok {w w' : View D K V} {c : Call K V} {calls : List (Call K V)}
    {replies : List (Reply V)} :
    w.run (c :: calls) = .ok (replies, w') ↔
      ∃ reply w₁ rest, w.call c = (.ok reply, w₁) ∧ w₁.run calls = .ok (rest, w') ∧
        replies = reply :: rest := by
  rw [run]
  match w.call c with
  | (.error f, _) => simp
  | (.ok reply, w₁) =>
      simp only [bind_eq_ok, Prod.exists, pure_eq_ok, Except.ok.injEq, Prod.mk.injEq]
      constructor
      · rintro ⟨rest, w₂, hrun, rfl, rfl⟩
        exact ⟨reply, w₁, rest, ⟨rfl, rfl⟩, hrun, rfl⟩
      · rintro ⟨reply', w₁', rest, ⟨rfl, rfl⟩, hrun, rfl⟩
        exact ⟨rest, w', hrun, rfl, rfl⟩

/-- Every call of a run has a reply. -/
theorem length_replies {calls : List (Call K V)} {w w' : View D K V} {replies : List (Reply V)}
    (h : w.run calls = .ok (replies, w')) : replies.length = calls.length :=
  Machine.length_replies ((run_eq_machine calls w).symm.trans h)

/-- A run of two sequences of calls. -/
theorem run_append_eq_ok {calls calls' : List (Call K V)} {w w' : View D K V}
    {replies : List (Reply V)} :
    w.run (calls ++ calls') = .ok (replies, w') ↔
      ∃ r w₁ r', w.run calls = .ok (r, w₁) ∧ w₁.run calls' = .ok (r', w') ∧
        replies = r ++ r' := by
  simp only [run_eq_machine]
  exact Machine.run_append_eq_ok

theorem run_concat_eq_ok {w w' : View D K V} {calls : List (Call K V)} {c : Call K V}
    {replies : List (Reply V)} :
    w.run (calls ++ [c]) = .ok (replies, w') ↔
      ∃ r reply w₁, w.run calls = .ok (r, w₁) ∧ w₁.call c = (.ok reply, w') ∧
        replies = r ++ [reply] := by
  rw [run_append_eq_ok]
  constructor
  · rintro ⟨r, w₁, r', h, h', rfl⟩
    obtain ⟨reply, w₂, rest, hc, hrest, rfl⟩ := run_cons_eq_ok.1 h'
    cases hrest
    exact ⟨r, reply, w₁, h, hc, rfl⟩
  · rintro ⟨r, reply, w₁, h, hc, rfl⟩
    exact ⟨r, w₁, [reply], h, run_cons_eq_ok.2 ⟨reply, w', [], hc, rfl, rfl⟩, rfl⟩

/-- **A run goes on from each of its prefixes.** -/
theorem run_of_prefix {w w₁ w' : View D K V} {calls₁ calls : List (Call K V)}
    {replies₁ replies : List (Reply V)} (hrun : w.run calls = .ok (replies, w'))
    (hpre : calls₁ <+: calls) (hrun₁ : w.run calls₁ = .ok (replies₁, w₁)) :
    ∃ rest replies₂, calls = calls₁ ++ rest ∧ w₁.run rest = .ok (replies₂, w') := by
  obtain ⟨rest, rfl⟩ := hpre
  obtain ⟨r, w₂, r', hr, hr', -⟩ := run_append_eq_ok.1 hrun
  cases hrun₁.symm.trans hr
  exact ⟨rest, r', rfl, hr'⟩

/-- The call of a run that comes after a prefix of it. -/
theorem run_of_prefix_concat {w w₁ w' : View D K V} {calls₁ calls : List (Call K V)}
    {c : Call K V} {replies₁ replies : List (Reply V)} (hrun : w.run calls = .ok (replies, w'))
    (hpre : calls₁ ++ [c] <+: calls) (hrun₁ : w.run calls₁ = .ok (replies₁, w₁)) :
    ∃ reply w₂, w₁.call c = (.ok reply, w₂) ∧
      w.run (calls₁ ++ [c]) = .ok (replies₁ ++ [reply], w₂) := by
  obtain ⟨rest, rfl⟩ := hpre
  obtain ⟨r, w₂, -, hrun₂, -, -⟩ := run_append_eq_ok.1 hrun
  obtain ⟨r₁, reply, w₁', hrun₁', hcall, rfl⟩ := run_concat_eq_ok.1 hrun₂
  cases hrun₁.symm.trans hrun₁'
  exact ⟨reply, w₂, hcall, hrun₂⟩

/-- A call that fails leaves the view; it fails with the read before it, or with the counter at the
last sequence number. -/
theorem Ready.call_eq_error {w w' : View D K V} (h : w.Ready) {c : Call K V} {f : Fault}
    (hc : w.call c = (.error f, w')) :
    w' = w ∧ (w.get c.key = .error f ∨ (f = .overflow ∧ w.lastSeq = U64.max)) := by
  rw [h.call_eq] at hc
  cases ho : c.outcome (w.get c.key) (w.nextValue? c.increaseSeq c.value) with
  | error e =>
      rw [ho] at hc
      cases hc
      refine ⟨rfl, (Call.outcome_eq_error ho).imp_right fun hover => ⟨hover.1, ?_⟩⟩
      exact eq_max_of_nextValue? hover.2
  | ok p =>
      obtain ⟨reply, sx⟩ := p
      rw [ho] at hc
      cases sx <;> cases hc

/-- One successful call stages nothing, or the write its reply reports. -/
theorem Ready.call_cases {w w' : View D K V} (h : w.Ready) {c : Call K V} {reply : Reply V}
    (hc : w.call c = (.ok reply, w')) :
    (c.staged reply = none ∧ w' = w) ∨
      ∃ x, c.staged reply = some (c.key, x) ∧ w.nextValue? c.increaseSeq c.value = some x ∧
        w' = w.stage c.key x := by
  rw [h.call_eq] at hc
  cases ho : c.outcome (w.get c.key) (w.nextValue? c.increaseSeq c.value) with
  | error f => rw [ho] at hc; cases hc
  | ok p =>
      obtain ⟨reply', sx⟩ := p
      obtain ⟨hstaged, hnext⟩ := Call.outcome_eq_ok (fun x => nextValue?_intoData) ho
      rw [ho] at hc
      cases sx with
      | none =>
          cases hc
          exact Or.inl ⟨hstaged, rfl⟩
      | some x =>
          cases hc
          exact Or.inr ⟨x, hstaged, hnext x rfl, rfl⟩

/-- **An invariant of one staged write is an invariant of runs.** -/
theorem run_induction {I : List (K × SeqMarked V) → View D K V → Prop}
    (hready : ∀ {log w}, I log w → w.Ready) {w : View D K V} (hinit : I [] w)
    {calls : List (Call K V)}
    (hstage : ∀ calls₁ c replies₁ w₁ x, calls₁ ++ [c] <+: calls →
      w.run calls₁ = .ok (replies₁, w₁) → I (stagedLog calls₁ replies₁) w₁ →
      w₁.nextValue? c.increaseSeq c.value = some x →
      I (stagedLog calls₁ replies₁ ++ [(c.key, x)]) (w₁.stage c.key x)) :
    ∀ {replies w'}, w.run calls = .ok (replies, w') → I (stagedLog calls replies) w' := by
  induction calls using List.reverseRecOn with
  | nil =>
      intro replies w' h
      cases h
      exact hinit
  | append_singleton calls c ih =>
      intro replies w' h
      obtain ⟨r, reply, w₁, hr, hc, rfl⟩ := run_concat_eq_ok.1 h
      have hI : I (stagedLog calls r) w₁ := by
        refine ih (fun calls₁ c₁ replies₁ w₂ x hpre => ?_) hr
        exact hstage calls₁ c₁ replies₁ w₂ x (hpre.trans (List.prefix_append calls [c]))
      rw [stagedLog_concat (length_replies hr)]
      rcases (hready hI).call_cases hc with ⟨hnone, rfl⟩ | ⟨x, hsome, hnext, rfl⟩
      · rw [hnone, Option.toList_none, List.append_nil]
        exact hI
      · rw [hsome, Option.toList_some]
        exact hstage calls c r w₁ x (List.prefix_refl _) hr hI hnext

end Runs

/-! ### The invariant -/

/-- **The view has staged a log** on a counter that started at `n`: the changes are its replay, and
the last marker and the counter are those of its last write. -/
structure Staged (n : U64) (log : List (K × SeqMarked V)) (w : View D K V) : Prop where
  inner : w.changes.inner = .fromIter (log.map Table.entryOf)
  lastMarker : w.changes.lastSeq = (log.getLast?.map fun e => e.2.orderKey).getD Marker.zero
  counter : w.lastSeq = (log.getLast?.map fun e => e.2.seq).getD n
  seqs : log.Pairwise fun e e' => e.2.seq ≤ e'.2.seq
  bound : ∀ e ∈ log, n ≤ e.2.seq

/-- A view without changes has staged nothing. -/
theorem staged_nil {w : View D K V} (h : w.changes = .new) : Staged w.lastSeq [] w :=
  ⟨by rw [h]; rfl, by rw [h]; rfl, rfl, List.Pairwise.nil, nofun⟩

namespace Staged

variable {n : U64} {log : List (K × SeqMarked V)} {w : View D K V}

theorem le_counter (h : Staged n log w) : ∀ e ∈ log, e.2.seq ≤ w.lastSeq := by
  intro e he
  cases log using List.reverseRecOn with
  | nil => cases he
  | append_singleton log a =>
      have hc : w.lastSeq = a.2.seq := by simpa using h.counter
      rw [hc]
      rcases List.mem_append.1 he with he | he
      · exact (List.pairwise_append.1 h.seqs).2.2 e he a (List.mem_singleton.2 rfl)
      · rw [List.mem_singleton.1 he]

theorem initial_le (h : Staged n log w) : n ≤ w.lastSeq := by
  cases log using List.reverseRecOn with
  | nil => exact h.counter.ge
  | append_singleton log a =>
      have hc : w.lastSeq = a.2.seq := by simpa using h.counter
      rw [hc]
      exact h.bound a (by simp)

theorem ready (h : Staged n log w) : w.Ready := by
  cases log using List.reverseRecOn with
  | nil =>
      have hm : w.changes.lastSeq = Marker.zero := h.lastMarker
      rw [Ready, hm]
      exact Fin.zero_le _
  | append_singleton log a =>
      have hm : w.changes.lastSeq = a.2.orderKey := by simpa using h.lastMarker
      rw [Ready, hm, SeqMarked.seq_orderKey]
      exact h.le_counter a (by simp)

theorem stage (h : Staged n log w) (k : K) {x : SeqMarked V} (hx : w.lastSeq ≤ x.seq) :
    Staged n (log ++ [(k, x)]) (w.stage k x) := by
  refine ⟨?_, by simp, by simp, ?_, ?_⟩
  · rw [List.map_append, List.map_singleton, BTreeMap.fromIter, BTreeMap.extend_append]
    change w.changes.inner.insert _ _ = _
    rw [h.inner]
    rfl
  · refine List.pairwise_append.2 ⟨h.seqs, List.pairwise_singleton _ _, fun e he e' he' => ?_⟩
    rw [List.mem_singleton.1 he']
    exact (h.le_counter e he).trans hx
  · intro e he
    rcases List.mem_append.1 he with he | he
    · exact h.bound e he
    · rw [List.mem_singleton.1 he]
      exact h.initial_le.trans hx

/-- The changes are the replay of the log. -/
theorem holds_changes (h : Staged n log w) : w.changes.Holds = LogHolds log := by
  funext k m d
  rw [Table.Holds, h.inner]
  exact propext (mem_fromIter_log log k m d)

theorem paired (h : Staged n log w) : w.changes.Paired := by
  intro k m d hm
  rw [h.holds_changes] at hm
  obtain ⟨x, -, rfl, rfl⟩ := LogHolds.mem hm
  exact Table.fits_orderKey x

/-- The records of the changes stand between the initial number and the counter. -/
theorem seq_of_holds (h : Staged n log w) {k : K} {m : Marker} {d : Option V}
    (hm : w.changes.Holds k m d) : n ≤ m.seq ∧ m.seq ≤ w.lastSeq := by
  rw [h.holds_changes] at hm
  obtain ⟨x, hx, rfl, -⟩ := LogHolds.mem hm
  rw [SeqMarked.seq_orderKey]
  exact ⟨h.bound _ hx, h.le_counter _ hx⟩

end Staged

section Runs

variable [GetAtSeq D K V]

/-- **A run stages the log its replies report**, and keeps the snapshot and the setting. -/
theorem staged_run {w w' : View D K V} (hw : w.changes = .new) {calls : List (Call K V)}
    {replies : List (Reply V)} (h : w.run calls = .ok (replies, w')) :
    Staged w.lastSeq (stagedLog calls replies) w' ∧ w'.snapshot = w.snapshot ∧
      w'.increaseSeqForTombstone = w.increaseSeqForTombstone := by
  refine run_induction (I := fun log w' => Staged w.lastSeq log w' ∧ w'.snapshot = w.snapshot ∧
    w'.increaseSeqForTombstone = w.increaseSeqForTombstone) (fun hI => hI.1.ready)
    ⟨staged_nil hw, rfl, rfl⟩ ?_ h
  rintro _ c _ w₁ x _ _ ⟨hst, hsnap, hinc⟩ hnext
  exact ⟨hst.stage c.key (le_of_nextValue? hnext), hsnap, hinc⟩

/-- A read of the view fails only with a read of its snapshot. -/
theorem Staged.get_eq_error {n : U64} {log : List (K × SeqMarked V)} {w : View D K V}
    (h : Staged n log w) {k : K} {f : Fault} (hget : w.get k = .error f) :
    w.snapshot.get k = .error f := by
  obtain ⟨x, hx⟩ := h.paired.get_ok k w.lastSeq
  rw [get, hx, ok_bind] at hget
  split_ifs at hget with hfound
  · cases hs : w.snapshot.get k with
    | error e => rw [hs] at hget; cases hget; rfl
    | ok y => rw [hs] at hget; cases hget
  · cases hget

/-- One call goes on staging. -/
theorem staged_preserved (n : U64) (snapshot : Snapshot D) :
    Machine.Preserves
      (fun w : View D K V => (∃ log, Staged n log w) ∧ w.snapshot = snapshot) (fun _ => True)
      step := by
  rintro w c reply w' ⟨⟨log, h⟩, hsnap⟩ - hstep
  rcases h.ready.call_cases (step_eq_ok.1 hstep) with ⟨-, rfl⟩ | ⟨x, -, hx, rfl⟩
  · exact ⟨⟨log, h⟩, hsnap⟩
  · exact ⟨⟨_, h.stage c.key (le_of_nextValue? hx)⟩, hsnap⟩

/-- **Where a run fails**: the calls before succeed, and one call fails with a read of the snapshot,
or with the counter at the last sequence number. -/
theorem run_stops {n : U64} {log : List (K × SeqMarked V)} {w : View D K V} (h : Staged n log w)
    {calls : List (Call K V)} {f : Fault} (hrun : w.run calls = .error f) :
    ∃ before c after replies w₁, calls = before ++ c :: after ∧
      w.run before = .ok (replies, w₁) ∧
      (w.snapshot.get c.key = .error f ∨ (f = .overflow ∧ w₁.lastSeq = U64.max)) := by
  rw [run_eq_machine] at hrun
  obtain ⟨before, c, after, replies, w₁, rfl, hbefore, hstep⟩ := Machine.run_eq_error.1 hrun
  obtain ⟨⟨log₁, h₁⟩, hsnap⟩ :=
    (staged_preserved n w.snapshot).run (fun _ _ => trivial) ⟨⟨log, h⟩, rfl⟩ hbefore
  refine ⟨before, c, after, replies, w₁, rfl, (run_eq_machine before w).trans hbefore, ?_⟩
  refine (h₁.ready.call_eq_error (Prod.ext (step_eq_error.1 hstep) rfl)).2.imp_left fun hget => ?_
  exact hsnap ▸ h₁.get_eq_error hget

/-- A run fails only with a read of the snapshot, or past the last sequence number. -/
theorem run_error {n : U64} {log : List (K × SeqMarked V)} {w : View D K V} (h : Staged n log w)
    {calls : List (Call K V)} {f : Fault} (hrun : w.run calls = .error f) :
    f = .overflow ∨ ∃ k : K, w.snapshot.get k = .error f := by
  obtain ⟨-, c, -, -, -, -, -, hget | ⟨hover, -⟩⟩ := run_stops h hrun
  · exact Or.inr ⟨c.key, hget⟩
  · exact Or.inl hover

end Runs

/-! ### Runs that allocate for every value -/

/-- **The writes of a log dominate**: their markers never decrease, and are at or above the
tombstone of the initial sequence number, strictly so when deletions allocate as well. -/
structure Dominates (n : U64) (inc : Bool) (log : List (K × SeqMarked V)) : Prop where
  growing : log.Pairwise fun e e' => e.2.orderKey ≤ e'.2.orderKey
  above : ∀ e ∈ log, SeqMarked.newTombstone n ≤ e.2.orderKey
  strict : inc = true → ∀ e ∈ log, n < e.2.seq

omit [LinearOrder K] in
theorem dominates_nil (n : U64) (inc : Bool) : Dominates n inc ([] : List (K × SeqMarked V)) :=
  ⟨List.Pairwise.nil, nofun, nofun⟩

/-- A write that allocates for values keeps the log dominating. -/
theorem Dominates.stage {n : U64} {log : List (K × SeqMarked V)} {w : View D K V}
    (h : Dominates n w.increaseSeqForTombstone log) (hst : Staged n log w) (k : K)
    {value : Option V} {x : SeqMarked V} (hx : w.nextValue? true value = some x) :
    Dominates n w.increaseSeqForTombstone (log ++ [(k, x)]) := by
  have htop := newTombstone_le_of_nextValue? hx
  refine ⟨List.pairwise_append.2 ⟨h.growing, List.pairwise_singleton _ _, fun e he e' he' => ?_⟩,
    fun e he => ?_, fun hinc e he => ?_⟩
  · rw [List.mem_singleton.1 he']
    refine le_trans (Marker.le_newTombstone_iff.2 ?_) htop
    rw [SeqMarked.seq_orderKey]
    exact hst.le_counter e he
  · rcases List.mem_append.1 he with he | he
    · exact h.above e he
    · rw [List.mem_singleton.1 he]
      exact le_trans (Marker.le_newTombstone_iff.2 hst.initial_le) htop
  · rcases List.mem_append.1 he with he | he
    · exact h.strict hinc e he
    · rw [List.mem_singleton.1 he]
      exact lt_of_le_of_lt hst.initial_le (lt_of_nextValue? hinc hx)

/-- **A run whose calls allocate for values stages a dominating log.** -/
theorem dominates_run [GetAtSeq D K V] {w w' : View D K V} (hw : w.changes = .new)
    {calls : List (Call K V)} (hcalls : ∀ c ∈ calls, c.increaseSeq = true)
    {replies : List (Reply V)} (h : w.run calls = .ok (replies, w')) :
    Dominates w.lastSeq w.increaseSeqForTombstone (stagedLog calls replies) := by
  have hI := run_induction (I := fun log w' => Staged w.lastSeq log w' ∧
    w'.increaseSeqForTombstone = w.increaseSeqForTombstone ∧
    Dominates w.lastSeq w'.increaseSeqForTombstone log) (fun hI => hI.1.ready)
    ⟨staged_nil hw, rfl, dominates_nil _ _⟩ ?_ h
  · rw [← hI.2.1]
    exact hI.2.2
  · rintro _ c _ w₁ x hpre _ ⟨hst, hinc, hdom⟩ hnext
    have hc : c.increaseSeq = true := hcalls c (hpre.subset (by simp))
    rw [hc] at hnext
    exact ⟨hst.stage c.key (le_of_nextValue? hnext), hinc, hdom.stage hst c.key hnext⟩

/-- A dominating log is read through the last writes. -/
theorem Dominates.sees {n : U64} {inc : Bool} {log : List (K × SeqMarked V)}
    (h : Dominates n inc log) (k : K) (u : U64) :
    Versions.Sees (LogHolds log) (Table.Upto u) k
      ((lastStagedUpto log k u).map fun x => (x.orderKey, x.intoData)) := by
  rw [← lastWrite_map_writeOf]
  refine Versions.sees_replay (List.pairwise_map.2 (h.growing.imp ?_)) k
  exact fun hle _ => hle

/-- **The changes are read through the last staged writes.** -/
theorem Staged.sees_changes {n : U64} {inc : Bool} {log : List (K × SeqMarked V)} {w : View D K V}
    (h : Staged n log w) (hdom : Dominates n inc log) (k : K) :
    Versions.Sees w.changes.Holds (Table.Upto w.lastSeq) k
      ((lastStaged log k).map fun x => (x.orderKey, x.intoData)) := by
  rw [h.holds_changes, lastStaged_eq_upto h.le_counter]
  exact hdom.sees k w.lastSeq

/-! ### Point reads -/

section Reads

variable [GetAtSeq D K V] {w : View D K V} {k : K}

/-- The newest staged record of a key is read, unless it reads as *not found*. -/
theorem get_of_isLatest (hp : w.changes.Paired) {x : SeqMarked V}
    (h : Versions.IsLatest w.changes.Holds (Table.Upto w.lastSeq) k x.orderKey x.intoData)
    (hfound : x.isNotFound = false) : w.get k = .ok x := by
  have hx := hp.get_of_sees h
  rw [SeqMarked.seq_orderKey, ← SeqMarked.eq_ofData] at hx
  rw [get, hx, ok_bind, hfound]
  rfl

/-- Behind a staged record that reads as *not found*, the snapshot is read. -/
theorem get_of_isLatest_notFound (hp : w.changes.Paired) {x : SeqMarked V}
    (h : Versions.IsLatest w.changes.Holds (Table.Upto w.lastSeq) k x.orderKey x.intoData)
    (hnf : x.isNotFound = true) : w.get k = w.snapshot.get k := by
  have hx := hp.get_of_sees h
  rw [SeqMarked.seq_orderKey, ← SeqMarked.eq_ofData] at hx
  rw [get, hx, ok_bind, SeqMarked.isNotFound_iff.1 hnf]
  simp only [SeqMarked.isNotFound_newNotFound, not_true_eq_false, if_false]
  cases w.snapshot.get k <;> rfl

/-- A key without staged record is read from the snapshot. -/
theorem get_of_not_staged (h : ∀ m d, w.changes.Holds k m d → ¬Table.Upto w.lastSeq m) :
    w.get k = w.snapshot.get k := by
  have hc : w.changes.get k w.lastSeq = .ok .newNotFound :=
    Table.get_eq_of_sees (r := none) h
  rw [get, hc, ok_bind]
  simp only [SeqMarked.isNotFound_newNotFound, not_true_eq_false, if_false]
  cases w.snapshot.get k <;> rfl

end Reads

end View

end MapApi
