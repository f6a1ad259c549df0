/-
**What the replies of a run tell.**

Each call replies with the marker it staged, or with the record before and the record after it.  The
replies of a run are a history of the table: a record reported as the one before is the record that
the last earlier call on the key reported or staged, in whatever transaction that was, and the
records the run leaves are the last ones staged.  So who keeps the replies knows every record
without reading the table, and no write between two calls on a key goes unreported.

A history is consistent for a scan as well.  Pages read at a snapshot make up the range there, when
each is read from the table as other transactions have left it by then.

Main definitions:

* `MapApi.Table.told` — the record of a key after some calls, as their replies tell.

Main results:

* `MapApi.MapState.run_history` — the map after a run is what its replies tell;
* `MapApi.Store.replies_tell` — **so is the table after a run of transactions**, and each record
  reported as the one before is what the replies up to there tell;
* `MapApi.Store.paged_scan` — **a scan in pages is consistent**, whatever runs between the pages.
-/

import MapApi.Isolation
import MapApi.MatchSeq

set_option relaxedAutoImplicit false
set_option autoImplicit false

namespace MapApi

/-! ### Replies -/

namespace MapState

variable {K V : Type} [LinearOrder K] {inc : Bool}

/-- **One call and its reply**: the map takes what the reply says is staged, and a record reported
as the one before was the record of the key. -/
theorem call_reply {s s' : MapState K V} {c : Call K V} {reply : Reply V}
    (h : s.call inc c = .ok (reply, s')) :
    s'.records = s.records.overlay (c.staged reply).toList ∧
      ∀ old new, reply = .beforeAfter old new → old = s.read c.key := by
  rw [call_eq] at h
  cases ho : c.outcome (.ok (s.read c.key)) (View.nextAt inc s.counter c) with
  | error f => rw [ho] at h; cases h
  | ok p =>
      obtain ⟨reply', sx⟩ := p
      rw [ho] at h
      have hstaged := (Call.outcome_eq_ok (fun x => View.eq_ofData_of_nextAt) ho).1
      have hbefore : ∀ old new, reply' = .beforeAfter old new → old = s.read c.key := by
        rintro old new rfl
        rcases Call.outcome_cases ho with ⟨-, o, hold, -, heq⟩ | ⟨x, -, -, heq | ⟨o, hold, -, heq⟩⟩
        · cases hold
          cases heq
          rfl
        · cases heq
        · cases hold
          cases heq
          rfl
      cases sx with
      | none =>
          cases h
          rw [hstaged]
          exact ⟨rfl, hbefore⟩
      | some x =>
          cases h
          rw [hstaged]
          exact ⟨(s.records.overlay_concat [] c.key x).symm, hbefore⟩

/-- **The map after a run is what its replies tell.** -/
theorem run_history {s s' : MapState K V} {calls : List (Call K V)} {replies : List (Reply V)}
    (hrun : Machine.run (call inc) s calls = .ok (replies, s')) :
    s'.records = s.records.overlay (stagedLog calls replies) := by
  induction calls using List.reverseRecOn generalizing s' replies with
  | nil =>
      cases hrun
      rfl
  | append_singleton calls c ih =>
      obtain ⟨rs, s₁, rs', hfirst, hlast, rfl⟩ := Machine.run_append_eq_ok.1 hrun
      obtain ⟨reply, hstep, rfl⟩ := Machine.run_singleton_eq_ok.1 hlast
      rw [(call_reply hstep).1, ih hfirst, stagedLog_concat (Machine.length_replies hfirst)]
      cases c.staged reply with
      | none => rw [Option.toList_none, List.append_nil, Shown.overlay_nil]
      | some e =>
          obtain ⟨k, x⟩ := e
          rw [Option.toList_some, Shown.overlay_concat]
          exact Shown.overlay_concat _ [] k x

end MapState

namespace Table

variable {K V : Type} [LinearOrder K]

/-- **The record of a key after some calls, as their replies tell**: the last one staged, or the one
in the table before the calls. -/
def told (t : Table K V) (n : U64) (calls : List (Call K V)) (replies : List (Reply V)) (k : K) :
    Except Fault (SeqMarked V) :=
  match lastStaged (stagedLog calls replies) k with
  | some x => .ok x
  | none => t.get k n

end Table

namespace Store

variable {K V : Type} [LinearOrder K] {P : KMerge.Picker Fault (Ent K V)} {inc : Bool}

/-- What is told is the record in the map with the staged writes on top. -/
theorem told_eq {t : Table K V} {n : U64} (h : View.Settled t n) (calls : List (Call K V))
    (replies : List (Reply V)) (k : K) {s : MapState K V}
    (hs : s.records = (t.shown n).overlay (stagedLog calls replies)) :
    t.told n calls replies k = .ok (s.read k) := by
  rw [Table.told, MapState.read, hs, Shown.overlay]
  cases lastStaged (stagedLog calls replies) k with
  | some x => rfl
  | none => exact settled_get h k

/-- **The replies tell the history of the table.**  Transactions run on a settled table, applied or
compacted.  After them every key reads as the replies tell; and each record that a call reports as
the one before is what the replies to the calls before it tell, across transactions. -/
theorem replies_tell {t t' : Table K V} {n n' : U64} (h : View.Settled t n)
    {txs : List (Transaction K V)} (htxs : ∀ tx ∈ txs, tx.Allocates)
    {replies : List (List (Reply V))}
    (hrun : Machine.run (transact P inc) (t, n) txs = .ok (replies, t', n')) :
    (∀ k, t'.get k n' = t.told n (txs.flatMap Transaction.calls) replies.flatten k) ∧
      ∀ (i : ℕ) (c : Call K V) (old new : SeqMarked V),
        (txs.flatMap Transaction.calls)[i]? = some c →
        replies.flatten[i]? = some (.beforeAfter old new) →
        t.told n ((txs.flatMap Transaction.calls).take i) (replies.flatten.take i) c.key =
          .ok old := by
  have hmap := run_map h htxs hrun
  refine ⟨fun k => ?_, fun i c old new hc hreply => ?_⟩
  · rw [told_eq h _ _ k (MapState.run_history hmap)]
    exact settled_get (settled_run h htxs hrun) k
  · generalize txs.flatMap Transaction.calls = calls at hmap hc ⊢
    generalize replies.flatten = rs at hmap hreply ⊢
    obtain ⟨hi, rfl⟩ := List.getElem?_eq_some_iff.1 hc
    have hsplit : calls = calls.take i ++ ([calls[i]] ++ calls.drop (i + 1)) := by
      rw [List.singleton_append, ← List.drop_eq_getElem_cons hi, List.take_append_drop]
    rw [hsplit] at hmap
    obtain ⟨before, s, rest, hbefore, hrest, rfl⟩ := Machine.run_append_eq_ok.1 hmap
    obtain ⟨one, s', after, hone, -, rfl⟩ := Machine.run_append_eq_ok.1 hrest
    obtain ⟨reply, hstep, rfl⟩ := Machine.run_singleton_eq_ok.1 hone
    have hlen : before.length = i := by
      rw [Machine.length_replies hbefore, List.length_take, min_eq_left hi.le]
    have htake : (before ++ ([reply] ++ after)).take i = before := by
      rw [← hlen, List.take_left]
    have hself : reply = .beforeAfter old new := by
      rw [← hlen, List.getElem?_append_right le_rfl, Nat.sub_self] at hreply
      exact Option.some_inj.1 hreply
    rw [htake, told_eq h _ _ _ (MapState.run_history hbefore),
      (MapState.call_reply hstep).2 old new hself]

/-- Two transactions, the second of them compacted, with a deletion that is not found. -/
theorem replies_tell_sample :
    let txs : List (Transaction ℕ ℕ) := [⟨[.set 1 (some 10), .fetchAndSet 2 none], none⟩,
      ⟨[.fetchAndSet 1 (some 11), .fetchAndSet 1 none], some 3⟩]
    ∃ replies t, Machine.run (transact .leftmost false) (.new, 0) txs = .ok (replies, t, 2) ∧
      t.get 1 2 = .ok (.newTombstone 2) ∧
      (Table.new.told 0 (txs.flatMap Transaction.calls) replies.flatten 1) =
        .ok (.newTombstone 2) := by
  intro txs
  have htxs : ∀ tx ∈ txs, tx.Allocates := by decide
  obtain ⟨replies, t, hrun⟩ : ∃ replies t, Machine.run (transact .leftmost false) (.new, 0) txs =
    .ok (replies, t, 2) := ⟨_, _, rfl⟩
  obtain ⟨htells, -⟩ := replies_tell View.settled_new htxs hrun
  have hget : t.get 1 2 = .ok (.newTombstone 2) := by
    cases hrun
    rfl
  exact ⟨replies, t, hrun, hget, (htells 1).symm.trans hget⟩

end Store

/-! ### Scans between transactions -/

/-- Reading each of some items with the one reader it is given, as with one reader for all. -/
theorem mapM_zip {α β γ ε : Type} {f : γ × α → Except ε β} {g : α → Except ε β} {readers : List γ} :
    ∀ {items : List α}, readers.length = items.length →
      (∀ p ∈ readers.zip items, f p = g p.2) → (readers.zip items).mapM f = items.mapM g := by
  induction readers with
  | nil =>
      intro items hlen _
      rw [List.eq_nil_of_length_eq_zero hlen.symm]
      rfl
  | cons r readers ih =>
      intro items hlen h
      cases items with
      | nil => cases hlen
      | cons a items =>
          have hrest := ih (Nat.succ.inj hlen) fun p hp => h p (List.mem_cons_of_mem _ hp)
          rw [List.zip_cons_cons, List.mapM_cons, List.mapM_cons, hrest,
            h (r, a) List.mem_cons_self]

theorem length_pages {K : Type} {e : Bound K} (cuts : List K) : ∀ s : Bound K,
    (pages s e cuts).length = cuts.length + 1 := by
  induction cuts with
  | nil =>
      intro s
      rfl
  | cons k cuts ih =>
      intro s
      rw [pages, List.length_cons, ih, List.length_cons]

namespace Store

variable {K V : Type} [LinearOrder K] {P : KMerge.Picker Fault (Ent K V)} {inc : Bool}

/-- **A scan in pages is consistent.**  A range is scanned at a snapshot below the last number of a
table, in pages cut at any of its keys.  Each page is read from the table as some transactions have
left it by then, whatever they call, none of them compacting past the snapshot.  The pages make up
the range as the snapshot showed it at the start. -/
theorem paged_scan {t : Table K V} (ht : t.Paired) {n s : U64} (hs : s < n) {r : RangeBounds K}
    (hr : ¬r.Inverted) {cuts : List K} (hcuts : cuts.Pairwise (· ≤ ·))
    (hin : ∀ k ∈ cuts, r.Contains k) {tables : List (Table K V)}
    (hlen : tables.length = cuts.length + 1)
    (htables : ∀ t' ∈ tables, ∃ txs replies n',
      Machine.run (transact P inc) (t, n) txs = .ok (replies, t', n') ∧
        ∀ m ∈ Transaction.watermarks txs, m ≤ s) :
    ((tables.zip (pages r.startBound r.endBound cuts)).mapM fun p =>
        ((Snapshot.new s p.1).range p.2 : Except Fault (List (KVResult K V)))).map List.flatten =
      (Snapshot.new s t).range r := by
  rw [mapM_zip (g := fun p => (Snapshot.new s t).range p) (hlen.trans (length_pages cuts _).symm)]
  · exact (ht.shows s).pages_eq hr hcuts hin
  · rintro ⟨t', p⟩ hp
    obtain ⟨txs, replies, n', hrun, hws⟩ := htables t' (List.of_mem_zip hp).1
    change (t'.range p s >>= _) = (t.range p s >>= _)
    rw [(snapshot_below_isolated hrun hs hws).2.2 p]

/-- Two pages, with a transaction between them that is compacted at the snapshot. -/
theorem paged_scan_sample :
    let txs : List (Transaction ℕ ℕ) := [⟨[.set 1 (some 10), .set 3 (some 30)], none⟩]
    let txs' : List (Transaction ℕ ℕ) := [⟨[.setWithoutSeqIncrement 4 none], none⟩,
      ⟨[.set 1 (some 11), .fetchAndSet 3 none], some 1⟩]
    ∃ replies t replies' t', Machine.run (transact .leftmost true) (.new, 0) txs =
        .ok (replies, t, 2) ∧
      Machine.run (transact .leftmost true) (t, 2) txs' = .ok (replies', t', 5) ∧
      (([t, t'].zip (pages .unbounded .unbounded [2])).mapM fun p =>
          ((Snapshot.new 1 p.1).range p.2 : Except Fault (List (KVResult ℕ ℕ)))).map List.flatten =
        (Snapshot.new 1 t).range .full := by
  intro txs txs'
  obtain ⟨replies, t, hrun⟩ : ∃ replies t, Machine.run (transact .leftmost true) (.new, 0) txs =
    .ok (replies, t, 2) := ⟨_, _, rfl⟩
  obtain ⟨replies', t', hrun'⟩ : ∃ replies' t', Machine.run (transact .leftmost true) (t, 2) txs' =
    .ok (replies', t', 5) := by
      cases hrun
      exact ⟨_, _, rfl⟩
  have hp : t.Paired := by
    cases hrun
    decide
  have hws : ∀ m ∈ Transaction.watermarks txs', m ≤ 1 := by
    intro m hm
    have hmem : m ∈ [1] := hm
    exact (List.mem_singleton.1 hmem).le
  have htables : ∀ u ∈ [t, t'], ∃ us rs m,
      Machine.run (transact .leftmost true) (t, 2) us = .ok (rs, u, m) ∧
        ∀ w ∈ Transaction.watermarks us, w ≤ 1 := by
    intro u hu
    rcases List.mem_pair.1 hu with rfl | rfl
    · exact ⟨[], [], 2, rfl, nofun⟩
    · exact ⟨txs', replies', 5, hrun', hws⟩
  have hcuts : ([2] : List ℕ).Pairwise (· ≤ ·) := List.pairwise_singleton _ 2
  exact ⟨replies, t, replies', t', hrun, hrun', paged_scan hp (by decide)
    RangeBounds.not_inverted_full hcuts (fun k _ => RangeBounds.contains_full k) rfl htables⟩

end Store

end MapApi
