/-
**Bulk writes are single writes.**

A table is written by one insertion at a time, by applying all changes of another table, and by
reading a stream.  The bulk writes are the fast ones, and are checked once where insertions are
checked one by one; what they leave is compared with the slow path here.  Applying what a view has
staged leaves what inserting its writes would have left, if the one check passes.  Reading a stream
in parts and applying the parts one after the other leaves what reading it at once would have left,
exactly as long as the parts come in the order of their greatest markers.

Main definitions:

* `MapApi.Table.insertOne`, `MapApi.Table.insertAll` — the slow path.

Main results:

* `MapApi.Table.insertAll_eq` — what the slow path leaves;
* `MapApi.View.commit_inserts` — **applying the changes of a view is inserting its writes**;
* `MapApi.Table.restore_in_parts` — **a stream is read in parts as at once**.
-/

import MapApi.MergeErrors
import MapApi.Transactions

set_option relaxedAutoImplicit false
set_option autoImplicit false

namespace MapApi

/-! ### Insertions one by one -/

namespace Table

variable {K V : Type} [LinearOrder K]

/-- Insert a value, or a tombstone, as it is numbered. -/
def insertOne (t : Table K V) (e : K × SeqMarked V) : Except Fault (Table K V) :=
  match e.2.intoData with
  | some value => unwrapInsert (t.insert e.1 e.2.internalSeq value)
  | none => unwrapInsert (t.insertTombstone e.1 e.2.internalSeq)

/-- Insert one after the other, up to the first that is refused. -/
def insertAll (t : Table K V) (log : List (K × SeqMarked V)) : Except Fault (Table K V) :=
  log.foldlM insertOne t

theorem insertOne_eq (t : Table K V) (e : K × SeqMarked V) :
    t.insertOne e = unwrapInsert (t.internalInsert e.1 e.2.orderKey e.2.intoData) := by
  obtain ⟨k, seq, marked⟩ := e
  cases marked <;> rfl

/-- **What insertions leave**, when their numbers never decrease and start at or above the
table's. -/
theorem insertAll_eq {t : Table K V} {log : List (K × SeqMarked V)}
    (hseqs : log.Pairwise fun e e' => e.2.seq ≤ e'.2.seq)
    (hbound : ∀ e ∈ log, t.lastSeq.seq ≤ e.2.seq) :
    t.insertAll log = .ok (View.committed t log) := by
  induction log using List.reverseRecOn with
  | nil => rfl
  | append_singleton log e ih =>
      obtain ⟨hlog, -, hlast⟩ := List.pairwise_append.1 hseqs
      have hrest := ih hlog fun e' he' => hbound e' (List.mem_append_left _ he')
      have hle : (View.committed t log).lastSeq.seq ≤ e.2.orderKey.seq := by
        rw [SeqMarked.seq_orderKey, View.committed]
        cases hl : log.getLast? with
        | none => exact hbound e (by simp)
        | some e' =>
            have hseq := hlast e' (List.mem_of_getLast? hl) e (List.mem_singleton_self e)
            simpa using hseq
      rw [insertAll, List.foldlM_append]
      change (t.insertAll log >>= _) = _
      rw [hrest, ok_bind, List.foldlM_cons, insertOne_eq, unwrapInsert_eq_ok.2 ⟨hle, rfl⟩, ok_bind,
        View.committed_concat t log e.1 e.2]
      rfl

end Table

namespace View

variable {K V : Type} [LinearOrder K]

/-- **Applying the changes of a view is inserting its writes.**  After any staging calls on a view
opened at the last number of a table, inserting the staged writes into the table one by one, in the
order of the calls, is never refused.  The table this leaves has the records of the table extended
by the changes; and if `apply` passes its assertion it leaves that table. -/
theorem commit_inserts {t : Table K V} {inc : Bool} {calls : List (Call K V)}
    {replies : List (Reply V)} {w : View (Table K V) K V}
    (hrun : (ofTable t.lastSeq.internalSeq t inc).run calls = .ok (replies, w)) :
    ∃ t', t.insertAll (stagedLog calls replies) = .ok t' ∧
      t'.inner = t.inner.extend w.intoParts.2.2.inner.entries ∧
      ∀ a, w.intoParts.1.apply w.intoParts.2.2 = .ok a → a = t' := by
  obtain ⟨hst, hparts⟩ := ofTable_run hrun
  refine ⟨_, Table.insertAll_eq hst.seqs hst.bound, ?_, fun a ha => ?_⟩
  · rw [hparts, hst.inner, BTreeMap.extend_fromIter]
    rfl
  · rw [hparts] at ha
    obtain ⟨hle, rfl⟩ := Table.apply_eq_ok.1 ha
    rw [committed, hst.inner, BTreeMap.extend_fromIter, hst.lastMarker]
    cases hl : (stagedLog calls replies).getLast? with
    | some e => rfl
    | none =>
        -- nothing is staged, and only a table at the least marker passes the assertion
        rw [hst.lastMarker, hl] at hle
        exact congrArg (Table.mk _) (le_antisymm (Marker.zero_le _) hle)

/-- Four calls of all kinds, one of them staging nothing. -/
theorem commit_inserts_sample :
    let t : Table ℕ ℕ := (Table.new.insert 1 4 10).2
    let calls : List (Call ℕ ℕ) := [.set 1 none, .fetchAndSetWithoutSeqIncrement 2 (some 20),
      .fetchAndSet 3 none, .set 1 (some 11)]
    ∃ replies w t', (ofTable 4 t true).run calls = .ok (replies, w) ∧
      w.intoParts.1.apply w.intoParts.2.2 = .ok t' ∧
      t.insertAll (stagedLog calls replies) = .ok t' := by
  intro t calls
  obtain ⟨replies, w, hrun⟩ : ∃ replies w, (ofTable 4 t true).run calls = .ok (replies, w) :=
    ⟨_, _, rfl⟩
  obtain ⟨a, ha⟩ : ∃ a, w.intoParts.1.apply w.intoParts.2.2 = .ok a := by
    cases hrun
    exact ⟨_, rfl⟩
  obtain ⟨t', hall, -, happly⟩ := commit_inserts (t := t) hrun
  exact ⟨replies, w, a, hrun, ha, (happly a ha) ▸ hall⟩

end View

/-! ### Streams read in parts -/

namespace Table

variable {K V : Type} [LinearOrder K]

/-- Reading two streams one after the other into a table. -/
theorem readStream_append (l l' : List (KVResult K V)) : ∀ t : Table K V,
    t.readStream (l ++ l') = (t.readStream l >>= fun t => t.readStream l') := by
  induction l with
  | nil =>
      intro t
      rfl
  | cons r l ih =>
      intro t
      match r with
      | .error e => rfl
      | .ok (k, x) => exact ih _

/-- A stream without errors is read into a table as into a new one, and added to the table. -/
theorem readStream_of_fromStream {l : List (KVResult K V)} {p : Table K V}
    (h : fromStream l = .ok p) (t : Table K V) :
    t.readStream l = .ok ⟨t.inner.extend p.inner.entries, max t.lastSeq p.lastSeq⟩ := by
  have hrecords : ∀ r ∈ l, IsRecord r := by
    have hnone : errors l = [] := by
      cases he : errors l with
      | nil => rfl
      | cons e es =>
          have hfail : fromStream l = .error e := readStream_error_iff l |>.2 (by rw [he]; rfl)
          cases hfail.symm.trans h
    intro r hr
    match r with
    | .ok e => exact ⟨e, rfl⟩
    | .error e =>
        have hmem : e ∈ errors l := List.mem_filterMap.2 ⟨_, hr, rfl⟩
        rw [hnone] at hmem
        cases hmem
  obtain ⟨s, rfl⟩ := exists_items hrecords
  rw [fromStream, readStream_items] at h
  cases h
  rw [readStream_items]
  have hmax : ∀ ms : List Marker, ms.foldl max t.lastSeq = max t.lastSeq (ms.foldl max .zero) := by
    intro ms
    have hassoc : ms.foldl max (max t.lastSeq .zero) = max t.lastSeq (ms.foldl max .zero) :=
      List.foldl_assoc
    rw [← hassoc, max_eq_left (Marker.zero_le _)]
  rw [hmax]
  refine congrArg (fun i => Except.ok (⟨i, _⟩ : Table K V)) ?_
  exact (BTreeMap.extend_fromIter t.inner (s.map entryOf)).symm

/-- The parts of a stream, applied one after the other to a table. -/
theorem foldlM_apply_iff {chunks : List (List (KVResult K V))} :
    ∀ {ts : List (Table K V)} {t : Table K V}, chunks.mapM fromStream = .ok ts →
      ∃ whole, t.readStream chunks.flatten = .ok whole ∧
        ∀ a, ts.foldlM apply t = .ok a ↔
          (t.lastSeq :: ts.map lastSeq).Pairwise (· ≤ ·) ∧ a = whole := by
  induction chunks with
  | nil =>
      intro ts t h
      cases h
      refine ⟨t, rfl, fun a => ?_⟩
      change Except.ok t = Except.ok a ↔ _
      rw [Except.ok.injEq, eq_comm]
      exact (and_iff_right (List.pairwise_singleton _ _)).symm
  | cons c chunks ih =>
      intro ts t h
      obtain ⟨p, ps, hp, hps, rfl⟩ := mapM_cons_eq_ok.1 h
      let t₁ : Table K V := ⟨t.inner.extend p.inner.entries, max t.lastSeq p.lastSeq⟩
      obtain ⟨whole, hwhole, hiff⟩ := ih (t := t₁) hps
      refine ⟨whole, ?_, fun a => ?_⟩
      · rw [List.flatten_cons, readStream_append, readStream_of_fromStream hp, ok_bind, hwhole]
      · rw [List.map_cons, List.foldlM_cons]
        by_cases hle : t.lastSeq ≤ p.lastSeq
        · have happly : t.apply p = .ok t₁ :=
            apply_eq_ok.2 ⟨hle, by simp only [t₁, max_eq_right hle]⟩
          have hpair : (t₁.lastSeq :: ps.map lastSeq).Pairwise (· ≤ ·) ↔
              (t.lastSeq :: p.lastSeq :: ps.map lastSeq).Pairwise (· ≤ ·) := by
            simp only [t₁, max_eq_right hle]
            refine ⟨fun hpw => List.pairwise_cons.2 ⟨fun m hm => ?_, hpw⟩,
              fun hpw => (List.pairwise_cons.1 hpw).2⟩
            rcases List.mem_cons.1 hm with rfl | hm
            · exact hle
            · exact le_trans hle ((List.pairwise_cons.1 hpw).1 m hm)
          rw [happly, ok_bind, hiff, hpair]
        · have happly : t.apply p = .error .applyBackwards := if_neg hle
          rw [happly, error_bind]
          refine ⟨nofun, fun ⟨hpw, _⟩ => absurd ?_ hle⟩
          exact (List.pairwise_cons.1 hpw).1 _ List.mem_cons_self

/-- The first part that fails to be read fails as the whole does. -/
theorem mapM_fromStream_error_iff {chunks : List (List (KVResult K V))} {e : IoError} :
    (chunks.mapM fromStream : Except IoError (List (Table K V))) = .error e ↔
      (errors chunks.flatten).head? = some e := by
  induction chunks with
  | nil => exact ⟨nofun, nofun⟩
  | cons c chunks ih =>
      have happend : errors (c ++ chunks.flatten) = errors c ++ errors chunks.flatten :=
        List.filterMap_append
      rw [List.flatten_cons, happend, List.mapM_cons]
      cases hc : (fromStream c : Except IoError (Table K V)) with
      | error e' =>
          have hhead := (readStream_error_iff c).1 hc
          rw [error_bind, List.head?_append, hhead]
          simp
      | ok p =>
          have hnone : errors c = [] := by
            cases he : errors c with
            | nil => rfl
            | cons e' es =>
                have hfail : fromStream c = .error e' :=
                  (readStream_error_iff c).2 (by rw [he]; rfl)
                cases hfail.symm.trans hc
          rw [ok_bind, hnone, List.nil_append, ← ih]
          cases (chunks.mapM fromStream : Except IoError (List (Table K V))) with
          | error e' => exact Iff.rfl
          | ok ps => exact ⟨nofun, nofun⟩

/-- **A stream is read in parts as at once.**  If a part holds an error, reading the parts and
reading the whole stream fail with the same one.  Otherwise the whole stream is read, and the tables
of the parts, applied one after the other to the empty table, make up the table of the whole,
exactly when their greatest markers ascend. -/
theorem restore_in_parts (chunks : List (List (KVResult K V))) :
    (∀ e, (chunks.mapM fromStream : Except IoError (List (Table K V))) = .error e ↔
      (fromStream chunks.flatten : Except IoError (Table K V)) = .error e) ∧
    ∀ ts : List (Table K V), chunks.mapM fromStream = .ok ts →
      ∃ whole, fromStream chunks.flatten = .ok whole ∧
        ∀ t, ts.foldlM apply new = .ok t ↔ (ts.map lastSeq).Pairwise (· ≤ ·) ∧ t = whole := by
  refine ⟨fun e => ?_, fun ts hts => ?_⟩
  · rw [mapM_fromStream_error_iff, fromStream, readStream_error_iff]
  · obtain ⟨whole, hwhole, hiff⟩ := foldlM_apply_iff (t := new) hts
    refine ⟨whole, hwhole, fun t => (hiff t).trans (and_congr_left fun _ => ?_)⟩
    exact ⟨fun hpw => (List.pairwise_cons.1 hpw).2,
      fun hpw => List.pairwise_cons.2 ⟨fun m _ => Marker.zero_le m, hpw⟩⟩

/-- Two parts in the order of their markers, and the same parts in the other order. -/
theorem restore_in_parts_sample :
    let first : List (KVResult ℕ ℕ) := items [(1, .newNormal 2 10), (2, .newNormal 1 20)]
    let second : List (KVResult ℕ ℕ) := items [(1, .newTombstone 3)]
    (∃ whole, fromStream (first ++ second) = .ok whole) ∧
    ∃ ts : List (Table ℕ ℕ), [second, first].mapM fromStream = .ok ts ∧
      ∀ t, ts.foldlM apply new ≠ .ok t := by
  intro first second
  obtain ⟨ts, hts⟩ : ∃ ts, ([first, second].mapM fromStream : Except IoError _) = .ok ts :=
    ⟨_, rfl⟩
  obtain ⟨whole, hwhole, -⟩ := (restore_in_parts [first, second]).2 ts hts
  obtain ⟨us, hus⟩ : ∃ us, ([second, first].mapM fromStream : Except IoError _) = .ok us :=
    ⟨_, rfl⟩
  obtain ⟨_, -, hiff⟩ := (restore_in_parts [second, first]).2 us hus
  refine ⟨⟨whole, by simpa using hwhole⟩, us, hus, fun t ht => absurd ((hiff t).1 ht).1 ?_⟩
  cases hus
  decide

end Table

end MapApi
