/-
**Range reads that run into errors.**

A stream of a level, or of the reader under a view, may hold an `io::Error` at any place.  The
comparator of the merge leaves errors where they are, which is no order, so nothing can be said of
where in the merged stream a record ends up.  What can be said is that nothing is hidden: every
error of every stream is in the result, each record listed comes from a stream, and each record of a
stream is listed or outdone by a newer one of its key.  Whoever collects the result, as
`Table::from_stream` does, fails exactly when a stream holds an error.

Main definitions:

* `MapApi.errors`, `MapApi.records` — the two kinds of items of a stream;
* `MapApi.MergedFrom` — what a merged stream keeps of its streams.

Main results:

* `MapApi.mergeStreams_keeps` — the merge keeps it;
* `MapApi.compactedRange_keeps_errors` — **a range read over levels hides no error and no record**;
* `MapApi.View.range_keeps_errors` — **nor does a range read of a view**, and an export of it fails
  with the first error of its reader.
-/

import MapApi.Interleaving
import MapApi.LevelNest
import MapApi.TableInvariant
import MapApi.View

set_option relaxedAutoImplicit false
set_option autoImplicit false

namespace MapApi

variable {K V : Type}

/-! ### Errors and records of a stream -/

/-- The errors of a stream, in its order. -/
def errors (l : List (KVResult K V)) : List IoError :=
  l.filterMap fun
    | .error e => some e
    | .ok _ => none

/-- The records of a stream, in its order. -/
def records (l : List (KVResult K V)) : List (K × SeqMarked V) := l.filterMap Except.toOption

instance : DecidablePred (IsRecord : KVResult K V → Prop) := fun r =>
  match r with
  | .ok e => isTrue ⟨e, rfl⟩
  | .error _ => isFalse nofun

theorem mem_records {l : List (KVResult K V)} {e : K × SeqMarked V} :
    e ∈ records l ↔ (.ok e : KVResult K V) ∈ l := by
  rw [records, List.mem_filterMap]
  constructor
  · rintro ⟨r, hr, he⟩
    cases r with
    | error f => cases he
    | ok e' =>
        cases he
        exact hr
  · intro h
    exact ⟨_, h, rfl⟩

/-- The errors of a stream are among the items that are not records. -/
theorem errors_filter (l : List (KVResult K V)) :
    errors (l.filter fun r => ¬IsRecord r) = errors l := by
  rw [errors, List.filterMap_filter]
  refine List.filterMap_congr fun r _ => ?_
  cases r with
  | error e => rw [if_pos (decide_eq_true (by rintro ⟨_, h⟩; cases h))]
  | ok e => rw [if_neg (by simp [IsRecord])]

@[simp] theorem errors_items (l : List (K × SeqMarked V)) : errors (items l) = [] :=
  List.filterMap_eq_nil_iff.2 fun r hr => by
    obtain ⟨e, -, rfl⟩ := List.mem_map.1 hr
    rfl

@[simp] theorem records_items (l : List (K × SeqMarked V)) : records (items l) = l := by
  rw [records, List.filterMap_map]
  exact List.filterMap_some

/-- The item of one key with the greater record, or the same item. -/
def Outdone (a b : KVResult K V) : Prop :=
  a = b ∨ ∃ k x y, a = .ok (k, x) ∧ b = .ok (k, y) ∧ x.orderKey ≤ y.orderKey

theorem Outdone.refl (a : KVResult K V) : Outdone a a := Or.inl rfl

theorem Outdone.trans (a b c : KVResult K V) (h : Outdone a b) (h' : Outdone b c) :
    Outdone a c := by
  rcases h with rfl | ⟨k, x, y, rfl, rfl, hxy⟩
  · exact h'
  · rcases h' with rfl | ⟨k', y', z, heq, rfl, hyz⟩
    · exact Or.inr ⟨k, x, y, rfl, rfl, hxy⟩
    · cases heq
      exact Or.inr ⟨k, x, z, rfl, rfl, le_trans hxy hyz⟩

variable [LinearOrder K]

/-- `merge_kv_results` combines two records of one key into the greater, and gives anything else
back. -/
theorem covers_mergeKvResults :
    Adjacent.Covers (ε := Fault) IsRecord Outdone
      (fun a b : KVResult K V => .ok (mergeKvResults a b)) := by
  intro a b
  match a, b with
  | .error _, _ => exact Or.inl rfl
  | .ok _, .error _ => exact Or.inl rfl
  | .ok (k, x), .ok (k', y) =>
      by_cases hk : k = k'
      · subst hk
        refine Or.inr ⟨.ok (k, SeqMarked.max x y), by simp [mergeKvResults], ?_, ⟨_, rfl⟩,
          ⟨_, rfl⟩, Or.inr ⟨k, x, _, rfl, rfl, ?_⟩, Or.inr ⟨k, y, _, rfl, rfl, ?_⟩⟩ <;>
          unfold SeqMarked.max <;> split_ifs with h
        · exact Or.inl rfl
        · exact Or.inr rfl
        · exact le_rfl
        · exact not_lt.1 h
        · exact h.le
        · exact le_rfl
      · exact Or.inl (by simp [mergeKvResults, hk])

/-! ### The merged stream -/

/-- **What a merged stream keeps of its streams**: all errors, those of each stream in its order;
only records of theirs; and a record at least as new for each of theirs. -/
structure MergedFrom (streams : List (List (KVResult K V))) (out : List (KVResult K V)) :
    Prop where
  errors_perm : (errors out).Perm (streams.map errors).flatten
  errors_order : ∀ s ∈ streams, (errors s).Sublist (errors out)
  records_sub : ∀ e ∈ records out, ∃ s ∈ streams, e ∈ records s
  records_kept : ∀ s ∈ streams, ∀ k x, (k, x) ∈ records s →
    ∃ y, (k, y) ∈ records out ∧ x.orderKey ≤ y.orderKey

/-- **The merge hides no error and no record.** -/
theorem mergeStreams_keeps {P : KMerge.Picker Fault (KVResult K V)} (hP : P.Chooses)
    {streams : List (List (KVResult K V))} {out : List (KVResult K V)}
    (h : mergeStreams P streams = .ok out) : MergedFrom streams out := by
  obtain ⟨merged, hmerged, hout⟩ := bind_eq_ok.1 h
  have hinter := KMerge.interleaves_merge hP hmerged
  obtain ⟨out', hout', hcov⟩ :=
    Adjacent.coalesce_covers covers_mergeKvResults Outdone.refl Outdone.trans merged
  cases hout'.symm.trans hout
  have herrors : errors out = errors merged := by
    rw [← errors_filter out, hcov.others, errors_filter]
  refine ⟨?_, fun s hs => ?_, fun e he => ?_, fun s hs k x hx => ?_⟩
  · rw [herrors]
    refine (hinter.perm.filterMap _).trans ?_
    rw [List.filterMap_flatten]
    rfl
  · rw [herrors]
    exact (hinter.sublist s hs).filterMap _
  · have hmem := hinter.perm.mem_iff.1 (hcov.sublist.subset (mem_records.1 he))
    obtain ⟨s, hs, hes⟩ := List.mem_flatten.1 hmem
    exact ⟨s, hs, mem_records.2 hes⟩
  · have hmem := (hinter.sublist s hs).subset (mem_records.1 hx)
    obtain ⟨y, hy, rfl | ⟨k', x', y', heq, rfl, hle⟩⟩ := hcov.covered _ hmem
    · exact ⟨x, mem_records.2 hy, le_rfl⟩
    · cases heq
      exact ⟨y', mem_records.2 hy, hle⟩

/-- The comparator answers, unless two records are of one key and marker and not both tombstones. -/
theorem byKeySeq_ok {a b : KVResult K V} (h : ∀ e e', a = .ok e → b = .ok e' → e.1 = e'.1 →
    e.2.orderKey = e'.2.orderKey → e.2.isTombstone) : ∃ r, byKeySeq a b = .ok r := by
  match a, b with
  | .error _, _ => exact ⟨true, rfl⟩
  | .ok _, .error _ => exact ⟨true, rfl⟩
  | .ok e, .ok e' =>
      rcases byKeySeq_answers (h e e' rfl rfl) with ⟨hr, -⟩ | ⟨hr, -⟩
      · exact ⟨_, hr⟩
      · exact ⟨_, hr⟩

/-- The merge fails only on records of two streams that are not compatible. -/
theorem mergeStreams_ok {P : KMerge.Picker Fault (KVResult K V)} (hP : P.Chooses)
    {streams : List (List (KVResult K V))}
    (h : streams.Pairwise fun s s' => Compatible (records s) (records s')) :
    ∃ out, mergeStreams P streams = .ok out := by
  have hanswered : streams.Pairwise fun s s' =>
      ∀ a ∈ s, ∀ b ∈ s', KMerge.Answered byKeySeq a b := by
    refine h.imp fun {s s'} hss a ha b hb => ⟨byKeySeq_ok ?_, byKeySeq_ok ?_⟩
    · rintro e e' rfl rfl
      exact hss e (mem_records.2 ha) e' (mem_records.2 hb)
    · rintro e e' rfl rfl
      exact hss.symm e (mem_records.2 hb) e' (mem_records.2 ha)
  obtain ⟨merged, hmerged⟩ := KMerge.merge_ok hP hanswered
  obtain ⟨out, hout, -⟩ :=
    Adjacent.coalesce_covers covers_mergeKvResults Outdone.refl Outdone.trans merged
  exact ⟨out, by rw [mergeStreams, hmerged, ok_bind, hout]⟩

/-! ### Collecting a stream -/

/-- **A collector stops at the first error** of the stream. -/
theorem Table.readStream_error_iff (l : List (KVResult K V)) : ∀ {t : Table K V} {e : IoError},
    t.readStream l = .error e ↔ (errors l).head? = some e := by
  induction l with
  | nil =>
      intro t e
      simp [Table.readStream, errors]
  | cons r l ih =>
      intro t e
      cases r with
      | error e' => simp [Table.readStream, errors]
      | ok p =>
          obtain ⟨k, x⟩ := p
          exact ih

/-! ### Range reads -/

section Levels

variable {TOP L PL : Type} [MapApiRO TOP K V] [MapApiRO L K V] [MapApiRO PL K V]

/-- **A range read over levels hides no error and no record.**  The levels answer with any streams,
sorted or not, with errors anywhere in them.  If they share a key and marker only as tombstones the
read succeeds; and whenever it does, it yields all errors of the streams, those of each in its
order, only records of the streams, and for each record of theirs one of its key that is at least as
new.  Collecting the result fails exactly when a stream holds an error. -/
theorem compactedRange_keeps_errors {P : KMerge.Picker Fault (KVResult K V)} (hP : P.Chooses)
    {r : RangeBounds K} {top : Option TOP} {levels : List L} {persisted : List PL}
    {streams : List (List (KVResult K V))}
    (h : rangesOf r top levels persisted = streams.map .ok) :
    ((streams.Pairwise fun s s' => Compatible (records s) (records s')) →
      ∃ out, compactedRange P r top levels persisted = .ok out) ∧
    ∀ out, compactedRange P r top levels persisted = .ok out →
      MergedFrom streams out ∧
        ((∃ e, Table.fromStream out = .error e) ↔ ∃ s ∈ streams, errors s ≠ []) := by
  rw [compactedRange_of_answers P h]
  refine ⟨mergeStreams_ok hP, fun out hout => ?_⟩
  have hmerged := mergeStreams_keeps hP hout
  refine ⟨hmerged, ?_⟩
  simp only [Table.fromStream, Table.readStream_error_iff]
  have hsome : (∃ e, (errors out).head? = some e) ↔ errors out ≠ [] := by
    cases errors out <;> simp
  rw [hsome]
  constructor
  · intro hne
    obtain ⟨e, he⟩ := List.exists_mem_of_ne_nil _ hne
    obtain ⟨es, hes, hmem⟩ := List.mem_flatten.1 (hmerged.errors_perm.mem_iff.1 he)
    obtain ⟨s, hs, rfl⟩ := List.mem_map.1 hes
    exact ⟨s, hs, List.ne_nil_of_mem hmem⟩
  · rintro ⟨s, hs, hne⟩ hnil
    have hsub := hmerged.errors_order s hs
    rw [hnil] at hsub
    exact hne (List.sublist_nil.1 hsub)

/-- A level that fails behind its first record, above two that do not. -/
theorem compactedRange_keeps_errors_sample :
    let level (s : List (KVResult ℕ ℕ)) : DynReader ℕ ℕ :=
      ⟨fun _ => .ok .newNotFound, fun _ => .ok s⟩
    let fails : List (KVResult ℕ ℕ) :=
      [.ok (1, .newNormal 2 10), .error ⟨"disk"⟩, .ok (3, .newNormal 1 30)]
    let streams := [fails, items [(1, .newNormal 4 11), (3, .newNormal 5 31)],
      items [(2, .newNormal 3 20)]]
    ∃ out : List (KVResult ℕ ℕ), compactedRange .leftmost (.full : RangeBounds ℕ)
        (none : Option (DynReader ℕ ℕ)) (streams.map level) ([] : List (DynReader ℕ ℕ)) = .ok out ∧
      errors out = [⟨"disk"⟩] ∧ ∃ e, Table.fromStream out = .error e := by
  intro level fails streams
  have hanswers : rangesOf (.full : RangeBounds ℕ) (none : Option (DynReader ℕ ℕ))
      (streams.map level) ([] : List (DynReader ℕ ℕ)) = streams.map .ok := rfl
  have hcomp : streams.Pairwise fun s s' => Compatible (records s) (records s') := by
    unfold Compatible
    decide
  obtain ⟨hok, hkeeps⟩ := compactedRange_keeps_errors KMerge.chooses_leftmost hanswers
  obtain ⟨out, hout⟩ := hok hcomp
  obtain ⟨hmerged, hcollect⟩ := hkeeps out hout
  have hfails : ∃ s ∈ streams, errors s ≠ [] := ⟨fails, List.mem_cons_self, by decide⟩
  exact ⟨out, hout, List.perm_singleton.1 hmerged.errors_perm, hcollect.2 hfails⟩

end Levels

/-- A reader given by its reads answers alike at every sequence number. -/
instance : RangeAtSeq (DynReader K V) K V where
  rangeAtSeq l r _ := l.range r

namespace View

variable {D : Type} [RangeAtSeq D K V]

/-- **A range read of a view hides no error and no record** of its reader, in whatever state the
view is: it yields the errors of the reader's stream in their order, and an export of it fails with
the first of them. -/
theorem range_keeps_errors {P : KMerge.Picker Fault (KVResult K V)} (hP : P.Chooses)
    {w : View D K V} {r : RangeBounds K} {base : List (KVResult K V)}
    (hbase : w.snapshot.range r = .ok base) {updates : List (K × SeqMarked V)}
    (hupdates : w.changes.range r w.lastSeq = .ok updates) :
    (Compatible (records base) updates → ∃ out, w.range P r = .ok out) ∧
    ∀ out, w.range P r = .ok out →
      MergedFrom [base, items updates] out ∧ errors out = errors base ∧
        ∀ e, Table.fromStream out = .error e ↔ (errors base).head? = some e := by
  have hrange : w.range P r = mergeStreams P [base, items updates] := by
    rw [View.range, hbase, ok_bind, hupdates, ok_bind]
  rw [hrange]
  refine ⟨fun hcomp => mergeStreams_ok hP (List.pairwise_pair.2 ?_), fun out hout => ?_⟩
  · rw [records_items]
    exact hcomp
  · have hmerged := mergeStreams_keeps hP hout
    have herrors : errors out = errors base := by
      -- the changes hold no error, so the errors are those of the reader, in its order
      have hperm := hmerged.errors_perm
      have horder := hmerged.errors_order base List.mem_cons_self
      refine (horder.eq_of_length ?_).symm
      simpa using hperm.length_eq.symm
    refine ⟨hmerged, herrors, fun e => ?_⟩
    rw [Table.fromStream, Table.readStream_error_iff, herrors]

/-- A view that has staged a value over a reader that fails twice. -/
theorem range_keeps_errors_sample :
    let base : List (KVResult ℕ ℕ) :=
      [.ok (1, .newNormal 2 10), .error ⟨"disk"⟩, .ok (3, .newNormal 1 30), .error ⟨"net"⟩]
    let reader : DynReader ℕ ℕ := ⟨fun _ => .ok .newNotFound, fun _ => .ok base⟩
    let w : View (DynReader ℕ ℕ) ℕ ℕ := (View.new (.new 5 reader)).stage 1 (.newNormal 6 11)
    ∃ out, w.range .leftmost .full = .ok out ∧ errors out = [⟨"disk"⟩, ⟨"net"⟩] ∧
      Table.fromStream out = .error ⟨"disk"⟩ := by
  intro base reader w
  have hbase : w.snapshot.range (.full : RangeBounds ℕ) = .ok base := rfl
  have hupdates : w.changes.range .full w.lastSeq = .ok [(1, .newNormal 6 11)] := by decide
  have hcomp : Compatible (records base) [(1, .newNormal 6 11)] := by
    unfold Compatible
    decide
  obtain ⟨hok, hkeeps⟩ := range_keeps_errors KMerge.chooses_leftmost hbase hupdates
  obtain ⟨out, hout⟩ := hok hcomp
  obtain ⟨-, herrors, hcollect⟩ := hkeeps out hout
  exact ⟨out, hout, herrors, (hcollect _).2 rfl⟩

end View

end MapApi
