/-
**Failures, and merging the range streams of several levels.**

Model of `src/util.rs`, of the errors of `src/mvcc/table/errors.rs`, and of
`compact_seq_marked_pair` in `src/compact.rs`.

A call fails with an `io::Error` it hands on, or panics; a panic is named after the place that
raises it.  A range stream is the list of its items, each a pair of a key and a marked value or an
error in its place.

Main definitions:

* `MapApi.InsertError`, `MapApi.Fault` — a refused insertion, and the ways a call can fail;
* `MapApi.byKeySeq`, `MapApi.mergeKvResults` — the comparator of the range merge, with its
  assertion, and the fold that leaves one item per key;
* `MapApi.mergeStreams` — range streams merged by the one and folded by the other;
* `MapApi.Compatible` — two streams share a key and marker only where both hold a tombstone.

Main results:

* `MapApi.mergeStreams_spec` — **compatible ascending streams merge into the greatest record of
  each key**;
* `MapApi.mergeStreams_congr` — streams of the same records merge the same;
* `MapApi.mergeStreams_pair_error` — **two streams that are not compatible trip the assertion**.
-/

import MapApi.Adjacent
import MapApi.KMerge
import MapApi.SeqMarked
import MapApi.SortedMap
import Mathlib.Order.WithBot

set_option relaxedAutoImplicit false
set_option autoImplicit false

namespace MapApi

/-! ### Failures -/

/-- An `io::Error`, known by its message. -/
structure IoError where
  message : String
  deriving DecidableEq, Repr

/-- A refused insertion. -/
inductive InsertError where
  /-- The sequence number of the record is below the last one of the table. -/
  | nonIncremental (last current : Marker)
  deriving DecidableEq, Repr

/-- **The ways a call can fail.** -/
inductive Fault where
  /-- An `io::Error` of the underlying reader, handed on by `?`. -/
  | ioError (e : IoError)
  /-- `self.last_seq += 1` past `u64::MAX`. -/
  | overflow
  /-- `unwrap()` of a refused insertion. -/
  | insertRefused (e : InsertError)
  /-- `v.as_ref().unwrap()` on a record without value under a normal marker. -/
  | valueMissing
  /-- A range scan of a map by an inverted range. -/
  | rangeInverted
  /-- `assert!(self.last_seq <= last_seq)` of `Table::apply_changes`. -/
  | applyBackwards
  /-- The assertion of `by_key_seq`. -/
  | byKeySeq
  /-- The sort order assertion of `Coalesce::coalesce`. -/
  | coalesceOrder
  deriving DecidableEq, Repr

/-- `Option::unwrap` and the like: `none` raises the fault. -/
def orFault {α : Type} (f : Fault) : Option α → Except Fault α
  | some a => .ok a
  | none => .error f

@[simp] theorem orFault_some {α : Type} (f : Fault) (a : α) : orFault f (some a) = .ok a := rfl

@[simp] theorem orFault_none {α : Type} (f : Fault) :
    orFault f (none : Option α) = .error f := rfl

@[simp] theorem orFault_eq_ok {α : Type} {f : Fault} {o : Option α} {a : α} :
    orFault f o = .ok a ↔ o = some a := by
  cases o <;> simp [orFault]

section Except

variable {ε α β : Type}

/-- A sequence of two calls succeeds when both do. -/
theorem bind_eq_ok {x : Except ε α} {f : α → Except ε β} {b : β} :
    (x >>= f) = .ok b ↔ ∃ a, x = .ok a ∧ f a = .ok b := by
  cases x <;> simp [bind, Except.bind]

@[simp] theorem ok_bind (a : α) (f : α → Except ε β) : ((Except.ok a : Except ε α) >>= f) = f a :=
  rfl

@[simp] theorem pure_eq_ok (a : α) : (pure a : Except ε α) = .ok a := rfl

@[simp] theorem error_bind (e : ε) (f : α → Except ε β) :
    ((Except.error e : Except ε α) >>= f) = .error e := rfl

/-- A sequence of calls succeeds when each does. -/
theorem exists_mapM_ok {f : α → Except ε β} {l : List α} (h : ∀ a ∈ l, ∃ b, f a = .ok b) :
    ∃ out, l.mapM f = .ok out := by
  induction l with
  | nil => exact ⟨[], rfl⟩
  | cons a l ih =>
      obtain ⟨b, hb⟩ := h a List.mem_cons_self
      obtain ⟨bs, hbs⟩ := ih fun a' ha' => h a' (List.mem_cons_of_mem _ ha')
      exact ⟨b :: bs, by rw [List.mapM_cons, hb, ok_bind, hbs, ok_bind]; rfl⟩

/-- A sequence of calls that each succeed lists their results. -/
theorem mapM_of_map_eq_ok {f : α → Except ε β} {l : List α} {out : List β}
    (h : l.map f = out.map .ok) : l.mapM f = .ok out := by
  induction l generalizing out with
  | nil =>
      obtain rfl := List.map_eq_nil_iff.1 h.symm
      rfl
  | cons a l ih =>
      obtain ⟨b, bs, rfl, hb, hbs⟩ := List.map_eq_cons_iff.1 h.symm
      rw [List.mapM_cons, ← hb, ok_bind, ih hbs.symm, ok_bind]
      rfl

theorem mapM_cons_eq_ok {f : α → Except ε β} {a : α} {l : List α} {out : List β} :
    (a :: l).mapM f = .ok out ↔ ∃ b bs, f a = .ok b ∧ l.mapM f = .ok bs ∧ out = b :: bs := by
  rw [List.mapM_cons, bind_eq_ok]
  constructor
  · rintro ⟨b, hb, h⟩
    obtain ⟨bs, hbs, h⟩ := bind_eq_ok.1 h
    cases h
    exact ⟨b, bs, hb, hbs, rfl⟩
  · rintro ⟨b, bs, hb, hbs, rfl⟩
    exact ⟨b, hb, bind_eq_ok.2 ⟨bs, hbs, rfl⟩⟩

/-- A sequence of calls fails with one of them. -/
theorem exists_of_mapM_error {f : α → Except ε β} {l : List α} {e : ε}
    (h : l.mapM f = .error e) : ∃ a ∈ l, f a = .error e := by
  induction l with
  | nil => cases h
  | cons a l ih =>
      rw [List.mapM_cons] at h
      cases ha : f a with
      | error e' =>
          rw [ha] at h
          cases h
          exact ⟨a, List.mem_cons_self, ha⟩
      | ok b =>
          rw [ha, ok_bind] at h
          cases hl : l.mapM f with
          | error e' =>
              rw [hl] at h
              cases h
              obtain ⟨a', ha', he⟩ := ih hl
              exact ⟨a', List.mem_cons_of_mem _ ha', he⟩
          | ok bs =>
              rw [hl] at h
              cases h

/-- The results of a sequence of calls. -/
theorem mem_of_mapM_ok {f : α → Except ε β} {l : List α} {out : List β} (h : l.mapM f = .ok out)
    {b : β} : b ∈ out ↔ ∃ a ∈ l, f a = .ok b := by
  induction l generalizing out with
  | nil => cases h; simp
  | cons a l ih =>
      obtain ⟨c, cs, hc, hcs, rfl⟩ := mapM_cons_eq_ok.1 h
      rw [List.mem_cons, ih hcs]
      simp [hc, eq_comm]

/-- In a sequence of calls that succeeds each of them does. -/
theorem exists_ok_of_mapM_ok {f : α → Except ε β} {l : List α} {out : List β}
    (h : l.mapM f = .ok out) : ∀ a ∈ l, ∃ b, f a = .ok b := by
  induction l generalizing out with
  | nil => nofun
  | cons a l ih =>
      obtain ⟨c, cs, hc, hcs, rfl⟩ := mapM_cons_eq_ok.1 h
      intro a' ha'
      rcases List.mem_cons.1 ha' with rfl | ha'
      · exact ⟨c, hc⟩
      · exact ih hcs a' ha'

/-- What a call keeps of its argument, a sequence of calls keeps. -/
theorem map_of_mapM_ok {γ : Type} {f : α → Except ε β} {g : α → γ} {g' : β → γ}
    (hf : ∀ a b, f a = .ok b → g' b = g a) {l : List α} {out : List β} (h : l.mapM f = .ok out) :
    out.map g' = l.map g := by
  induction l generalizing out with
  | nil => cases h; rfl
  | cons a l ih =>
      obtain ⟨c, cs, hc, hcs, rfl⟩ := mapM_cons_eq_ok.1 h
      rw [List.map_cons, List.map_cons, hf a c hc, ih hcs]

end Except

/-! ### The functions of `util.rs` -/

/-- One item of a range stream. -/
abbrev KVResult (K V : Type) : Type := Except IoError (K × SeqMarked V)

section

variable {K V : Type} [LinearOrder K]

/-- `by_key_seq`: whether `r₁` is placed before `r₂`.  Two items of one key and marker are refused,
unless both are tombstones; an error is left where it is. -/
def byKeySeq (r₁ r₂ : KVResult K V) : Except Fault Bool :=
  match r₁, r₂ with
  | .ok (k₁, v₁), .ok (k₂, v₂) =>
      let iseq₁ := v₁.orderKey
      let iseq₂ := v₂.orderKey
      if (k₁, iseq₁) ≠ (k₂, iseq₂) ∨ (iseq₁.isTombstone ∧ iseq₂.isTombstone) then
        .ok (decide (toLex (k₁, iseq₁) ≤ toLex (k₂, iseq₂)))
      else .error .byKeySeq
  | _, _ => .ok true

/-- `merge_kv_results`: two items of one key become the greater of them, others are given back. -/
def mergeKvResults (r₁ r₂ : KVResult K V) : Except (KVResult K V × KVResult K V) (KVResult K V) :=
  match r₁, r₂ with
  | .ok (k₁, v₁), .ok (k₂, v₂) =>
      if k₁ = k₂ then .ok (.ok (k₁, SeqMarked.max v₁ v₂)) else .error (r₁, r₂)
  | _, _ => .error (r₁, r₂)

/-- `compact_seq_marked_pair`: the newer value, or the older one if the newer is *not found*. -/
def compactSeqMarkedPair (newer older : SeqMarked V) : SeqMarked V :=
  if newer.isNotFound then older else newer

/-- `KMerge::by(by_key_seq)` over the streams, then `coalesce(merge_kv_results)`, drained. -/
def mergeStreams (P : KMerge.Picker Fault (KVResult K V)) (streams : List (List (KVResult K V))) :
    Except Fault (List (KVResult K V)) := do
  let merged ← KMerge.merge P byKeySeq streams
  Adjacent.coalesce (fun a b => .ok (mergeKvResults a b)) merged

/-! ### Items as places in an order -/

/-- The key of an item, the bottom for an error. -/
def itemKey : KVResult K V → WithBot K
  | .ok (k, _) => k
  | .error _ => ⊥

/-- The marker of an item, the bottom for an error. -/
def itemRank : KVResult K V → WithBot Marker
  | .ok (_, v) => v.orderKey
  | .error _ => ⊥

omit [LinearOrder K] in
@[simp] theorem itemKey_ok (e : K × SeqMarked V) :
    itemKey (.ok e : KVResult K V) = (e.1 : WithBot K) := rfl

omit [LinearOrder K] in
@[simp] theorem itemRank_ok (e : K × SeqMarked V) :
    itemRank (.ok e : KVResult K V) = (e.2.orderKey : WithBot Marker) := rfl

/-- Items in the order of their keys, and of their markers at one key. -/
abbrev ItemLE (a b : KVResult K V) : Prop := Adjacent.KeyRankLE itemKey itemRank a b

theorem itemLE_iff {a b : KVResult K V} :
    ItemLE a b ↔ toLex (itemKey a, itemRank a) ≤ toLex (itemKey b, itemRank b) := by
  rw [Prod.Lex.toLex_le_toLex]
  rfl

theorem itemLE_total (a b : KVResult K V) : ItemLE a b ∨ ItemLE b a := by
  rw [itemLE_iff, itemLE_iff]
  exact le_total _ _

theorem itemLE_trans (a b c : KVResult K V) (h : ItemLE a b) (h' : ItemLE b c) : ItemLE a c := by
  rw [itemLE_iff] at h h' ⊢
  exact le_trans h h'

theorem itemLE_ok {e e' : K × SeqMarked V} :
    ItemLE (.ok e : KVResult K V) (.ok e') ↔
      toLex (e.1, e.2.orderKey) ≤ toLex (e'.1, e'.2.orderKey) := by
  simp [Adjacent.KeyRankLE, Prod.Lex.toLex_le_toLex]

/-- The comparator answers by the order of the items, or the two are of one key and marker and not
both tombstones. -/
theorem byKeySeq_answers {e e' : K × SeqMarked V}
    (h : e.1 = e'.1 → e.2.orderKey = e'.2.orderKey → e.2.isTombstone) :
    KMerge.Answers byKeySeq ItemLE (.ok e : KVResult K V) (.ok e') := by
  have hok : byKeySeq (.ok e : KVResult K V) (.ok e') =
      .ok (decide (toLex (e.1, e.2.orderKey) ≤ toLex (e'.1, e'.2.orderKey))) := by
    refine if_pos (Classical.or_iff_not_imp_left.2 fun heq => ?_)
    obtain ⟨hkey, hord⟩ := Prod.mk.inj (not_not.1 heq)
    have ht := h hkey hord
    have ht' : e'.2.orderKey.isTombstone := by rw [← hord]; simpa using ht
    exact ⟨by simpa using ht, ht'⟩
  by_cases hle : toLex (e.1, e.2.orderKey) ≤ toLex (e'.1, e'.2.orderKey)
  · exact Or.inl ⟨by rw [hok, decide_eq_true hle], itemLE_ok.2 hle⟩
  · exact Or.inr ⟨by rw [hok, decide_eq_false hle], itemLE_ok.2 (le_of_not_ge hle)⟩

/-- Two values of one key and marker trip the assertion. -/
theorem byKeySeq_conflicts {e e' : K × SeqMarked V} (hkey : e.1 = e'.1)
    (hord : e.2.orderKey = e'.2.orderKey) (ht : e.2.isTombstone = false) :
    KMerge.Conflicts byKeySeq Fault.byKeySeq (.ok e : KVResult K V) (.ok e') := by
  have ht' : e'.2.isTombstone = false := by
    rw [← SeqMarked.isTombstone_orderKey, ← hord, SeqMarked.isTombstone_orderKey, ht]
  constructor
  · simp [byKeySeq, hkey, hord, ht']
  · simp [byKeySeq, hkey, hord, ht']

/-- The items that are not errors. -/
def IsRecord (r : KVResult K V) : Prop := ∃ e, r = .ok e

/-- On records in order, `merge_kv_results` combines those of one key into the later one. -/
theorem combinesMax_mergeKvResults :
    Adjacent.CombinesMax (ε := Fault) IsRecord (itemKey (K := K) (V := V)) itemRank
      (fun a b => .ok (mergeKvResults a b)) := by
  constructor
  · rintro _ _ ⟨⟨k, v⟩, rfl⟩ ⟨⟨k', v'⟩, rfl⟩ hkey hle
    obtain rfl : k = k' := WithBot.coe_inj.1 hkey
    have hle' : v.orderKey ≤ v'.orderKey := WithBot.coe_le_coe.1 hle
    refine ⟨.ok (k, v'), ?_, Or.inr rfl, rfl⟩
    simp [mergeKvResults, SeqMarked.max, not_lt.2 hle']
  · rintro _ _ ⟨⟨k, v⟩, rfl⟩ ⟨⟨k', v'⟩, rfl⟩ hlt
    have hne : k ≠ k' := ne_of_lt (WithBot.coe_lt_coe.1 hlt)
    simp [mergeKvResults, hne]

/-! ### Merging compatible streams -/

/-- Two streams hold the same key and marker only where both hold a tombstone. -/
def Compatible (s s' : List (K × SeqMarked V)) : Prop :=
  ∀ e ∈ s, ∀ e' ∈ s', e.1 = e'.1 → e.2.orderKey = e'.2.orderKey → e.2.isTombstone

/-- **The record of greatest marker** among those the streams hold of a key. -/
def IsGreatest (streams : List (List (K × SeqMarked V))) (k : K) (x : SeqMarked V) : Prop :=
  (k, x) ∈ streams.flatten ∧ ∀ y, (k, y) ∈ streams.flatten → y.orderKey ≤ x.orderKey

omit [LinearOrder K] in
theorem Compatible.symm {s s' : List (K × SeqMarked V)} (h : Compatible s s') :
    Compatible s' s := by
  intro e he e' he' hkey hord
  rw [← SeqMarked.isTombstone_orderKey, hord, SeqMarked.isTombstone_orderKey]
  exact h e' he' e he hkey.symm hord.symm

/-- Where there is a record of a key, there is one of greatest marker. -/
theorem exists_isGreatest {streams : List (List (K × SeqMarked V))} {k : K} {x : SeqMarked V}
    (h : (k, x) ∈ streams.flatten) : ∃ y, IsGreatest streams k y := by
  unfold IsGreatest
  generalize streams.flatten = records at h ⊢
  induction records generalizing x with
  | nil => cases h
  | cons e l ih =>
      obtain ⟨k', z⟩ := e
      by_cases hl : ∃ y, (k, y) ∈ l
      · obtain ⟨y, hy⟩ := hl
        obtain ⟨y, hy, hmax⟩ := ih hy
        by_cases hz : k = k' ∧ y.orderKey < z.orderKey
        · obtain ⟨rfl, hlt⟩ := hz
          refine ⟨z, List.mem_cons_self, fun w hw => ?_⟩
          rcases List.mem_cons.1 hw with heq | hw
          · rw [(Prod.mk.inj heq).2]
          · exact (hmax w hw).trans hlt.le
        · refine ⟨y, List.mem_cons_of_mem _ hy, fun w hw => ?_⟩
          rcases List.mem_cons.1 hw with heq | hw
          · obtain ⟨rfl, rfl⟩ := Prod.mk.inj heq
            exact not_lt.1 fun hlt => hz ⟨rfl, hlt⟩
          · exact hmax w hw
      · rcases List.mem_cons.1 h with heq | h
        · refine ⟨x, List.mem_cons.2 (Or.inl heq), fun w hw => ?_⟩
          rcases List.mem_cons.1 hw with heq' | hw
          · rw [(Prod.mk.inj (heq'.trans heq.symm)).2]
          · exact absurd ⟨w, hw⟩ hl
        · exact absurd ⟨x, h⟩ hl

/-- A stream of records, as a stream of items. -/
abbrev items (s : List (K × SeqMarked V)) : List (KVResult K V) := s.map .ok

omit [LinearOrder K] in
theorem items_injective : Function.Injective (items : List (K × SeqMarked V) → _) :=
  List.map_injective_iff.2 fun _ _ h => Except.ok.inj h

omit [LinearOrder K] in
theorem exists_items {l : List (KVResult K V)} (h : ∀ r ∈ l, IsRecord r) : ∃ s, l = items s := by
  induction l with
  | nil => exact ⟨[], rfl⟩
  | cons r l ih =>
      obtain ⟨e, rfl⟩ := h r List.mem_cons_self
      obtain ⟨s, rfl⟩ := ih fun r' hr' => h r' (List.mem_cons_of_mem _ hr')
      exact ⟨e :: s, rfl⟩

omit [LinearOrder K] in
theorem flatten_items (streams : List (List (K × SeqMarked V))) :
    (streams.map items).flatten = items streams.flatten := by
  rw [items, List.map_flatten]

theorem pairwise_itemLE_items {s : List (K × SeqMarked V)} (h : KeyAscending s) :
    (items s).Pairwise ItemLE :=
  List.pairwise_map.2 (h.imp fun hlt => Or.inl (WithBot.coe_lt_coe.2 hlt))

theorem pairwise_not_itemLE_items {s : List (K × SeqMarked V)} (h : KeyAscending s) :
    (items s).Pairwise fun a b => ¬ItemLE b a := by
  refine List.pairwise_map.2 (h.imp fun hlt => ?_)
  rw [itemLE_ok, not_le, Prod.Lex.toLex_lt_toLex]
  exact Or.inl hlt

theorem comparable_items {s s' : List (K × SeqMarked V)} (h : Compatible s s') :
    KMerge.Comparable byKeySeq ItemLE (items s) (items s') := by
  intro a ha b hb
  obtain ⟨e, he, rfl⟩ := List.mem_map.1 ha
  obtain ⟨e', he', rfl⟩ := List.mem_map.1 hb
  exact ⟨byKeySeq_answers (h e he e' he'), byKeySeq_answers (h.symm e' he' e he)⟩

/-- In compatible ascending streams, a key and marker determine the record. -/
theorem eq_of_compatible {streams : List (List (K × SeqMarked V))}
    (hasc : ∀ s ∈ streams, KeyAscending s) (hcomp : streams.Pairwise Compatible) {k : K}
    {x y : SeqMarked V} (hx : (k, x) ∈ streams.flatten) (hy : (k, y) ∈ streams.flatten)
    (hord : x.orderKey = y.orderKey) : x = y := by
  induction streams with
  | nil => simp at hx
  | cons s streams ih =>
      obtain ⟨hs, hstreams⟩ := List.pairwise_cons.1 hcomp
      rw [List.flatten_cons, List.mem_append] at hx hy
      rcases hx with hx | hx
      · rcases hy with hy | hy
        · exact (hasc s List.mem_cons_self).eq_of_mem hx hy
        · obtain ⟨s', hs', hy⟩ := List.mem_flatten.1 hy
          exact SeqMarked.eq_of_orderKey_tombstone hord (hs s' hs' _ hx _ hy rfl hord)
      · rcases hy with hy | hy
        · obtain ⟨s', hs', hx⟩ := List.mem_flatten.1 hx
          exact (SeqMarked.eq_of_orderKey_tombstone hord.symm
            (hs s' hs' _ hy _ hx rfl hord.symm)).symm
        · exact ih (fun s' hs' => hasc s' (List.mem_cons_of_mem _ hs')) hstreams hx hy

/-- **Compatible ascending streams merge into the greatest record of each key.** -/
theorem mergeStreams_spec (P : KMerge.Picker Fault (KVResult K V))
    {streams : List (List (K × SeqMarked V))} (hasc : ∀ s ∈ streams, KeyAscending s)
    (hcomp : streams.Pairwise Compatible) :
    ∃ out, mergeStreams P (streams.map items) = .ok (items out) ∧ KeyAscending out ∧
      ∀ k x, (k, x) ∈ out ↔ IsGreatest streams k x := by
  have hsorted : ∀ s ∈ streams.map items, s.Pairwise ItemLE := by
    intro s hs
    obtain ⟨s', hs', rfl⟩ := List.mem_map.1 hs
    exact pairwise_itemLE_items (hasc s' hs')
  have hpw : (streams.map items).Pairwise (KMerge.Comparable byKeySeq ItemLE) :=
    List.pairwise_map.2 (hcomp.imp comparable_items)
  obtain ⟨merged, hmerge, hperm, hmsorted⟩ :=
    KMerge.merge_sorted P itemLE_total itemLE_trans hsorted hpw
  rw [flatten_items] at hperm
  have hrec : ∀ r ∈ merged, IsRecord r := by
    intro r hr
    obtain ⟨e, -, rfl⟩ := List.mem_map.1 (hperm.mem_iff.1 hr)
    exact ⟨e, rfl⟩
  obtain ⟨out, hout, hgr⟩ := Adjacent.coalesce_max combinesMax_mergeKvResults hrec hmsorted
  obtain ⟨out, rfl⟩ := exists_items fun r hr => hrec r (hgr.greatest r hr).1
  have hmem : ∀ e : K × SeqMarked V, .ok e ∈ merged ↔ e ∈ streams.flatten := by
    intro e
    rw [hperm.mem_iff]
    simp
  refine ⟨out, by rw [mergeStreams, hmerge, ok_bind, hout], ?_, fun k x => ?_⟩
  · exact (List.pairwise_map.1 hgr.ascending).imp WithBot.coe_lt_coe.1
  · constructor
    · intro hx
      obtain ⟨hin, hmax⟩ := hgr.greatest (.ok (k, x)) (List.mem_map_of_mem hx)
      refine ⟨(hmem _).1 hin, fun y hy => ?_⟩
      exact WithBot.coe_le_coe.1 (hmax (.ok (k, y)) ((hmem _).2 hy) rfl)
    · rintro ⟨hin, hmax⟩
      obtain ⟨r, hr, hkey⟩ := hgr.complete (.ok (k, x)) ((hmem _).2 hin)
      obtain ⟨⟨k', x'⟩, hx', rfl⟩ := List.mem_map.1 hr
      obtain rfl : k' = k := WithBot.coe_inj.1 hkey
      obtain ⟨hin', hmax'⟩ := hgr.greatest _ hr
      have hle := hmax x' ((hmem _).1 hin')
      have hge : x.orderKey ≤ x'.orderKey :=
        WithBot.coe_le_coe.1 (hmax' (.ok (k', x)) ((hmem _).2 hin) rfl)
      rwa [eq_of_compatible hasc hcomp hin ((hmem _).1 hin') (le_antisymm hge hle)]

omit [LinearOrder K] in
/-- The greatest records depend on the records only, not on how the streams divide them. -/
theorem isGreatest_congr {streams streams' : List (List (K × SeqMarked V))}
    (h : ∀ e, e ∈ streams'.flatten ↔ e ∈ streams.flatten) {k : K} {x : SeqMarked V} :
    IsGreatest streams' k x ↔ IsGreatest streams k x := by
  rw [IsGreatest, IsGreatest, h]
  exact and_congr_right fun _ => forall_congr' fun y => by rw [h]

/-- **Streams of the same records merge the same.** -/
theorem mergeStreams_congr {streams streams' : List (List (K × SeqMarked V))}
    (h : ∀ e, e ∈ streams'.flatten ↔ e ∈ streams.flatten) (hasc : ∀ s ∈ streams, KeyAscending s)
    (hcomp : streams.Pairwise Compatible) (hasc' : ∀ s ∈ streams', KeyAscending s)
    (hcomp' : streams'.Pairwise Compatible) (P P' : KMerge.Picker Fault (KVResult K V)) :
    mergeStreams P' (streams'.map items) = mergeStreams P (streams.map items) := by
  obtain ⟨out, hout, hoasc, hmem⟩ := mergeStreams_spec P hasc hcomp
  obtain ⟨out', hout', hoasc', hmem'⟩ := mergeStreams_spec P' hasc' hcomp'
  have heq : out' = out := by
    refine hoasc'.ext_mem hoasc ?_
    rintro ⟨k, x⟩
    rw [hmem, hmem', isGreatest_congr h]
  rw [hout, hout', heq]

/-- Streams are merged the same in any order. -/
theorem mergeStreams_perm {streams streams' : List (List (K × SeqMarked V))}
    (hperm : streams'.Perm streams) (hasc : ∀ s ∈ streams, KeyAscending s)
    (hcomp : streams.Pairwise Compatible) (P P' : KMerge.Picker Fault (KVResult K V)) :
    mergeStreams P' (streams'.map items) = mergeStreams P (streams.map items) :=
  mergeStreams_congr (fun _ => hperm.flatten.mem_iff) hasc hcomp
    (fun s hs => hasc s (hperm.mem_iff.1 hs)) ((hperm.pairwise_iff fun h => h.symm).2 hcomp) P P'

/-- **Two streams that hold different values of one key and marker trip the assertion.** -/
theorem mergeStreams_pair_error (P : KMerge.Picker Fault (KVResult K V))
    {s s' : List (K × SeqMarked V)} (hs : KeyAscending s) (hs' : KeyAscending s')
    (h : ¬Compatible s s') : mergeStreams P [items s, items s'] = .error .byKeySeq := by
  have herr : KMerge.merge P byKeySeq [items s, items s'] = .error .byKeySeq := by
    refine KMerge.merge_pair_error P itemLE_total itemLE_trans (pairwise_not_itemLE_items hs)
      (pairwise_not_itemLE_items hs') ?_ ?_
    · intro a ha b hb
      obtain ⟨e, -, rfl⟩ := List.mem_map.1 ha
      obtain ⟨e', -, rfl⟩ := List.mem_map.1 hb
      by_cases hc : e.1 = e'.1 → e.2.orderKey = e'.2.orderKey → e.2.isTombstone
      · refine Or.inl ⟨byKeySeq_answers hc, byKeySeq_answers fun hkey hord => ?_⟩
        rw [← SeqMarked.isTombstone_orderKey, hord, SeqMarked.isTombstone_orderKey]
        exact hc hkey.symm hord.symm
      · push Not at hc
        obtain ⟨hkey, hord, ht⟩ := hc
        exact Or.inr (byKeySeq_conflicts hkey hord (by simpa using ht))
    · unfold Compatible at h
      push Not at h
      obtain ⟨e, he, e', he', hkey, hord, ht⟩ := h
      refine ⟨_, List.mem_map_of_mem he, _, List.mem_map_of_mem he',
        byKeySeq_conflicts hkey hord (by simpa using ht), ?_, ?_⟩
      · rw [itemLE_ok, hkey, hord]
      · rw [itemLE_ok, hkey, hord]
  rw [mergeStreams, herr, error_bind]

end

end MapApi
