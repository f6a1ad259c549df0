/-
**What a compaction leaves.**

A table that only applies changes grows by one record a write.  A compaction at a watermark brings
it down to what may still be read: of each key one record up to the watermark, and the records above
it.  Later transactions add records above, at most one for each number they take, so the size of the
table is bounded by its keys and by the numbers handed out since, whatever came before.

The bound needs deletions that take numbers of their own; where they do not, any number of keys may
be deleted at one number.

Main definitions:

* `MapApi.Table.OneUpto` — of each key one record up to a number.

Main results:

* `MapApi.Table.OneUpto.length_le` — the records up to a number are no more than the keys;
* `MapApi.Table.NumberedOnce.length_le` — the records above it are no more than the numbers there;
* `MapApi.Store.retention_bound` — **the size of a table after a compaction**.
-/

import MapApi.Isolation
import Mathlib.Order.Interval.Finset.Fin

set_option relaxedAutoImplicit false
set_option autoImplicit false

namespace MapApi

namespace Table

variable {K V : Type} [LinearOrder K] {t : Table K V} {c n : U64}

/-- **Of each key one record** up to a number. -/
def OneUpto (c : U64) (t : Table K V) : Prop :=
  ∀ ⦃k m d m' d'⦄, t.Holds k m d → t.Holds k m' d' → Upto c m → Upto c m' → m = m'

/-- A compaction leaves one record of each key up to its watermark. -/
theorem oneUpto_of_compact {P : KMerge.Picker Fault (Ent K V)} {t other t' : Table K V} {w : U64}
    (h : t.compact P other w = .ok t') : OneUpto w t' := by
  obtain ⟨-, -, hholds⟩ := compact_eq_ok h
  intro k m d m' d' hm hm' hup hup'
  have hdown : ∀ n n' : Marker, Upto w n' → n ≤ n' → Upto w n := fun n n' hn hle =>
    le_trans (Marker.seq_le_of_le hle) hn
  obtain ⟨hmem, hlatest⟩ := (Versions.prune_iff hdown).1 ((hholds k m d).1 hm)
  obtain ⟨hmem', hlatest'⟩ := (Versions.prune_iff hdown).1 ((hholds k m' d').1 hm')
  exact le_antisymm (hlatest' hup' m d hmem hup) (hlatest hup m' d' hmem' hup')

/-- The entries have distinct places. -/
theorem places_ne (t : Table K V) : t.inner.entries.Pairwise fun e e' => e.1 ≠ e'.1 :=
  t.inner.sorted.imp fun h => h.ne

/-- The records up to a number are no more than the keys. -/
theorem OneUpto.length_le (h : OneUpto c t) :
    (t.inner.entries.filter fun e => e.1.seqMarked.seq ≤ c).length ≤
      (t.inner.entries.map fun e => e.1.key).dedup.length := by
  let low := t.inner.entries.filter fun e => e.1.seqMarked.seq ≤ c
  have hkeys : (low.map fun e => e.1.key).Nodup := by
    have hplaces := (places_ne t).filter fun e => e.1.seqMarked.seq ≤ c
    refine List.pairwise_map.2 (hplaces.imp_of_mem fun {e e'} he he' hne hkey => ?_)
    obtain ⟨hmem, hup⟩ := List.mem_filter.1 he
    obtain ⟨hmem', hup'⟩ := List.mem_filter.1 he'
    obtain ⟨⟨k, m⟩, d⟩ := e
    obtain ⟨⟨k', m'⟩, d'⟩ := e'
    obtain rfl : k = k' := hkey
    obtain rfl := h hmem hmem' (of_decide_eq_true hup) (of_decide_eq_true hup')
    exact hne rfl
  have hsub : (low.map fun e => e.1.key) ⊆ (t.inner.entries.map fun e => e.1.key).dedup := by
    intro k hk
    obtain ⟨e, he, rfl⟩ := List.mem_map.1 hk
    exact List.mem_dedup.2 (List.mem_map_of_mem (List.mem_filter.1 he).1)
  calc low.length = (low.map fun e => e.1.key).length := (List.length_map _).symm
    _ ≤ _ := (hkeys.subperm hsub).length_le

/-- The records above a number are no more than the numbers there. -/
theorem NumberedOnce.length_le (h : NumberedOnce true t) (hn : ∀ k m d, t.Holds k m d → m.seq ≤ n) :
    (t.inner.entries.filter fun e => ¬e.1.seqMarked.seq ≤ c).length ≤ n.val - c.val := by
  let high := t.inner.entries.filter fun e => ¬e.1.seqMarked.seq ≤ c
  have hseqs : (high.map fun e => e.1.seqMarked.seq).Nodup := by
    have hplaces := (places_ne t).filter fun e => ¬e.1.seqMarked.seq ≤ c
    refine List.pairwise_map.2 (hplaces.imp_of_mem fun {e e'} he he' hne hseq => ?_)
    obtain ⟨⟨k, m⟩, d⟩ := e
    obtain ⟨⟨k', m'⟩, d'⟩ := e'
    obtain ⟨rfl, rfl⟩ := h (List.mem_filter.1 he).1 (List.mem_filter.1 he').1 (Or.inl rfl)
      (Or.inl rfl) hseq
    exact hne rfl
  have hsub : (high.map fun e => e.1.seqMarked.seq).toFinset ⊆ Finset.Ioc c n := by
    intro a ha
    obtain ⟨⟨⟨k, m⟩, d⟩, he, rfl⟩ := List.mem_map.1 (List.mem_toFinset.1 ha)
    obtain ⟨hmem, habove⟩ := List.mem_filter.1 he
    exact Finset.mem_Ioc.2 ⟨not_le.1 (of_decide_eq_true habove), hn k m d hmem⟩
  calc high.length = (high.map fun e => e.1.seqMarked.seq).length := (List.length_map _).symm
    _ = (high.map fun e => e.1.seqMarked.seq).toFinset.card :=
        (List.toFinset_card_of_nodup hseqs).symm
    _ ≤ (Finset.Ioc c n).card := Finset.card_le_card hsub
    _ = n.val - c.val := Fin.card_Ioc c n

end Table

namespace Store

variable {K V : Type} [LinearOrder K] {P : KMerge.Picker Fault (Ent K V)} {inc : Bool}

/-- A transaction whose changes are compacted. -/
theorem oneUpto_of_transact {p q : Table K V × U64} {tx : Transaction K V}
    {replies : List (Reply V)} (h : transact P inc p tx = .ok (replies, q)) {m : U64}
    (hm : tx.watermark? = some m) : Table.OneUpto m q.1 := by
  obtain ⟨w, -, hq⟩ := transact_eq_ok h
  rw [hm, View.install] at hq
  cases hc : w.intoParts.1.compact P w.intoParts.2.2 m with
  | error f => simp only [hc] at hq; cases hq
  | ok t' =>
      simp only [hc] at hq
      cases hq
      exact Table.oneUpto_of_compact hc

/-- **The size of a table after a compaction.**  Some transactions run from the empty table, the
last of them compacting it, and further ones after that.  Where deletions take numbers of their own,
the table never holds more records than it has keys and numbers handed out after the watermark, or
after the compaction if the watermark is ahead of it. -/
theorem retention_bound {txs txs' : List (Transaction K V)} {tx : Transaction K V} {m : U64}
    (hm : tx.watermark? = some m) (htxs : ∀ tx' ∈ txs ++ tx :: txs', tx'.Allocates)
    {replies replies' : List (List (Reply V))} {t t' : Table K V} {n n' : U64}
    (hrun : Machine.run (transact P true) (.new, 0) (txs ++ [tx]) = .ok (replies, t, n))
    (hrun' : Machine.run (transact P true) (t, n) txs' = .ok (replies', t', n')) :
    t'.inner.entries.length ≤
      (t'.inner.entries.map fun e => e.1.key).dedup.length + (n'.val - (min m n).val) := by
  have htxs₁ : ∀ tx' ∈ txs ++ [tx], tx'.Allocates := fun tx' htx' => htxs tx' <| by
    simp only [List.mem_append, List.mem_cons, List.not_mem_nil, or_false] at htx' ⊢
    exact htx'.imp_right Or.inl
  have htxs₂ : ∀ tx' ∈ txs', tx'.Allocates := fun tx' htx' =>
    htxs tx' (List.mem_append_right _ (List.mem_cons_of_mem _ htx'))
  -- the compaction leaves one record of each key, and later writes are above it
  have hone : Table.OneUpto (min m n) t' := by
    have ht : Table.OneUpto m t := by
      obtain ⟨_, p, _, -, hlast, -⟩ := Machine.run_append_eq_ok.1 hrun
      obtain ⟨_, hstep, -⟩ := Machine.run_singleton_eq_ok.1 hlast
      exact oneUpto_of_transact hstep hm
    obtain ⟨u', hext, htwin⟩ := exists_extends (settled_run View.settled_new htxs₁ hrun) htxs₂ hrun'
    have hbefore : ∀ k m' d, t'.Holds k m' d → Table.Upto (min m n) m' → t.Holds k m' d := by
      intro k m' d hm' hup
      refine (hext.before k m' d fun hafter => ?_).1 (htwin.pruned.sub hm')
      exact absurd (hafter.2 rfl) (not_lt.2 (le_trans hup (min_le_right m n)))
    intro k m₁ d₁ m₂ d₂ h₁ h₂ hup₁ hup₂
    exact ht (hbefore k m₁ d₁ h₁ hup₁) (hbefore k m₂ d₂ h₂ hup₂)
      (le_trans hup₁ (min_le_left m n)) (le_trans hup₂ (min_le_left m n))
  have hwhole : Machine.run (transact P true) (.new, 0) ((txs ++ [tx]) ++ txs') =
      .ok (replies ++ replies', t', n') :=
    Machine.run_append_eq_ok.2 ⟨_, _, _, hrun, hrun', rfl⟩
  obtain ⟨u, htwin, hu, honce, -⟩ := numbered_run (by simpa using htxs) hwhole
  have honce' : Table.NumberedOnce true t' := fun _ _ _ _ _ _ hm₁ hm₂ =>
    honce (htwin.pruned.sub hm₁) (htwin.pruned.sub hm₂)
  have hbound : ∀ k m' d, t'.Holds k m' d → m'.seq ≤ n' := fun k m' d hm' =>
    hu.lastSeq ▸ hu.wf.greatest.bound (htwin.pruned.sub hm')
  have hsplit : t'.inner.entries.length =
      (t'.inner.entries.filter fun e => e.1.seqMarked.seq ≤ min m n).length +
        (t'.inner.entries.filter fun e => ¬e.1.seqMarked.seq ≤ min m n).length := by
    simpa only [decide_not] using List.length_eq_length_filter_add _
  rw [hsplit]
  exact Nat.add_le_add hone.length_le (honce'.length_le hbound)

/-- Three writes of one key, compacted with the last, and one write after that. -/
theorem retention_bound_sample :
    let txs : List (Transaction ℕ ℕ) := [⟨[.set 1 (some 10), .set 1 (some 11)], none⟩]
    let tx : Transaction ℕ ℕ := ⟨[.set 1 none], some 3⟩
    let txs' : List (Transaction ℕ ℕ) := [⟨[.set 1 (some 12)], none⟩]
    ∃ replies t replies' t', Machine.run (transact .leftmost true) (.new, 0) (txs ++ [tx]) =
        .ok (replies, t, 3) ∧
      Machine.run (transact .leftmost true) (t, 3) txs' = .ok (replies', t', 4) ∧
      t'.inner.entries.length ≤ 2 := by
  intro txs tx txs'
  obtain ⟨replies, t, hrun⟩ : ∃ replies t,
    Machine.run (transact .leftmost true) (.new, 0) (txs ++ [tx]) = .ok (replies, t, 3) :=
      ⟨_, _, rfl⟩
  obtain ⟨replies', t', hrun'⟩ : ∃ replies' t', Machine.run (transact .leftmost true) (t, 3) txs' =
    .ok (replies', t', 4) := by
      cases hrun
      exact ⟨_, _, rfl⟩
  have hle := retention_bound (m := 3) rfl (by decide) hrun hrun'
  refine ⟨replies, t, replies', t', hrun, hrun', le_trans hle ?_⟩
  cases hrun
  cases hrun'
  decide

end Store

end MapApi
