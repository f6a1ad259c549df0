/-
**Compaction of two tables.**

`Table::compact` merges the records of two tables in the order of their keys and folds the merged
stream: of two neighbours of one user key the older one is dropped when the newer one is at or
below a watermark, the sequence number of the oldest live snapshot.  The fold asserts that each
record comes strictly before the next, so it stops on a record that both tables hold, unless a
newer one has it dropped first.

The functions here are those of `mvcc/coalesce.rs` and `mvcc/table/merge.rs`.

Main definitions:

* `MapApi.Coalesce`, `MapApi.Table.compact` — the fold and the compaction;
* `MapApi.Table.Either`, `MapApi.Table.Collide` — the records of two tables, and the places both
  hold a record at.

Main results:

* `MapApi.Table.compact_spec`, `MapApi.Table.compact_error` — **compaction keeps the records that
  no newer record at or below the watermark hides**, and fails exactly on a collision that is not
  hidden;
* `MapApi.Table.prunedTo_compact` — **what it leaves is the second table on top of the first, less
  hidden records**.
-/

import MapApi.Adjacent
import MapApi.KMerge
import MapApi.TableRead
import Mathlib.Order.MinMax

set_option relaxedAutoImplicit false
set_option autoImplicit false

namespace MapApi

variable {K V : Type} [LinearOrder K]

/-! ### The functions -/

/-- `Coalesce`: the watermark of a compaction. -/
structure Coalesce where
  minSnapshotSeq : U64
  deriving DecidableEq, Repr

/-- `Coalesce::coalesce`: of two records of one user key the older one is dropped, when the newer
one is at or below the watermark. -/
def Coalesce.coalesce (c : Coalesce) (ent₁ ent₂ : Ent K V) :
    Except Fault (Except (Ent K V × Ent K V) (Ent K V)) :=
  let k₁ := ent₁.1
  let k₂ := ent₂.1
  if k₁ < k₂ then
    if k₁.key = k₂.key then
      let gr := k₁.seqMarked.internalSeq
      if gr ≤ c.minSnapshotSeq then .ok (.ok ent₁) else .ok (.error (ent₁, ent₂))
    else .ok (.error (ent₁, ent₂))
  else .error .coalesceOrder

/-- The order `kmerge_by` merges entries in. -/
def entryBefore (a b : Ent K V) : Except Fault Bool := .ok (decide (a.1 < b.1))

namespace Table

/-- `Table::compact`. -/
def compact (P : KMerge.Picker Fault (Ent K V)) (t other : Table K V) (minSnapshotSeq : U64) :
    Except Fault (Table K V) := do
  let lastSeq := if other.lastSeq < t.lastSeq then t.lastSeq else other.lastSeq
  let it ← KMerge.merge P entryBefore [t.inner.entries, other.inner.entries]
  let it ← Adjacent.coalesce (Coalesce.mk minSnapshotSeq).coalesce it
  return ⟨.fromIter it, lastSeq⟩

/-! ### The merged stream -/

/-- The records of either table. -/
def Either (t other : Table K V) : Versions.Records K Marker (Option V) := fun k n d =>
  t.Holds k n d ∨ other.Holds k n d

/-- Both tables hold a record at a place. -/
def Collide (t other : Table K V) (k : K) (n : Marker) : Prop :=
  (∃ d, t.Holds k n d) ∧ ∃ d, other.Holds k n d

/-- Every collision is hidden by a newer record at or below the watermark. -/
def CollisionsHidden (t other : Table K V) (m : U64) : Prop :=
  ∀ k n, Collide t other k n → Versions.Hidden (Upto m) (Either t other) k n

/-- An entry of the merged stream that an earlier one of its user key, at or below the watermark,
has dropped. -/
abbrev EntAbsorbed (m : U64) (l : List (Ent K V)) (x : Ent K V) : Prop :=
  Adjacent.Absorbed (Prod.fst : Ent K V → RecordKey K) (fun e => e.1.key)
    (fun e => Upto m e.1.seqMarked) l x

theorem prunes_coalesce (m : U64) :
    Adjacent.Prunes (Prod.fst : Ent K V → RecordKey K) (fun e => e.1.key)
      (fun e => Upto m e.1.seqMarked) Fault.coalesceOrder (Coalesce.mk m).coalesce := by
  constructor
  · intro a b hlt hkey hlow
    have hlow' : a.1.seqMarked.internalSeq ≤ m := hlow
    simp only [Coalesce.coalesce, if_pos hlt, if_pos hkey, if_pos hlow']
  · intro a b hlt hkeep
    simp only [Coalesce.coalesce, if_pos hlt]
    split_ifs with hkey hlow
    · exact absurd ⟨hkey, hlow⟩ hkeep
    · rfl
    · rfl
  · intro a b hlt
    simp only [Coalesce.coalesce, if_neg hlt]

theorem grouped_key :
    Adjacent.Grouped (Prod.fst : Ent K V → RecordKey K) fun e => e.1.key :=
  fun _ _ _ hab hbc h => RecordKey.key_eq_of_between hab hbc h

/-- The stream the merge of some tables yields: their entries, in order. -/
theorem exists_merged (P : KMerge.Picker Fault (Ent K V)) (tables : List (Table K V)) :
    ∃ it, KMerge.merge P entryBefore (tables.map fun t => t.inner.entries) = .ok it ∧
      it.Perm (tables.map fun t => t.inner.entries).flatten ∧
      it.Pairwise fun a b => a.1 ≤ b.1 := by
  have hanswers : ∀ a b : Ent K V, KMerge.Answers entryBefore (fun a b => a.1 ≤ b.1) a b := by
    intro a b
    by_cases h : a.1 < b.1
    · exact Or.inl ⟨congrArg Except.ok (decide_eq_true h), h.le⟩
    · exact Or.inr ⟨congrArg Except.ok (decide_eq_false h), not_lt.1 h⟩
  have hsorted : ∀ s ∈ tables.map fun t => t.inner.entries,
      s.Pairwise fun a b => a.1 ≤ b.1 := by
    intro s hs
    obtain ⟨t, -, rfl⟩ := List.mem_map.1 hs
    exact t.inner.sorted.imp le_of_lt
  have htotal : ∀ a b : Ent K V, a.1 ≤ b.1 ∨ b.1 ≤ a.1 := fun a b => le_total a.1 b.1
  have hcomparable : (tables.map fun t => t.inner.entries).Pairwise
      (KMerge.Comparable entryBefore fun a b => a.1 ≤ b.1) :=
    List.pairwise_of_forall fun _ _ a _ b _ => ⟨hanswers a b, hanswers b a⟩
  exact KMerge.merge_sorted P htotal (fun a b c => le_trans) hsorted hcomparable

section Merged

variable {S : Versions.Records K Marker (Option V)} {it : List (Ent K V)}
  (hmem : ∀ k n d, ((⟨k, n⟩, d) : Ent K V) ∈ it ↔ S k n d)

include hmem

/-- An entry of the merged stream is absorbed when its record is hidden. -/
theorem absorbed_iff_hidden {m : U64} {k : K} {n : Marker} {d : Option V} :
    EntAbsorbed m it (⟨k, n⟩, d) ↔ Versions.Hidden (Upto m) S k n := by
  constructor
  · rintro ⟨⟨⟨k', n'⟩, d'⟩, hin, hlt, rfl, hlow⟩
    refine ⟨n', d', (hmem k' n' d').1 hin, ?_, hlow⟩
    rcases RecordKey.lt_iff.1 hlt with h | ⟨-, h⟩
    · exact absurd h (lt_irrefl _)
    · exact h
  · rintro ⟨n', d', hin, hlt, hlow⟩
    exact ⟨(⟨k, n'⟩, d'), (hmem k n' d').2 hin, RecordKey.lt_iff.2 (Or.inr ⟨rfl, hlt⟩), rfl,
      hlow⟩

/-- **The fold leaves the records that are not hidden.** -/
theorem fold_merged {m : U64} (hpw : it.Pairwise fun a b => a.1 ≤ b.1)
    (hd : Adjacent.Distinct (Prod.fst : Ent K V → RecordKey K) (fun e => e.1.key)
      (fun e => Upto m e.1.seqMarked) it) :
    ∃ out, Adjacent.coalesce (Coalesce.mk m).coalesce it = .ok out ∧ KeyAscending out ∧
      ∀ k n d, ((⟨k, n⟩, d) : Ent K V) ∈ out ↔ Versions.prune (Upto m) S k n d := by
  classical
  refine ⟨it.filter fun x => ¬EntAbsorbed m it x,
    Adjacent.coalesce_prune (prunes_coalesce m) grouped_key hpw hd,
    Adjacent.ascending_filter_absorbed hpw hd _ fun x hx => of_decide_eq_true hx,
    fun k n d => ?_⟩
  rw [List.mem_filter, hmem, decide_eq_true_eq, absorbed_iff_hidden hmem]
  rfl

end Merged

section Pair

variable {t other : Table K V} {it : List (Ent K V)}
  (hperm : it.Perm ([t, other].map fun t => t.inner.entries).flatten)

include hperm

theorem mem_merged (k : K) (n : Marker) (d : Option V) :
    ((⟨k, n⟩, d) : Ent K V) ∈ it ↔ Either t other k n d := by
  rw [hperm.mem_iff]
  simp [Either, Holds]

/-- The stream is accepted when every collision is hidden. -/
theorem distinct_iff_collisionsHidden {m : U64} :
    Adjacent.Distinct (Prod.fst : Ent K V → RecordKey K) (fun e => e.1.key)
      (fun e => Upto m e.1.seqMarked) it ↔ CollisionsHidden t other m := by
  have habs := fun {k n d} =>
    absorbed_iff_hidden (mem_merged hperm) (m := m) (k := k) (n := n) (d := d)
  have hsymm : ∀ {a b : Ent K V}, (a.1 = b.1 → EntAbsorbed m it a) →
      b.1 = a.1 → EntAbsorbed m it b := by
    rintro ⟨⟨k, n⟩, d⟩ ⟨⟨k', n'⟩, d'⟩ h heq
    cases heq
    exact habs.2 (habs.1 (h rfl))
  have hone : ∀ l : List (Ent K V), KeyAscending l →
      l.Pairwise fun a b => a.1 = b.1 → EntAbsorbed m it a :=
    fun l hl => hl.imp fun hlt heq => absurd heq (ne_of_lt hlt)
  have hflat : ([t, other].map fun t => t.inner.entries).flatten =
      t.inner.entries ++ other.inner.entries := by simp
  rw [Adjacent.Distinct, hperm.pairwise_iff hsymm, hflat, List.pairwise_append]
  constructor
  · rintro ⟨-, -, hcross⟩ k n ⟨⟨d, hd⟩, d', hd'⟩
    exact habs.1 (hcross _ hd _ hd' rfl)
  · intro h
    refine ⟨hone _ t.inner.sorted, hone _ other.inner.sorted, ?_⟩
    rintro ⟨⟨k, n⟩, d⟩ ha ⟨⟨k', n'⟩, d'⟩ hb heq
    cases heq
    exact habs.2 (h k n ⟨⟨d, ha⟩, d', hb⟩)

end Pair

/-! ### What a compaction leaves -/

/-- **Compaction keeps the records that are not hidden**, when every collision is. -/
theorem compact_spec (P : KMerge.Picker Fault (Ent K V)) {t other : Table K V} {m : U64}
    (h : CollisionsHidden t other m) :
    ∃ t', t.compact P other m = .ok t' ∧ t'.lastSeq = max t.lastSeq other.lastSeq ∧
      ∀ k n d, t'.Holds k n d ↔ Versions.prune (Upto m) (Either t other) k n d := by
  obtain ⟨it, hit, hperm, hpw⟩ := exists_merged P [t, other]
  obtain ⟨out, hout, hasc, hmem⟩ :=
    fold_merged (mem_merged hperm) hpw ((distinct_iff_collisionsHidden hperm).2 h)
  refine ⟨⟨.fromIter out, max t.lastSeq other.lastSeq⟩, ?_, rfl, fun k n d => ?_⟩
  · rw [compact, max_comm, max_def_lt]
    change (KMerge.merge P entryBefore ([t, other].map fun t => t.inner.entries) >>= _) = _
    rw [hit, ok_bind]
    simp only [hout, ok_bind]
    rfl
  · rw [Holds, BTreeMap.entries_fromIter hasc, hmem]

/-- **A collision that is not hidden trips the assertion** of the fold. -/
theorem compact_error (P : KMerge.Picker Fault (Ent K V)) {t other : Table K V} {m : U64}
    (h : ¬CollisionsHidden t other m) : t.compact P other m = .error .coalesceOrder := by
  obtain ⟨it, hit, hperm, hpw⟩ := exists_merged P [t, other]
  have hd := mt (distinct_iff_collisionsHidden hperm).1 h
  rw [compact]
  change (KMerge.merge P entryBefore ([t, other].map fun t => t.inner.entries) >>= _) = _
  rw [hit, ok_bind]
  simp only [Adjacent.coalesce_prune_error (prunes_coalesce m) grouped_key hpw hd, error_bind]

/-- A compaction that succeeds. -/
theorem compact_eq_ok {P : KMerge.Picker Fault (Ent K V)} {t other t' : Table K V} {m : U64}
    (h : t.compact P other m = .ok t') :
    CollisionsHidden t other m ∧ t'.lastSeq = max t.lastSeq other.lastSeq ∧
      ∀ k n d, t'.Holds k n d ↔ Versions.prune (Upto m) (Either t other) k n d := by
  by_cases hc : CollisionsHidden t other m
  · obtain ⟨t'', heq, hlast, hholds⟩ := compact_spec P hc
    rw [h] at heq
    cases heq
    exact ⟨hc, hlast, hholds⟩
  · rw [compact_error P hc] at h
    cases h

/-- Among the records of a table up to a sequence number one is the newest of its key. -/
theorem hasLatest_holds (t : Table K V) (u : U64) : Versions.HasLatest (Upto u) t.Holds :=
  Versions.hasLatest_of_sees fun k => t.exists_sees k u

theorem hasLatest_union (t other : Table K V) (u : U64) :
    Versions.HasLatest (Upto u) (Versions.union t.Holds other.Holds) :=
  (t.hasLatest_holds u).union (other.hasLatest_holds u)

/-- **A compaction leaves the second table on top of the first, less hidden records.** -/
theorem prunedTo_compact {P : KMerge.Picker Fault (Ent K V)} {t other t' : Table K V} {m : U64}
    (h : t.compact P other m = .ok t') :
    Versions.PrunedTo (Upto m) t'.Holds (Versions.overlay t.Holds other.Holds) := by
  obtain ⟨hc, -, hholds⟩ := compact_eq_ok h
  have hpruned : Versions.PrunedTo (Upto m) t'.Holds (Either t other) := by
    have heq : t'.Holds = Versions.prune (Upto m) (Either t other) := by
      funext k n d
      exact propext (hholds k n d)
    rw [heq]
    exact Versions.prunedTo_prune (hasLatest_union t other m)
  constructor
  · intro k n d hn
    obtain ⟨hin, hnot⟩ := (hholds k n d).1 hn
    rcases hin with hin | hin
    · exact Or.inr ⟨hin, fun d' hd' => hnot (hc k n ⟨⟨d, hin⟩, d', hd'⟩)⟩
    · exact Or.inl hin
  · rintro k n d (hin | ⟨hin, -⟩)
    · exact hpruned.kept (Or.inr hin)
    · exact hpruned.kept (Or.inl hin)

end Table

end MapApi
