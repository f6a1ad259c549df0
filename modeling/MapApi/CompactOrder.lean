/-
**What a compaction keeps, and the order of compactions.**

Tables that hold no record at one place compact without a panic.  Of each key a compaction keeps
every record above the watermark, and the greatest one at or below it.

That is a function of the records of both tables taken together, so it does not matter which of the
two tables is compacted with the other.  Nor does it matter that some of them have been compacted
before, at a watermark that is not above the present one: a record dropped then is hidden by one
that was kept, and it would be dropped now.  Compactions of several tables therefore come to the
same in any grouping, and to the same as one compaction of all of them.

Main definitions:

* `MapApi.Table.NoCollision` — tables that hold no record at one place;
* `MapApi.Table.compactAll` — the merge and fold of a compaction, over any number of tables.

Main results:

* `MapApi.Table.compact_keeps` — **what a compaction keeps**, record by record;
* `MapApi.Table.compactAll_pair`, `MapApi.Table.compactAll_ok` — a compaction of two tables is one
  over a list of two, and what is left of a list of tables;
* `MapApi.Table.compaction_order` — **the order in which tables are compacted does not matter**.
-/

import MapApi.Compact

set_option relaxedAutoImplicit false
set_option autoImplicit false

namespace MapApi

namespace Table

variable {K V : Type} [LinearOrder K]

/-- Two tables with the same records and last marker are equal. -/
theorem ext_holds {t t' : Table K V} (hlast : t.lastSeq = t'.lastSeq) (h : t.Holds = t'.Holds) :
    t = t' := by
  obtain ⟨inner, last⟩ := t
  obtain ⟨inner', last'⟩ := t'
  obtain rfl : last = last' := hlast
  have hinner : inner = inner' := by
    refine BTreeMap.ext_mem ?_
    rintro ⟨⟨k, m⟩, d⟩
    exact iff_of_eq (congrFun (congrFun (congrFun h k) m) d)
  rw [hinner]

/-! ### Tables without collisions -/

/-- The tables hold no record at one place. -/
def NoCollision (t other : Table K V) : Prop := ∀ k n, ¬Collide t other k n

theorem noCollision_iff {t other : Table K V} :
    NoCollision t other ↔ ∀ e ∈ t.inner.entries, ∀ e' ∈ other.inner.entries, e.1 ≠ e'.1 := by
  constructor
  · rintro h ⟨⟨k, n⟩, d⟩ he ⟨⟨k', n'⟩, d'⟩ he' heq
    cases heq
    exact h k n ⟨⟨d, he⟩, d', he'⟩
  · rintro h k n ⟨⟨d, hd⟩, d', hd'⟩
    exact h _ hd _ hd' rfl

instance (t other : Table K V) : Decidable (NoCollision t other) :=
  decidable_of_iff _ noCollision_iff.symm

theorem NoCollision.symm {t other : Table K V} (h : NoCollision t other) : NoCollision other t :=
  fun k n hc => h k n hc.symm

/-- **A compaction without collisions** leaves the records of both tables that are not hidden. -/
theorem NoCollision.compact_ok {a b : Table K V} (h : NoCollision a b)
    (P : KMerge.Picker Fault (Ent K V)) (m : U64) :
    ∃ t, a.compact P b m = .ok t ∧ t.lastSeq = max a.lastSeq b.lastSeq ∧
      t.Holds = Versions.prune (Upto m) (Versions.union a.Holds b.Holds) := by
  obtain ⟨t, ht, hlast, hholds⟩ := compact_spec P (m := m) fun k n hc => absurd hc (h k n)
  refine ⟨t, ht, hlast, ?_⟩
  funext k n d
  exact propext (hholds k n d)

/-- What such a compaction leaves collides with a third table only if one of the two does. -/
theorem NoCollision.compacted {a b c t : Table K V} {m : U64} (hac : NoCollision a c)
    (hbc : NoCollision b c)
    (ht : t.Holds = Versions.prune (Upto m) (Versions.union a.Holds b.Holds)) :
    NoCollision t c := by
  rintro k n ⟨⟨d, hd⟩, hother⟩
  rw [ht] at hd
  rcases hd.1 with hd | hd
  · exact hac k n ⟨⟨d, hd⟩, hother⟩
  · exact hbc k n ⟨⟨d, hd⟩, hother⟩

/-! ### What a compaction keeps -/

/-- **A compaction keeps exactly what it must**: of each key the records above the watermark, and
the greatest one at or below it. -/
theorem compact_keeps (P : KMerge.Picker Fault (Ent K V)) {a b : Table K V}
    (h : NoCollision a b) (m : U64) :
    ∃ t, a.compact P b m = .ok t ∧ t.lastSeq = max a.lastSeq b.lastSeq ∧
      (∀ k n d, t.Holds k n d ↔ Either a b k n d ∧
        (m < n.seq ∨ (n.seq ≤ m ∧ ∀ n' d', Either a b k n' d' → n'.seq ≤ m → n' ≤ n))) ∧
      ∀ k, (∃ n d, Either a b k n d ∧ n.seq ≤ m) →
        ∃! e : Marker × Option V, t.Holds k e.1 e.2 ∧ e.1.seq ≤ m := by
  obtain ⟨t, ht, hlast, hholds⟩ := h.compact_ok P m
  have hdown : ∀ n n' : Marker, Upto m n' → n ≤ n' → Upto m n :=
    fun n n' hn' hle => le_trans (Marker.seq_le_of_le hle) hn'
  have hkeeps : ∀ k n d, t.Holds k n d ↔ Either a b k n d ∧
      (m < n.seq ∨ (n.seq ≤ m ∧ ∀ n' d', Either a b k n' d' → n'.seq ≤ m → n' ≤ n)) := by
    intro k n d
    rw [hholds, Versions.prune_iff hdown]
    refine and_congr_right fun _ => ⟨fun hnew => ?_, fun hnew hn => ?_⟩
    · rcases lt_or_ge m n.seq with hlt | hle
      · exact Or.inl hlt
      · exact Or.inr ⟨hle, hnew hle⟩
    · rcases hnew with hlt | ⟨-, hnew⟩
      · exact absurd hn (not_le.2 hlt)
      · exact hnew
  refine ⟨t, ht, hlast, hkeeps, fun k hk => ?_⟩
  -- the greatest record at or below the watermark is there, and alone
  obtain ⟨n, d, hmem, hn⟩ := hk
  obtain ⟨n', d', hlatest⟩ := hasLatest_union a b m k n d hmem hn
  have hin : t.Holds k n' d' :=
    (hkeeps k n' d').2 ⟨hlatest.mem, Or.inr ⟨hlatest.admitted, hlatest.newest⟩⟩
  refine ⟨(n', d'), ⟨hin, hlatest.admitted⟩, ?_⟩
  intro ⟨x, dx⟩ ⟨hx, hxm⟩
  obtain ⟨hmemx, hlt | ⟨-, hgreatest⟩⟩ := (hkeeps k x dx).1 hx
  · exact absurd hxm (not_le.2 hlt)
  · obtain rfl : x = n' := le_antisymm (hlatest.newest x dx hmemx hxm)
      (hgreatest n' d' hlatest.mem hlatest.admitted)
    exact Prod.ext rfl (t.functional_holds hx hin)

/-- A compaction that keeps two versions above the watermark and a tombstone below it. -/
theorem compact_keeps_sample :
    let a : Table ℕ ℕ := (((new.insert 1 2 10).2.insertTombstone 1 2).2.insert 1 5 11).2
    let b : Table ℕ ℕ := ((new.insert 1 1 9).2.insert 1 4 12).2
    ∃ t, a.compact .leftmost b 3 = .ok t ∧ t.lastSeq = .newNormal 5 () ∧
      t.Holds 1 (.newTombstone 2) none ∧ ¬t.Holds 1 (.newNormal 2 ()) (some 10) := by
  intro a b
  obtain ⟨t, ht, -⟩ := compact_keeps .leftmost (a := a) (b := b) (by decide) 3
  have heq : a.compact .leftmost b 3 = .ok ⟨.fromIter [(⟨1, .newNormal 5 ()⟩, some 11),
      (⟨1, .newNormal 4 ()⟩, some 12), (⟨1, .newTombstone 2⟩, none)], .newNormal 5 ()⟩ := by
    decide
  cases heq.symm.trans ht
  exact ⟨_, heq, rfl, by decide, by decide⟩

/-! ### Compacting tables at once -/

/-- The merge and the fold of `Table::compact`, over any number of tables. -/
def compactAll (P : KMerge.Picker Fault (Ent K V)) (tables : List (Table K V))
    (minSnapshotSeq : U64) : Except Fault (Table K V) := do
  let it ← KMerge.merge P entryBefore (tables.map fun t => t.inner.entries)
  let it ← Adjacent.coalesce (Coalesce.mk minSnapshotSeq).coalesce it
  return ⟨.fromIter it, (tables.map lastSeq).foldl max Marker.zero⟩

/-- A compaction of two tables is one over a list of two. -/
theorem compactAll_pair (P : KMerge.Picker Fault (Ent K V)) (t other : Table K V) (m : U64) :
    compactAll P [t, other] m = t.compact P other m := by
  have hlast : ([t, other].map lastSeq).foldl max Marker.zero =
      if other.lastSeq < t.lastSeq then t.lastSeq else other.lastSeq := by
    rw [← max_def_lt, max_comm]
    exact congrArg (max · other.lastSeq) (max_eq_right (Marker.zero_le t.lastSeq))
  rw [compactAll, hlast]
  rfl

/-- The records of some tables. -/
def Among (tables : List (Table K V)) : Versions.Records K Marker (Option V) := fun k n d =>
  ∃ t ∈ tables, t.Holds k n d

/-- **A compaction of tables at once** leaves the records of all of them that are not hidden. -/
theorem compactAll_ok (P : KMerge.Picker Fault (Ent K V)) {tables : List (Table K V)}
    (h : tables.Pairwise NoCollision) (m : U64) :
    ∃ t, compactAll P tables m = .ok t ∧
      t.lastSeq = (tables.map lastSeq).foldl max Marker.zero ∧
      t.Holds = Versions.prune (Upto m) (Among tables) := by
  obtain ⟨it, hit, hperm, hpw⟩ := exists_merged P tables
  have hmem : ∀ k n d, ((⟨k, n⟩, d) : Ent K V) ∈ it ↔ Among tables k n d := by
    intro k n d
    rw [hperm.mem_iff]
    simp [Among, Holds]
  -- no two entries of the merged stream have one key
  have hne : it.Pairwise fun x y => x.1 ≠ y.1 := by
    rw [hperm.pairwise_iff fun hxy => Ne.symm hxy, List.pairwise_flatten]
    constructor
    · intro s hs
      obtain ⟨t, -, rfl⟩ := List.mem_map.1 hs
      exact t.inner.sorted.imp ne_of_lt
    · exact List.pairwise_map.2 (h.imp noCollision_iff.1)
  obtain ⟨out, hout, hasc, hkeep⟩ :=
    fold_merged hmem (m := m) hpw (hne.imp fun hxy heq => absurd heq hxy)
  refine ⟨⟨.fromIter out, (tables.map lastSeq).foldl max Marker.zero⟩, ?_, rfl, ?_⟩
  · rw [compactAll, hit, ok_bind, hout]
    rfl
  · funext k n d
    rw [Holds, BTreeMap.entries_fromIter hasc]
    exact propext (hkeep k n d)

/-! ### The order of compactions -/

section Order

variable {a b c : Table K V} (hab : NoCollision a b) (hac : NoCollision a c)
  (hbc : NoCollision b c) {m₁ m₂ : U64} (hm : m₁ ≤ m₂)

include hab hac hbc hm

/-- The first two of three tables compacted first, at a watermark that is not above the last. -/
theorem compact_first_two (P : KMerge.Picker Fault (Ent K V)) :
    ∃ t, (a.compact P b m₁ >>= fun ab => ab.compact P c m₂) = .ok t ∧
      t.lastSeq = max a.lastSeq (max b.lastSeq c.lastSeq) ∧
      t.Holds =
        Versions.prune (Upto m₂) (Versions.union a.Holds (Versions.union b.Holds c.Holds)) := by
  obtain ⟨ab, hab', hablast, habholds⟩ := hab.compact_ok P m₁
  obtain ⟨t, ht, hlast, hholds⟩ := (hac.compacted hbc habholds).compact_ok P m₂
  refine ⟨t, by rw [hab', ok_bind, ht], by rw [hlast, hablast, max_assoc], ?_⟩
  rw [hholds, habholds, Versions.prune_union_prune (fun n hn => le_trans hn hm)
    (hasLatest_union a b m₁), Versions.union_assoc]

/-- The last two of three tables compacted first, at a watermark that is not above the last. -/
theorem compact_last_two (P : KMerge.Picker Fault (Ent K V)) :
    ∃ t, (b.compact P c m₁ >>= fun bc => a.compact P bc m₂) = .ok t ∧
      t.lastSeq = max a.lastSeq (max b.lastSeq c.lastSeq) ∧
      t.Holds =
        Versions.prune (Upto m₂) (Versions.union a.Holds (Versions.union b.Holds c.Holds)) := by
  obtain ⟨bc, hbc', hbclast, hbcholds⟩ := hbc.compact_ok P m₁
  obtain ⟨t, ht, hlast, hholds⟩ :=
    (hab.symm.compacted hac.symm hbcholds).symm.compact_ok P m₂
  refine ⟨t, by rw [hbc', ok_bind, ht], by rw [hlast, hbclast], ?_⟩
  rw [hholds, hbcholds, Versions.union_comm, Versions.prune_union_prune
    (fun n hn => le_trans hn hm) (hasLatest_union b c m₁), Versions.union_comm]

omit hm in
/-- Three tables compacted at once. -/
theorem compactAll_three (P : KMerge.Picker Fault (Ent K V)) (m : U64) :
    ∃ t, compactAll P [a, b, c] m = .ok t ∧
      t.lastSeq = max a.lastSeq (max b.lastSeq c.lastSeq) ∧
      t.Holds =
        Versions.prune (Upto m) (Versions.union a.Holds (Versions.union b.Holds c.Holds)) := by
  have hfree : [a, b, c].Pairwise NoCollision := by
    simp [hab, hac, hbc]
  obtain ⟨t, ht, hlast, hholds⟩ := compactAll_ok P hfree m
  refine ⟨t, ht, ?_, ?_⟩
  · rw [hlast]
    change max (max (max Marker.zero a.lastSeq) b.lastSeq) c.lastSeq = _
    rw [max_eq_right (Marker.zero_le a.lastSeq), max_assoc]
  · have hamong : Among [a, b, c] =
        Versions.union a.Holds (Versions.union b.Holds c.Holds) := by
      funext k n d
      simp [Among, Versions.union]
    rw [hholds, hamong]

end Order

/-- **The order in which tables are compacted does not matter**: compacting two tables is
symmetric, and compacting three, two of them before at a watermark that is not above the last one,
leaves what compacting all three at once leaves, in whatever order streams with equal heads are
merged. -/
theorem compaction_order {a b c : Table K V} (hab : NoCollision a b) (hac : NoCollision a c)
    (hbc : NoCollision b c) :
    (∀ m, ∃ t, ∀ P, a.compact P b m = .ok t ∧ b.compact P a m = .ok t) ∧
    ∀ m₁ m₂, m₁ ≤ m₂ → ∃ t, ∀ P,
      (a.compact P b m₁ >>= fun ab => ab.compact P c m₂) = .ok t ∧
      (b.compact P c m₁ >>= fun bc => a.compact P bc m₂) = .ok t ∧
      compactAll P [a, b, c] m₂ = .ok t := by
  constructor
  · intro m
    obtain ⟨t, -, hlast, hholds⟩ := hab.compact_ok .leftmost m
    refine ⟨t, fun P => ?_⟩
    obtain ⟨x, hx, hxlast, hxholds⟩ := hab.compact_ok P m
    obtain ⟨y, hy, hylast, hyholds⟩ := hab.symm.compact_ok P m
    rw [max_comm, ← hlast] at hylast
    rw [Versions.union_comm, ← hholds] at hyholds
    rw [hx, hy, ext_holds (hxlast.trans hlast.symm) (hxholds.trans hholds.symm),
      ext_holds hylast hyholds]
    exact ⟨rfl, rfl⟩
  · intro m₁ m₂ hm
    obtain ⟨t, -, hlast, hholds⟩ := compactAll_three hab hac hbc .leftmost m₂
    refine ⟨t, fun P => ?_⟩
    obtain ⟨x, hx, hxlast, hxholds⟩ := compact_first_two hab hac hbc hm P
    obtain ⟨y, hy, hylast, hyholds⟩ := compact_last_two hab hac hbc hm P
    obtain ⟨z, hz, hzlast, hzholds⟩ := compactAll_three hab hac hbc P m₂
    rw [hx, hy, hz, ext_holds (hxlast.trans hlast.symm) (hxholds.trans hholds.symm),
      ext_holds (hylast.trans hlast.symm) (hyholds.trans hholds.symm),
      ext_holds (hzlast.trans hlast.symm) (hzholds.trans hholds.symm)]
    exact ⟨rfl, rfl, rfl⟩

/-- Three tables with versions of one key, the greatest one at or below the last watermark in the
second of them. -/
theorem compaction_order_sample :
    let a : Table ℕ ℕ := ((new.insert 1 1 10).2.insert 1 4 13).2
    let b : Table ℕ ℕ := (new.insertTombstone 1 3).2
    let c : Table ℕ ℕ := ((new.insert 1 2 11).2.insert 1 3 12).2
    ∃ t, (a.compact .leftmost b 1 >>= fun ab => ab.compact .leftmost c 3) = .ok t ∧
      (b.compact .leftmost c 1 >>= fun bc => a.compact .leftmost bc 3) = .ok t ∧
      t.inner.entries = [(⟨1, .newNormal 4 ()⟩, some 13), (⟨1, .newTombstone 3⟩, none)] := by
  intro a b c
  obtain ⟨t, ht⟩ := (compaction_order (a := a) (b := b) (c := c) (by decide) (by decide)
    (by decide)).2 1 3 (by decide)
  obtain ⟨hleft, hright, hall⟩ := ht .leftmost
  have heq : compactAll .leftmost [a, b, c] 3 = .ok ⟨.fromIter [(⟨1, .newNormal 4 ()⟩, some 13),
      (⟨1, .newTombstone 3⟩, none)], .newNormal 4 ()⟩ := by decide
  cases heq.symm.trans hall
  exact ⟨_, hleft, hright, rfl⟩

end Table

end MapApi
