/-
**Views with an initial sequence number of their own.**

The initial number of a view is not checked against its snapshot.  Below the snapshot's number, a
staged record may stand below the snapshot's record of its key, or beside it.  A point read takes
the staged record, a range read the greater one, and the two part.  A deletion staged at number `0`
reads as *not found*, so that a point read goes on to the snapshot.

Whether the reads of a key agree depends on its last staged write and on the snapshot alone, and a
call can be judged before it is made: it has to find the snapshot's record of its key at or below
the number it will take.

Main definitions:

* `MapApi.SeqMarked.Overrides` — a staged record that both reads take for the snapshot's;
* `MapApi.View.Covers` — a call finds the snapshot's record at or below its number;
* `MapApi.View.ReadsAgree` — the reads agree, and what was deleted last is not read as a value.

Main results:

* `MapApi.View.readsAgree_iff` — the reads agree where the last writes override the snapshot;
* `MapApi.View.covers_iff` — a call covers its key when its write overrides the snapshot;
* `MapApi.View.initial_seq_reads_agree_iff` — **the reads agree throughout a run exactly when every
  call covers its key**.
-/

import MapApi.Discipline
import MapApi.ViewRead

set_option relaxedAutoImplicit false
set_option autoImplicit false

namespace MapApi

/-! ### Overriding a record -/

namespace SeqMarked

variable {V : Type}

/-- **A staged record overrides one of the snapshot** when it is above it, or both are the same
tombstone.  One that reads as *not found* overrides tombstones only. -/
def Overrides (x y : SeqMarked V) : Prop :=
  if x.isNotFound then y.isTombstone = true
  else y.orderKey < x.orderKey ∨ (y.orderKey = x.orderKey ∧ x.isTombstone = true)

theorem overrides_of_isNotFound {x y : SeqMarked V} (h : x.isNotFound = true) :
    x.Overrides y ↔ y.isTombstone = true := by
  rw [Overrides, if_pos h]

theorem overrides_of_found {x y : SeqMarked V} (h : x.isNotFound = false) :
    x.Overrides y ↔
      y.orderKey < x.orderKey ∨ (y.orderKey = x.orderKey ∧ x.isTombstone = true) := by
  rw [Overrides, if_neg (Bool.not_eq_true _ ▸ h)]

theorem newNormal_overrides {n : U64} {v : V} {y : SeqMarked V} :
    (newNormal n v).Overrides y ↔ y.seq < n := by
  rw [overrides_of_found rfl, orderKey_newNormal, Marker.lt_newNormal_iff, seq_orderKey]
  simp

theorem newTombstone_overrides {n : U64} (hn : n ≠ 0) {y : SeqMarked V} :
    (newTombstone n : SeqMarked V).Overrides y ↔ y.seq ≤ n := by
  rw [overrides_of_found (isNotFound_of_seq_ne hn), orderKey_newTombstone, isTombstone_newTombstone,
    and_iff_left rfl, ← le_iff_lt_or_eq, Marker.le_newTombstone_iff, seq_orderKey]

/-- Of all tombstones, *not found* is the least. -/
theorem notFound_le_orderKey {x : SeqMarked V} (h : x.isTombstone = true) :
    (newNotFound : SeqMarked V).orderKey ≤ x.orderKey := by
  refine Marker.le_iff.2 ((Fin.zero_le x.seq).lt_or_eq.imp (fun hlt => ?_) fun heq => ?_)
  · rw [seq_orderKey, seq_orderKey]
    exact hlt
  · rw [seq_orderKey, seq_orderKey, isTombstone_orderKey, isTombstone_orderKey]
    exact ⟨heq, fun _ => h⟩

end SeqMarked

namespace View

/-! ### Calls that cover their key -/

section Covers

variable {D K V : Type} [LinearOrder K] [GetAtSeq D K V]

/-- **A call of `set` finds the snapshot's record of its key at or below the number it will take**:
the next one for a value, the next or the current one for a deletion.  A deletion at number `0`
finds a tombstone. -/
def Covers (w : View D K V) (key : K) (value : Option V) : Prop :=
  ∀ y, w.snapshot.get key = .ok y →
    if value.isSome then y.seq ≤ w.lastSeq
    else if w.increaseSeqForTombstone then y.seq.val ≤ w.lastSeq.val + 1
    else if w.lastSeq = 0 then y.isTombstone = true
    else y.seq ≤ w.lastSeq

/-- **A call covers its key when its write overrides what the snapshot shows.** -/
theorem covers_iff {w : View D K V} {key : K} {value : Option V} {x : SeqMarked V}
    (hx : w.nextValue? true value = some x) :
    w.Covers key value ↔ ∀ y, w.snapshot.get key = .ok y → x.Overrides y := by
  refine forall_congr' fun y => imp_congr_right fun _ => ?_
  obtain ⟨n, hn, rfl⟩ := Option.map_eq_some_iff.1 hx
  cases value with
  | some v =>
      have hval := U64.val_of_succ? (n := w.lastSeq) (by simpa using hn)
      rw [SeqMarked.ofData_some, SeqMarked.newNormal_overrides, Fin.lt_def, hval]
      exact Nat.lt_succ_iff.symm
  | none =>
      simp only [Option.isSome_none, Bool.false_eq_true, if_false] at hn ⊢
      rw [SeqMarked.ofData_none]
      split_ifs at hn ⊢ with hinc hzero
      · have hval := U64.val_of_succ? hn
        have hne : n ≠ 0 := fun h => by simp [h] at hval
        rw [SeqMarked.newTombstone_overrides hne, Fin.le_def, hval]
      · rw [SeqMarked.overrides_of_isNotFound]
        rw [← Option.some_inj.1 hn, hzero]
        rfl
      · rw [Option.some_inj] at hn
        rw [← hn, SeqMarked.newTombstone_overrides hzero]

end Covers

/-! ### States whose reads agree -/

variable {K V : Type} [LinearOrder K]

/-- **The two reads agree**: range reads answer as point reads do, and neither returns a value for a
key whose last staged write is a deletion. -/
structure ReadsAgree (P : KMerge.Picker Fault (KVResult K V)) (w : View (Table K V) K V)
    (log : List (K × SeqMarked V)) : Prop where
  range_agrees : w.RangeAgrees P
  get_deleted : ∀ k x y, lastStaged log k = some x → x.isTombstone = true →
    w.get k = .ok y → y.isTombstone = true
  range_deleted : ∀ k x y r out, lastStaged log k = some x → x.isTombstone = true →
    w.range P r = .ok (items out) → (k, y) ∈ out → y.isTombstone = true

/-- Where range reads agree, what they list is what `get` answers. -/
theorem RangeAgrees.get_of_mem {P : KMerge.Picker Fault (KVResult K V)}
    {w : View (Table K V) K V} (h : w.RangeAgrees P) {r : RangeBounds K}
    {out : List (K × SeqMarked V)} (hrange : w.range P r = .ok (items out)) {k : K}
    {y : SeqMarked V} (hy : (k, y) ∈ out) : w.get k = .ok y := by
  obtain ⟨b, hb, -⟩ := bind_eq_ok.1 hrange
  obtain ⟨base, hbase, heq⟩ := bind_eq_ok.1 hb
  cases heq
  have hr : ¬r.Inverted := by
    intro hinv
    have herr := w.snapshot.data.range_of_inverted hinv w.snapshot.snapshotSeq
    cases herr.symm.trans hbase
  obtain ⟨out', hout', -, hmem⟩ := (h r hr).2 base hb
  rw [hrange] at hout'
  rw [items_injective (Except.ok.inj hout')] at hy
  exact ((hmem k y).1 hy).2.2

section State

variable {n : U64} {inc : Bool} {log : List (K × SeqMarked V)} {w : View (Table K V) K V}
  (hst : Staged n log w) (hdom : Dominates n inc log)

include hst hdom

/-- The newest staged record of a key is the last write. -/
theorem Staged.exists_lastStaged {k : K} {m : Marker} {d : Option V}
    (h : w.LatestStaged k m d) :
    ∃ x, lastStaged log k = some x ∧ x.orderKey = m ∧ x.intoData = d := by
  have heq := (hst.sees_changes hdom k).unique w.changes.functional_holds
    (show Versions.Sees _ _ k (some (m, d)) from h)
  obtain ⟨x, hx, hxm⟩ := Option.map_eq_some_iff.1 heq
  cases hxm
  exact ⟨x, hx, rfl, rfl⟩

/-- The last write is the newest staged record of its key. -/
theorem Staged.latestStaged {k : K} {x : SeqMarked V} (h : lastStaged log k = some x) :
    w.LatestStaged k x.orderKey x.intoData := by
  have hsees := hst.sees_changes hdom k
  rw [h] at hsees
  exact hsees

/-- A last write that is found is what a point read answers. -/
theorem Staged.get_of_found {k : K} {x : SeqMarked V} (hx : lastStaged log k = some x)
    (hnf : x.isNotFound = false) : w.get k = .ok x :=
  get_of_isLatest hst.paired (hst.latestStaged hdom hx) hnf

/-- Behind a last write that reads as *not found*, the snapshot answers. -/
theorem Staged.get_of_isNotFound {k : K} {x : SeqMarked V} (hx : lastStaged log k = some x)
    (hnf : x.isNotFound = true) : w.get k = w.snapshot.get k :=
  get_of_isLatest_notFound hst.paired (hst.latestStaged hdom hx) hnf

/-- Behind a staged *not found*, the greatest record of a key is the snapshot's. -/
theorem Staged.isGreatest_of_isNotFound {r : RangeBounds K} {base updates : List (K × SeqMarked V)}
    (hbase : w.snapshot.data.range r w.snapshot.snapshotSeq = .ok base)
    (hupdates : w.changes.range r w.lastSeq = .ok updates) {k : K} {x : SeqMarked V}
    (hx : lastStaged log k = some x) (hnf : x.isNotFound = true)
    (hover : ∀ y, w.snapshot.get k = .ok y → x.Overrides y) {z : SeqMarked V} :
    IsGreatest [base, updates] k z ↔ r.Contains k ∧ w.snapshot.get k = .ok z := by
  have hin : ∀ z, (k, z) ∈ [base, updates].flatten ↔
      (r.Contains k ∧ w.snapshot.data.Visible w.snapshot.snapshotSeq k ∧
        w.snapshot.get k = .ok z) ∨ (r.Contains k ∧ z = .newNotFound) := by
    intro z
    have hmem := mem_updates hst.paired hupdates (hst.latestStaged hdom hx) (x := z)
    rw [SeqMarked.seq_orderKey, ← SeqMarked.eq_ofData, SeqMarked.isNotFound_iff.1 hnf] at hmem
    rw [List.flatten_cons, List.flatten_singleton, List.mem_append, hmem]
    exact or_congr_left (Table.mem_range_iff_get hbase)
  -- the snapshot's record is a tombstone, so it is at or above *not found*
  have hgreatest : ∀ y, r.Contains k → w.snapshot.get k = .ok y →
      y.isTombstone = true ∧ IsGreatest [base, updates] k y := by
    intro y hk hy
    have ht := (SeqMarked.overrides_of_isNotFound hnf).1 (hover y hy)
    refine ⟨ht, (hin y).2 ?_, fun y' hy' => ?_⟩
    · by_cases hvis : w.snapshot.data.Visible w.snapshot.snapshotSeq k
      · exact Or.inl ⟨hk, hvis, hy⟩
      · exact Or.inr ⟨hk, snapshot_get_of_not_visible hvis hy⟩
    · rcases (hin y').1 hy' with ⟨-, -, hget⟩ | ⟨-, rfl⟩
      · rw [Except.ok.inj (hy.symm.trans hget)]
      · exact SeqMarked.notFound_le_orderKey ht
  constructor
  · intro hz
    have hk : r.Contains k := ((hin z).1 hz.1).elim And.left And.left
    obtain ⟨y, hy⟩ := Table.get_ok_of_range hbase hk
    obtain ⟨ht, hgy⟩ := hgreatest y hk hy
    have heq : y.orderKey = z.orderKey := le_antisymm (hz.2 y hgy.1) (hgy.2 z hz.1)
    exact ⟨hk, SeqMarked.eq_of_orderKey_tombstone heq ht ▸ hy⟩
  · rintro ⟨hk, hget⟩
    exact (hgreatest z hk hget).2

/-- **Where the last writes override the snapshot, its layers merge to what `get` answers.** -/
theorem Staged.rangeAgrees_of_overrides (P : KMerge.Picker Fault (KVResult K V))
    (hover : ∀ k x y, lastStaged log k = some x → w.snapshot.get k = .ok y → x.Overrides y) :
    w.RangeAgrees P := by
  refine rangeAgrees_of_greatest P hst.paired (fun k m d h => (hst.seq_of_holds h).2)
    fun {r base updates} hbase hupdates => ⟨?_, fun k m d z hm => ?_⟩
  · refine compatible_layers (fun k m d y hm _ hget heq => ?_) hbase hupdates
    obtain ⟨x, hx, rfl, -⟩ := hst.exists_lastStaged hdom hm
    have hxy := hover k x y hx hget
    cases hnf : x.isNotFound with
    | true => exact (SeqMarked.overrides_of_isNotFound hnf).1 hxy
    | false =>
        rcases (SeqMarked.overrides_of_found hnf).1 hxy with hlt | ⟨-, ht⟩
        · exact absurd heq (ne_of_lt hlt)
        · rw [← SeqMarked.isTombstone_orderKey, heq, SeqMarked.isTombstone_orderKey]
          exact ht
  · obtain ⟨x, hx, rfl, rfl⟩ := hst.exists_lastStaged hdom hm
    cases hnf : x.isNotFound with
    | true =>
        rw [hst.get_of_isNotFound hdom hx hnf]
        exact hst.isGreatest_of_isNotFound hdom hbase hupdates hx hnf (hover k x · hx)
    | false =>
        have hlay : w.Layered k := by
          intro m d y hm' _ hget
          obtain ⟨x', hx', rfl, rfl⟩ := hst.exists_lastStaged hdom hm'
          obtain rfl : x = x' := Option.some_inj.1 (hx.symm.trans hx')
          rw [SeqMarked.isTombstone_orderKey]
          exact (SeqMarked.overrides_of_found hnf).1 (hover k x y hx hget)
        rw [isGreatest_of_staged hst.paired hbase hupdates hlay hm, SeqMarked.seq_orderKey,
          ← SeqMarked.eq_ofData, hst.get_of_found hdom hx hnf, Except.ok.injEq, eq_comm]

/-- Where the reads agree, a last write that is found overrides what the snapshot shows. -/
theorem Staged.overrides_of_rangeAgrees {P : KMerge.Picker Fault (KVResult K V)}
    (hagree : w.RangeAgrees P) {k : K} {x y : SeqMarked V} (hx : lastStaged log k = some x)
    (hnf : x.isNotFound = false) (hy : w.snapshot.get k = .ok y) : x.Overrides y := by
  have hm := hst.latestStaged hdom hx
  rw [SeqMarked.overrides_of_found hnf, ← SeqMarked.isTombstone_orderKey x]
  by_cases hvis : w.snapshot.data.Visible w.snapshot.snapshotSeq k
  · refine above_of_rangeAgrees hst.paired hagree hm ?_ hy hvis
    rw [SeqMarked.seq_orderKey, ← SeqMarked.eq_ofData]
    exact hst.get_of_found hdom hx hnf
  · -- the snapshot shows nothing, which is the least tombstone
    rw [snapshot_get_of_not_visible hvis hy]
    obtain ⟨z, hz, hzx, -⟩ := LogHolds.mem (hst.holds_changes ▸ hm.mem)
    have habove : SeqMarked.newTombstone 0 ≤ x.orderKey := by
      rw [← hzx]
      exact le_trans (Marker.le_newTombstone_iff.2 (Fin.zero_le n)) (hdom.above _ hz)
    refine (lt_or_eq_of_le habove).imp_right fun heq => ⟨heq, ?_⟩
    rw [← heq]
    rfl

/-- Where the last writes override what the snapshot shows, a deleted key reads as a tombstone. -/
theorem Staged.isTombstone_of_get {k : K} {x y : SeqMarked V} (hx : lastStaged log k = some x)
    (ht : x.isTombstone = true) (hover : ∀ y, w.snapshot.get k = .ok y → x.Overrides y)
    (hy : w.get k = .ok y) : y.isTombstone = true := by
  cases hnf : x.isNotFound with
  | true =>
      rw [hst.get_of_isNotFound hdom hx hnf] at hy
      exact (SeqMarked.overrides_of_isNotFound hnf).1 (hover y hy)
  | false =>
      rw [hst.get_of_found hdom hx hnf] at hy
      cases hy
      exact ht

/-- **The reads agree exactly where the last writes override what the snapshot shows.** -/
theorem readsAgree_iff (P : KMerge.Picker Fault (KVResult K V)) :
    w.ReadsAgree P log ↔
      ∀ k x y, lastStaged log k = some x → w.snapshot.get k = .ok y → x.Overrides y := by
  constructor
  · intro h k x y hx hy
    cases hnf : x.isNotFound with
    | true =>
        -- the point read goes on to the snapshot
        rw [SeqMarked.overrides_of_isNotFound hnf]
        have ht : x.isTombstone = true := by
          rw [SeqMarked.isNotFound_iff.1 hnf]
          rfl
        refine h.get_deleted k x y hx ht ?_
        rw [hst.get_of_isNotFound hdom hx hnf, hy]
    | false => exact hst.overrides_of_rangeAgrees hdom h.range_agrees hx hnf hy
  · intro hover
    have hagree := hst.rangeAgrees_of_overrides hdom P hover
    refine ⟨hagree, fun k x y hx ht hy => ?_, fun k x y r out hx ht hrange hy => ?_⟩
    · exact hst.isTombstone_of_get hdom hx ht (hover k x · hx) hy
    · exact hst.isTombstone_of_get hdom hx ht (hover k x · hx) (hagree.get_of_mem hrange hy)

end State

/-! ### Runs -/

/-- A successful `set` stages its write. -/
theorem Ready.call_set_eq_ok {w w' : View (Table K V) K V} (h : w.Ready) {key : K}
    {value : Option V} {reply : Reply V} (hc : w.call (.set key value) = (.ok reply, w')) :
    ∃ x, w.nextValue? true value = some x ∧
      (Call.set key value).staged reply = some (key, x) := by
  rw [call, h.set_eq] at hc
  cases hx : w.nextValue? true value with
  | none => rw [hx] at hc; cases hc
  | some x =>
      rw [hx] at hc
      cases hc
      refine ⟨x, rfl, ?_⟩
      rw [Call.staged, SeqMarked.seq_orderKey, Call.value, ← nextValue?_intoData hx]
      rfl

/-- **Whatever initial number a view is given, its reads agree in every state of a run of `set`
calls exactly when every call covers its key.** -/
theorem initial_seq_reads_agree_iff (P : KMerge.Picker Fault (KVResult K V)) {s n : U64}
    {base : Table K V} {inc : Bool} {calls : List (Call K V)}
    (hcalls : ∀ c ∈ calls, ∃ key value, c = .set key value) {replies : List (Reply V)}
    {w : View (Table K V) K V} (hrun : (fresh (.new s base) inc n).run calls = .ok (replies, w)) :
    (∀ calls₁ replies₁ w₁, calls₁ <+: calls →
      (fresh (.new s base) inc n).run calls₁ = .ok (replies₁, w₁) →
      w₁.ReadsAgree P (stagedLog calls₁ replies₁)) ↔
    ∀ calls₁ key value replies₁ w₁, calls₁ ++ [.set key value] <+: calls →
      (fresh (.new s base) inc n).run calls₁ = .ok (replies₁, w₁) → w₁.Covers key value := by
  have hstaged : ∀ {calls₁ replies₁ w₁}, calls₁ <+: calls →
      (fresh (.new s base) inc n).run calls₁ = .ok (replies₁, w₁) →
      Staged n (stagedLog calls₁ replies₁) w₁ ∧ Dominates n inc (stagedLog calls₁ replies₁) ∧
        w₁.snapshot = .new s base := by
    intro calls₁ replies₁ w₁ hpre h
    obtain ⟨hst, hsnap, -⟩ := staged_run (fresh_changes _ inc n) h
    refine ⟨hst, dominates_run (fresh_changes _ inc n) (fun c hc => ?_) h, hsnap⟩
    obtain ⟨key, value, rfl⟩ := hcalls c (hpre.subset hc)
    rfl
  constructor
  · intro hagree calls₁ key value replies₁ w₁ hpre hrun₁
    -- the run goes on with the call, and the reads of its key agree after it
    obtain ⟨hst, -, hsnap⟩ := hstaged ((List.prefix_append _ _).trans hpre) hrun₁
    obtain ⟨reply, w₂, hcall, hrun₂⟩ := run_of_prefix_concat hrun hpre hrun₁
    obtain ⟨x, hx, hreply⟩ := hst.ready.call_set_eq_ok hcall
    obtain ⟨hst₂, hdom₂, hsnap₂⟩ := hstaged hpre hrun₂
    have hover := (readsAgree_iff hst₂ hdom₂ P).1 (hagree _ _ _ hpre hrun₂)
    refine (covers_iff hx).2 fun y hy => hover key x y ?_ ?_
    · rw [stagedLog_concat (length_replies hrun₁), hreply, Option.toList_some, lastStaged_concat,
        if_pos rfl]
    · rw [hsnap₂, ← hsnap]
      exact hy
  · intro hcovers calls₁ replies₁ w₁ hpre hrun₁
    obtain ⟨hst, hdom, -⟩ := hstaged hpre hrun₁
    have hI := run_induction (I := fun log w' => Staged n log w' ∧ w'.snapshot = .new s base ∧
      ∀ k x y, lastStaged log k = some x → w'.snapshot.get k = .ok y → x.Overrides y)
      (fun hI => hI.1.ready) ⟨staged_nil (fresh_changes _ inc n), rfl, nofun⟩ ?_ hrun₁
    · exact (readsAgree_iff hst hdom P).2 hI.2.2
    · rintro calls₂ c replies₂ w₂ x hpre₂ hrun₂ ⟨hst₂, hsnap₂, hover₂⟩ hx
      obtain ⟨key, value, rfl⟩ := hcalls c ((hpre₂.trans hpre).subset (by simp))
      refine ⟨hst₂.stage key (le_of_nextValue? hx), hsnap₂, fun k x' y hx' hy => ?_⟩
      rw [stage_snapshot] at hy
      rw [lastStaged_concat] at hx'
      split_ifs at hx' with hk
      · -- the key just written
        obtain rfl : key = k := hk
        obtain rfl : x = x' := Option.some_inj.1 hx'
        exact (covers_iff hx).1 (hcovers calls₂ key value _ _ (hpre₂.trans hpre) hrun₂) y hy
      · exact hover₂ k x' y hx' hy

/-- A view that starts one below its snapshot, at the number of the record it deletes. -/
theorem initial_seq_sample :
    ∃ replies, ∃ w : View (Table ℕ ℕ) ℕ ℕ,
      (fresh (.new 5 (Table.new.insert 1 4 10).2) false 4).run [.set 1 none] = .ok (replies, w) ∧
      w.ReadsAgree .leftmost (stagedLog [.set 1 none] replies) := by
  obtain ⟨replies, w, hrun⟩ : ∃ replies, ∃ w : View (Table ℕ ℕ) ℕ ℕ,
      (fresh (.new 5 (Table.new.insert 1 4 10).2) false 4).run [.set 1 none] =
        .ok (replies, w) := ⟨_, _, rfl⟩
  have hcalls : ∀ c ∈ [(Call.set 1 none : Call ℕ ℕ)], ∃ key value, c = .set key value :=
    fun c hc => ⟨1, none, List.mem_singleton.1 hc⟩
  refine ⟨replies, w, hrun, (initial_seq_reads_agree_iff .leftmost hcalls hrun).2 ?_ _ _ _
    (List.prefix_refl _) hrun⟩
  intro calls₁ key value replies₁ w₁ hpre hrun₁
  cases calls₁ with
  | nil =>
      obtain ⟨hc, -⟩ := List.cons_prefix_cons.1 hpre
      cases hc
      cases hrun₁
      intro y hy
      have hread : (Table.new.insert 1 4 10).2.get 1 5 = .ok (SeqMarked.newNormal 4 10) := by
        decide
      cases hread.symm.trans hy
      decide
  | cons c calls₁ =>
      obtain ⟨-, hpre⟩ := List.cons_prefix_cons.1 hpre
      simp at hpre

/-- **Below the snapshot's number the reads part**: a value beside one of the snapshot makes the
range read panic, a value below one of the snapshot is read by `get` alone, and a deletion at number
`0` leaves the snapshot's value to be read. -/
theorem initial_seq_reads_part :
    let beside : Snapshot (Table ℕ ℕ) := .new 1 (Table.new.insert 1 1 10).2
    let above : Snapshot (Table ℕ ℕ) := .new 2 (Table.new.insert 1 2 10).2
    (∃ replies w, (fresh beside false 0).run [.set 1 (some 11)] = .ok (replies, w) ∧
      w.range .leftmost .full = .error .byKeySeq ∧
      ¬w.ReadsAgree .leftmost (stagedLog [.set 1 (some 11)] replies)) ∧
    (∃ replies w, (fresh above false 0).run [.set 1 (some 11)] = .ok (replies, w) ∧
      w.get 1 = .ok (.newNormal 1 11) ∧
      w.range .leftmost .full = .ok (items [(1, .newNormal 2 10)]) ∧
      ¬w.ReadsAgree .leftmost (stagedLog [.set 1 (some 11)] replies)) ∧
    ∃ replies w, (fresh beside false 0).run [.set 1 none] = .ok (replies, w) ∧
      w.get 1 = .ok (.newNormal 1 10) ∧
      ¬w.ReadsAgree .leftmost (stagedLog [.set 1 none] replies) := by
  intro beside above
  refine ⟨?_, ?_, ?_⟩
  · refine ⟨_, _, rfl, by decide, fun h => ?_⟩
    exact (h.range_agrees .full RangeBounds.not_inverted_full).1 (by decide)
  · obtain ⟨replies, w, hrun, hget, hrange⟩ : ∃ replies w,
        (fresh above false 0).run [.set 1 (some 11)] = .ok (replies, w) ∧
        w.get 1 = .ok (.newNormal 1 11) ∧
        w.range .leftmost .full = .ok (items [(1, .newNormal 2 10)]) :=
      ⟨_, _, rfl, by decide, by decide⟩
    refine ⟨replies, w, hrun, hget, hrange, fun h => ?_⟩
    have hread := h.range_agrees.get_of_mem hrange (List.mem_singleton.2 rfl)
    cases hget.symm.trans hread
  · obtain ⟨replies, w, hrun, hget, hlast⟩ : ∃ replies w,
        (fresh beside false 0).run [.set 1 none] = .ok (replies, w) ∧
        w.get 1 = .ok (.newNormal 1 10) ∧
        lastStaged (stagedLog [.set 1 none] replies) 1 = some (.newTombstone 0) :=
      ⟨_, _, rfl, by decide, by decide⟩
    refine ⟨replies, w, hrun, hget, fun h => ?_⟩
    cases h.get_deleted 1 _ _ hlast rfl hget

end View

end MapApi
