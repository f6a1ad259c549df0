/-
**Compaction is invisible to live snapshots.**

A table is written by insertions and applications, and compacted from time to time at watermarks
that no live snapshot is below.  Its twin takes the same writes, and where the table is compacted
with another one it is only extended by that one's records.  Whatever the order of the steps, the
records missing from the table are hidden by newer ones at or below a watermark used so far, so a
reader at or above every watermark cannot tell the two apart.

Main definitions:

* `MapApi.Table.Step`, `MapApi.Table.Step.exec`, `MapApi.Table.Step.execTwin` — the steps of a run,
  on the table and on its twin;
* `MapApi.Table.watermarks`, `MapApi.Table.Twin` — the watermarks of a run, and the invariant.

Main results:

* `MapApi.Table.Twin.step`, `MapApi.Table.Twin.run` — one step, and a run, keep the invariant;
* `MapApi.Table.reads_of_compacted_run` — **a reader above the watermarks reads the same from the
  table and its twin**.
-/

import MapApi.Compact

set_option relaxedAutoImplicit false
set_option autoImplicit false

namespace MapApi

namespace Table

variable {K V : Type} [LinearOrder K]

/-! ### Runs -/

/-- A step of a run. -/
inductive Step (K V : Type) [LinearOrder K] where
  | insert (key : K) (seq : U64) (value : V)
  | insertTombstone (key : K) (seq : U64)
  | apply (other : Table K V)
  | compact (other : Table K V) (minSnapshotSeq : U64)

/-- A step on the table, which fails when an insertion is refused or a call panics. -/
def Step.exec (P : KMerge.Picker Fault (Ent K V)) (t : Table K V) :
    Step K V → Except Fault (Table K V)
  | .insert key seq value => unwrapInsert (t.insert key seq value)
  | .insertTombstone key seq => unwrapInsert (t.insertTombstone key seq)
  | .apply other => t.apply other
  | .compact other minSnapshotSeq => t.compact P other minSnapshotSeq

/-- The step on the twin: a compaction only extends it by the other table's records. -/
def Step.execTwin (u : Table K V) : Step K V → Except Fault (Table K V)
  | .insert key seq value => unwrapInsert (u.insert key seq value)
  | .insertTombstone key seq => unwrapInsert (u.insertTombstone key seq)
  | .apply other => u.apply other
  | .compact other _ =>
      .ok ⟨u.inner.extend other.inner.entries, max u.lastSeq other.lastSeq⟩

/-- The watermark of a step. -/
def Step.watermark? : Step K V → Option U64
  | .compact _ minSnapshotSeq => some minSnapshotSeq
  | _ => none

/-- The watermarks of a run. -/
def watermarks (steps : List (Step K V)) : List U64 := steps.filterMap Step.watermark?

/-! ### The invariant -/

/-- A marker at or below one of the watermarks. -/
def UptoAny (ws : List U64) (n : Marker) : Prop := ∃ w ∈ ws, Upto w n

theorem UptoAny.mono {ws ws' : List U64} (h : ws ⊆ ws') {n : Marker} (hn : UptoAny ws n) :
    UptoAny ws' n := by
  obtain ⟨w, hw, hle⟩ := hn
  exact ⟨w, h hw, hle⟩

/-- **The table is its twin less hidden records**, and takes the same writes. -/
structure Twin (ws : List U64) (t u : Table K V) : Prop where
  lastSeq : t.lastSeq = u.lastSeq
  pruned : Versions.PrunedTo (UptoAny ws) t.Holds u.Holds

theorem Twin.refl (ws : List U64) (t : Table K V) : Twin ws t t := ⟨rfl, .refl _ _⟩

theorem Twin.put {ws : List U64} {t u : Table K V} (h : Twin ws t u) (k : K) (m : Marker)
    (d : Option V) : Twin ws (t.put k m d) (u.put k m d) := by
  refine ⟨rfl, ?_⟩
  rw [holds_put_eq_overlay, holds_put_eq_overlay]
  exact h.pruned.overlay _

/-- An insertion that the table accepts, its twin accepts. -/
theorem Twin.internalInsert {ws : List U64} {t u t' : Table K V} (h : Twin ws t u) {k : K}
    {m : Marker} {d : Option V} (ht : unwrapInsert (t.internalInsert k m d) = .ok t') :
    ∃ u', unwrapInsert (u.internalInsert k m d) = .ok u' ∧ Twin ws t' u' := by
  obtain ⟨hle, rfl⟩ := unwrapInsert_eq_ok.1 ht
  rw [h.lastSeq] at hle
  exact ⟨_, unwrapInsert_eq_ok.2 ⟨hle, rfl⟩, h.put k m d⟩

theorem Twin.apply {ws : List U64} {t u t' other : Table K V} (h : Twin ws t u)
    (ht : t.apply other = .ok t') : ∃ u', u.apply other = .ok u' ∧ Twin ws t' u' := by
  obtain ⟨hle, rfl⟩ := apply_eq_ok.1 ht
  rw [h.lastSeq] at hle
  refine ⟨_, apply_eq_ok.2 ⟨hle, rfl⟩, rfl, ?_⟩
  rw [holds_extend, holds_extend]
  exact h.pruned.overlay _

/-- What a compaction drops is hidden at its own watermark; what was dropped before stays
hidden. -/
theorem Twin.compact {P : KMerge.Picker Fault (Ent K V)} {ws : List U64}
    {t u t' other : Table K V} {m : U64} (h : Twin ws t u) (ht : t.compact P other m = .ok t') :
    Twin (ws ++ [m]) t' ⟨u.inner.extend other.inner.entries, max u.lastSeq other.lastSeq⟩ := by
  refine ⟨by rw [(compact_eq_ok ht).2.1, h.lastSeq], ?_⟩
  rw [holds_extend]
  have hnew : Versions.PrunedTo (UptoAny (ws ++ [m])) t'.Holds
      (Versions.overlay t.Holds other.Holds) :=
    (prunedTo_compact ht).mono fun n hn => ⟨m, by simp, hn⟩
  have hold : Versions.PrunedTo (UptoAny (ws ++ [m])) (Versions.overlay t.Holds other.Holds)
      (Versions.overlay u.Holds other.Holds) :=
    (h.pruned.overlay _).mono fun n hn => hn.mono (List.subset_append_left ws [m])
  exact hnew.trans hold

/-- **One step keeps the invariant**, and its twin succeeds when it does. -/
theorem Twin.step {P : KMerge.Picker Fault (Ent K V)} {ws : List U64} {t u t' : Table K V}
    (h : Twin ws t u) {s : Step K V} (ht : s.exec P t = .ok t') :
    ∃ u', s.execTwin u = .ok u' ∧ Twin (ws ++ s.watermark?.toList) t' u' := by
  cases s with
  | insert key seq value =>
      obtain ⟨u', hu', h'⟩ := h.internalInsert ht
      exact ⟨u', hu', by simpa [Step.watermark?] using h'⟩
  | insertTombstone key seq =>
      obtain ⟨u', hu', h'⟩ := h.internalInsert ht
      exact ⟨u', hu', by simpa [Step.watermark?] using h'⟩
  | apply other =>
      obtain ⟨u', hu', h'⟩ := h.apply ht
      exact ⟨u', hu', by simpa [Step.watermark?] using h'⟩
  | compact other m => exact ⟨_, rfl, h.compact ht⟩

/-- **A run keeps the invariant**, by induction on its steps. -/
theorem Twin.run {P : KMerge.Picker Fault (Ent K V)} (steps : List (Step K V)) :
    ∀ {ws : List U64} {t u t' : Table K V}, Twin ws t u →
      steps.foldlM (Step.exec P) t = .ok t' →
      ∃ u', steps.foldlM Step.execTwin u = .ok u' ∧ Twin (ws ++ watermarks steps) t' u' := by
  induction steps with
  | nil =>
      intro ws t u t' h ht
      cases ht
      exact ⟨u, rfl, by simpa [watermarks] using h⟩
  | cons s steps ih =>
      intro ws t u t' h ht
      rw [List.foldlM_cons] at ht
      obtain ⟨t₁, hstep, ht⟩ := bind_eq_ok.1 ht
      obtain ⟨u₁, hstep', h₁⟩ := h.step hstep
      obtain ⟨u', hu', h'⟩ := ih h₁ ht
      refine ⟨u', by rw [List.foldlM_cons, hstep', ok_bind, hu'], ?_⟩
      have hws : watermarks (s :: steps) = s.watermark?.toList ++ watermarks steps := by
        rw [watermarks, List.filterMap_cons]
        cases s.watermark? <;> rfl
      rwa [hws, ← List.append_assoc]

/-- A reader above the watermarks reads the same from the table and its twin. -/
theorem Twin.reads {ws : List U64} {t u : Table K V} (h : Twin ws t u) {T : U64}
    (hT : ∀ w ∈ ws, w ≤ T) :
    (∀ k, t.get k T = u.get k T) ∧ ∀ r, t.range r T = u.range r T := by
  have hadm : ∀ n, UptoAny ws n → Upto T n := by
    rintro n ⟨w, hw, hle⟩
    exact le_trans hle (hT w hw)
  constructor
  · intro k
    exact get_congr fun r hr => (h.pruned.sees_iff hadm).1 hr
  · exact range_congr fun k m d => h.pruned.isLatest_iff hadm

/-- **Compaction is invisible**: after any run from the empty table, its twin has run as well, and
a reader at or above every watermark used so far reads the same from both. -/
theorem reads_of_compacted_run (P : KMerge.Picker Fault (Ent K V)) {steps : List (Step K V)}
    {t : Table K V} (hrun : steps.foldlM (Step.exec P) new = .ok t) :
    ∃ u, steps.foldlM Step.execTwin new = .ok u ∧
      ∀ T, (∀ w ∈ watermarks steps, w ≤ T) →
        (∀ k, t.get k T = u.get k T) ∧ ∀ r, t.range r T = u.range r T := by
  obtain ⟨u, hu, h⟩ := Twin.run steps (Twin.refl [] new) hrun
  refine ⟨u, hu, fun T hT => h.reads ?_⟩
  rwa [List.nil_append]

/-- A compaction that drops an older value of a key, and a write after it. -/
theorem reads_of_compacted_run_sample :
    let other : Table ℕ ℕ := ((new.insert 1 2 11).2.insert 2 3 20).2
    let steps : List (Step ℕ ℕ) :=
      [.insert 1 1 10, .compact other 2, .insertTombstone 2 3, .insert 1 4 12]
    ∃ t u, steps.foldlM (Step.exec .leftmost) new = .ok t ∧
      steps.foldlM Step.execTwin new = .ok u ∧ t ≠ u ∧
      ∀ T, 2 ≤ T → (∀ k, t.get k T = u.get k T) ∧ ∀ r, t.range r T = u.range r T := by
  intro other steps
  have hrun : steps.foldlM (Step.exec .leftmost) new =
      .ok ⟨.fromIter [(⟨1, .newNormal 4 ()⟩, some 12), (⟨1, .newNormal 2 ()⟩, some 11),
        (⟨2, .newTombstone 3⟩, none), (⟨2, .newNormal 3 ()⟩, some 20)], .newNormal 4 ()⟩ := by
    decide
  obtain ⟨u, hu, hreads⟩ := reads_of_compacted_run .leftmost hrun
  refine ⟨_, u, hrun, hu, ?_, fun T hT => hreads T fun w hw => ?_⟩
  · rintro rfl
    exact absurd hu (by decide)
  · rwa [List.mem_singleton.1 hw]

end Table

end MapApi
