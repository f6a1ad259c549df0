/-
**When tables are compacted does not matter.**

Two schedules of the same writes differ in when and how often they compact: changes are applied in
one and compacted in the other, at one watermark or another, and the table is compacted by itself in
between, or is not.  Both tables are their common twin less hidden records, so both read the same
above the watermarks used so far, and the next compaction at or above those watermarks leaves one
table.

Main definitions:

* `MapApi.Table.SameWrite`, `MapApi.Table.SameWrites` — steps, and schedules, of the same writes.

Main results:

* `Versions.PrunedTo.prune_union` — hidden records that are missing are not missed when pruning;
* `MapApi.Table.Twin.compact_eq` — **a compaction takes a table and its twin to one table**, or
  refuses both;
* `MapApi.Table.schedules_converge` — **so two schedules end in one table**.
-/

import MapApi.CompactOrder
import MapApi.CompactRun

set_option relaxedAutoImplicit false
set_option autoImplicit false

namespace Versions

variable {κ μ ν : Type} [LinearOrder μ] {P Q : μ → Prop} {A B : Records κ μ ν} {k : κ} {m : μ}

/-- A record hidden with some records missing is hidden all the same, and the other way round. -/
theorem PrunedTo.hidden_union (h : PrunedTo P A B) (hPQ : ∀ m, P m → Q m) (C : Records κ μ ν) :
    Hidden Q (union A C) k m ↔ Hidden Q (union B C) k m := by
  constructor
  · rintro ⟨m', d', hmem, hlt, hQ⟩
    exact ⟨m', d', hmem.imp_left h.sub, hlt, hQ⟩
  · rintro ⟨m', d', hmem | hmem, hlt, hQ⟩
    · rcases h.kept hmem with hmem | ⟨m'', d'', hmem, hlt', hP⟩
      · exact ⟨m', d', Or.inl hmem, hlt, hQ⟩
      · exact ⟨m'', d'', Or.inl hmem, lt_trans hlt hlt', hPQ m'' hP⟩
    · exact ⟨m', d', Or.inr hmem, hlt, hQ⟩

/-- **Missing records are not missed when pruning.** -/
theorem PrunedTo.prune_union (h : PrunedTo P A B) (hPQ : ∀ m, P m → Q m) (C : Records κ μ ν) :
    prune Q (union A C) = prune Q (union B C) := by
  funext k m d
  rw [prune, prune, h.hidden_union hPQ]
  refine propext (and_congr_left fun hhid => ⟨fun hmem => hmem.imp_left h.sub, ?_⟩)
  rintro (hmem | hmem)
  · rcases h.kept hmem with hmem | ⟨m', d', hmem, hlt, hP⟩
    · exact Or.inl hmem
    · exact absurd ⟨m', d', Or.inl (h.sub hmem), hlt, hPQ m' hP⟩ hhid
  · exact Or.inr hmem

end Versions

namespace MapApi

namespace Table

variable {K V : Type} [LinearOrder K]

/-! ### Compacting twins -/

/-- Twins collide with a third table at hidden places only alike. -/
theorem Twin.collisionsHidden_iff {ws : List U64} {t u other : Table K V} (h : Twin ws t u)
    {m : U64} (hm : ∀ w ∈ ws, w ≤ m) :
    CollisionsHidden t other m ↔ CollisionsHidden u other m := by
  have hadm : ∀ n, UptoAny ws n → Upto m n := by
    rintro n ⟨w, hw, hle⟩
    exact le_trans hle (hm w hw)
  have hhidden : ∀ k n, Versions.Hidden (Upto m) (Either t other) k n ↔
      Versions.Hidden (Upto m) (Either u other) k n :=
    fun k n => h.pruned.hidden_union hadm other.Holds
  constructor
  · rintro hc k n ⟨⟨d, hd⟩, hother⟩
    rcases h.pruned.kept hd with hd | ⟨n', d', hd', hlt, hn'⟩
    · exact (hhidden k n).1 (hc k n ⟨⟨d, hd⟩, hother⟩)
    · -- the twin's record is missing from the table, so it is hidden there
      exact (hhidden k n).1 ⟨n', d', Or.inl hd', hlt, hadm n' hn'⟩
  · rintro hc k n ⟨⟨d, hd⟩, hother⟩
    exact (hhidden k n).2 (hc k n ⟨⟨d, h.pruned.sub hd⟩, hother⟩)

/-- **A compaction takes a table and its twin to one table**, or refuses both. -/
theorem Twin.compact_eq {ws : List U64} {t u : Table K V} (h : Twin ws t u)
    (P P' : KMerge.Picker Fault (Ent K V)) (other : Table K V) {m : U64}
    (hm : ∀ w ∈ ws, w ≤ m) : t.compact P other m = u.compact P' other m := by
  by_cases hc : CollisionsHidden t other m
  · obtain ⟨t', ht', hlast, hholds⟩ := compact_spec P hc
    obtain ⟨u', hu', hlast', hholds'⟩ := compact_spec P' ((h.collisionsHidden_iff hm).1 hc)
    rw [ht', hu']
    refine congrArg Except.ok (ext_holds ?_ ?_)
    · rw [hlast, hlast', h.lastSeq]
    · have hprune := h.pruned.prune_union (Q := Upto m) (fun n ⟨w, hw, hle⟩ =>
        le_trans hle (hm w hw)) other.Holds
      funext k n d
      refine propext ((hholds k n d).trans (Iff.trans ?_ (hholds' k n d).symm))
      exact iff_of_eq (congrFun (congrFun (congrFun hprune k) n) d)
  · rw [compact_error P hc, compact_error P' (mt (h.collisionsHidden_iff hm).2 hc)]

/-! ### Schedules -/

/-- **Steps of the same write**: another table is applied in one and compacted in the other, or is
compacted at different watermarks. -/
inductive SameWrite : Step K V → Step K V → Prop
  | refl (s : Step K V) : SameWrite s s
  | apply_compact (other : Table K V) (m : U64) : SameWrite (.apply other) (.compact other m)
  | compact_apply (other : Table K V) (m : U64) : SameWrite (.compact other m) (.apply other)
  | compact (other : Table K V) (m m' : U64) : SameWrite (.compact other m) (.compact other m')

/-- **Schedules of the same writes**: step by step, with compactions by itself put in anywhere. -/
inductive SameWrites : List (Step K V) → List (Step K V) → Prop
  | nil : SameWrites [] []
  | cons {s s' : Step K V} {l l' : List (Step K V)} (hs : SameWrite s s') (h : SameWrites l l') :
      SameWrites (s :: l) (s' :: l')
  | collect_left (m : U64) {l l' : List (Step K V)} (h : SameWrites l l') :
      SameWrites (.compact new m :: l) l'
  | collect_right (m : U64) {l l' : List (Step K V)} (h : SameWrites l l') :
      SameWrites l (.compact new m :: l')

/-- An application that succeeds extends the table as a compaction extends the twin. -/
theorem eq_of_apply_eq_ok {u v other : Table K V} (h : u.apply other = .ok v) :
    v = ⟨u.inner.extend other.inner.entries, max u.lastSeq other.lastSeq⟩ := by
  obtain ⟨hle, rfl⟩ := apply_eq_ok.1 h
  rw [max_eq_right hle]

/-- The same write leaves the twin alike. -/
theorem SameWrite.execTwin_eq {s s' : Step K V} (h : SameWrite s s') {u v v' : Table K V}
    (hv : s.execTwin u = .ok v) (hv' : s'.execTwin u = .ok v') : v = v' := by
  cases h with
  | refl => exact Except.ok.inj (hv.symm.trans hv')
  | apply_compact other m =>
      cases hv'
      exact eq_of_apply_eq_ok hv
  | compact_apply other m =>
      cases hv
      exact (eq_of_apply_eq_ok hv').symm
  | compact other m m' =>
      cases hv
      cases hv'
      rfl

/-- A compaction by itself leaves the twin as it is. -/
theorem execTwin_collect (u : Table K V) (m : U64) :
    Step.execTwin u (.compact new m) = .ok u := by
  have hlast : max u.lastSeq (new : Table K V).lastSeq = u.lastSeq :=
    max_eq_left (Marker.zero_le _)
  rw [Step.execTwin, hlast]
  rfl

/-- **Schedules of the same writes have one twin**, by induction on them. -/
theorem SameWrites.twin_eq {steps steps' : List (Step K V)} (h : SameWrites steps steps') :
    ∀ {u v v' : Table K V}, steps.foldlM Step.execTwin u = .ok v →
      steps'.foldlM Step.execTwin u = .ok v' → v = v' := by
  induction h with
  | nil =>
      intro u v v' hv hv'
      cases hv
      cases hv'
      rfl
  | cons hs _ ih =>
      intro u v v' hv hv'
      rw [List.foldlM_cons] at hv hv'
      obtain ⟨u₁, hstep, hv⟩ := bind_eq_ok.1 hv
      obtain ⟨u₁', hstep', hv'⟩ := bind_eq_ok.1 hv'
      obtain rfl := hs.execTwin_eq hstep hstep'
      exact ih hv hv'
  | collect_left m _ ih =>
      intro u v v' hv hv'
      rw [List.foldlM_cons, execTwin_collect, ok_bind] at hv
      exact ih hv hv'
  | collect_right m _ ih =>
      intro u v v' hv hv'
      rw [List.foldlM_cons, execTwin_collect, ok_bind] at hv'
      exact ih hv hv'

/-- **Two schedules of the same writes end in one table.**  Both succeed from one table.  Readers at
or above all watermarks used read the same from the tables they leave, and a compaction at or above
those watermarks, with whatever table, leaves one table or refuses both. -/
theorem schedules_converge {P P' : KMerge.Picker Fault (Ent K V)} {steps steps' : List (Step K V)}
    (h : SameWrites steps steps') {t₀ t t' : Table K V}
    (hrun : steps.foldlM (Step.exec P) t₀ = .ok t)
    (hrun' : steps'.foldlM (Step.exec P') t₀ = .ok t') {m : U64}
    (hm : ∀ w ∈ watermarks steps ++ watermarks steps', w ≤ m) :
    ((∀ k, t.get k m = t'.get k m) ∧ ∀ r, t.range r m = t'.range r m) ∧
      ∀ other, t.compact P other m = t'.compact P' other m := by
  obtain ⟨u, hu, htwin⟩ := Twin.run steps (Twin.refl [] t₀) hrun
  obtain ⟨u', hu', htwin'⟩ := Twin.run steps' (Twin.refl [] t₀) hrun'
  obtain rfl := h.twin_eq hu hu'
  rw [List.nil_append] at htwin htwin'
  have hws : ∀ w ∈ watermarks steps, w ≤ m := fun w hw => hm w (List.mem_append_left _ hw)
  have hws' : ∀ w ∈ watermarks steps', w ≤ m := fun w hw => hm w (List.mem_append_right _ hw)
  obtain ⟨hget, hrange⟩ := htwin.reads hws
  obtain ⟨hget', hrange'⟩ := htwin'.reads hws'
  refine ⟨⟨fun k => (hget k).trans (hget' k).symm, fun r => (hrange r).trans (hrange' r).symm⟩,
    fun other => ?_⟩
  exact (htwin.compact_eq P P other hws).trans (htwin'.compact_eq P' P other hws').symm

/-- The same writes, applied in one schedule, and compacted at once and by itself in the other. -/
theorem schedules_converge_sample :
    let other : Table ℕ ℕ := ((new.insert 1 2 11).2.insert 2 3 20).2
    let steps : List (Step ℕ ℕ) := [.insert 1 1 10, .apply other, .insertTombstone 2 4]
    let steps' : List (Step ℕ ℕ) :=
      [.insert 1 1 10, .compact other 2, .insertTombstone 2 4, .compact new 3]
    ∃ t t', steps.foldlM (Step.exec .leftmost) new = .ok t ∧
      steps'.foldlM (Step.exec .leftmost) new = .ok t' ∧ t ≠ t' ∧
      t.compact .leftmost new 4 = t'.compact .leftmost new 4 := by
  intro other steps steps'
  have hsame : SameWrites steps steps' := .cons (.refl _) (.cons (.apply_compact other 2)
    (.cons (.refl _) (.collect_right 3 .nil)))
  obtain ⟨t, hrun⟩ : ∃ t, steps.foldlM (Step.exec .leftmost) new = .ok t := ⟨_, rfl⟩
  have hrun' : steps'.foldlM (Step.exec .leftmost) new =
      .ok ⟨.fromIter [(⟨1, .newNormal 2 ()⟩, some 11), (⟨2, .newTombstone 4⟩, none),
        (⟨2, .newNormal 3 ()⟩, some 20)], .newTombstone 4⟩ := by
    decide
  have hws : ∀ w ∈ watermarks steps ++ watermarks steps', w ≤ 4 := by
    intro w hw
    have hmem : w ∈ [2, 3] := hw
    rcases List.mem_pair.1 hmem with rfl | rfl <;> decide
  refine ⟨t, _, hrun, hrun', ?_, (schedules_converge hsame hrun hrun' hws).2 new⟩
  cases hrun
  decide

end Table

end MapApi
