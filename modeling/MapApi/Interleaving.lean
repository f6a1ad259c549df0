/-
**Merging and folding streams that are not sorted.**

On sorted streams a merge sorts, and a fold leaves one item of each key.  Where the streams are not
sorted less remains, but something does: the merge is an interleaving, so that no item is lost,
made up, or moved before one that its stream has earlier, however the heads are arranged; and a fold
that only ever combines items into one of them leaves the other items alone.

Everything is over an arbitrary type of items and an arbitrary type of failures.

Main definitions:

* `KMerge.Picker.Chooses` — a picker that chooses a head whenever the comparator answers;
* `KMerge.Interleaves` — a list that interleaves some streams;
* `Adjacent.Covers` — a fold that combines items into one of them.

Main results:

* `KMerge.interleaves_merge` — **what a merge yields interleaves its streams**;
* `KMerge.merge_ok` — a merge does not fail where the comparator answers across streams;
* `Adjacent.coalesce_covers` — **a fold leaves a sublist that covers the stream**.
-/

import MapApi.Adjacent
import MapApi.KMerge

set_option relaxedAutoImplicit false
set_option autoImplicit false

namespace KMerge

variable {ε α : Type}

/-! ### Pickers -/

/-- The comparator answers on two items, both ways round. -/
def Answered (cmp : α → α → Except ε Bool) (a b : α) : Prop :=
  (∃ r, cmp a b = .ok r) ∧ ∃ r, cmp b a = .ok r

/-- **A picker that chooses** one of the heads, whatever came before, and fails only if the
comparator does. -/
structure Picker.Chooses (P : Picker ε α) : Prop where
  head : ∀ cmp past streams i, heads streams ≠ [] → P.pick cmp past streams = .ok i →
    ∃ a t, streams[i]? = some (a :: t)
  ok : ∀ cmp past streams, (heads streams).Pairwise (Answered cmp) →
    ∃ i, P.pick cmp past streams = .ok i

theorem scanLeast_mem {cmp : α → α → Except ε Bool} (xs : List (α × ℕ)) :
    ∀ {best : α × ℕ} {i : ℕ}, scanLeast cmp best xs = .ok i → ∃ a, (a, i) ∈ best :: xs := by
  induction xs with
  | nil =>
      intro best i h
      cases h
      exact ⟨best.1, List.mem_cons_self⟩
  | cons x xs ih =>
      intro best i h
      cases hcmp : cmp best.1 x.1 with
      | error e => simp only [scanLeast, hcmp] at h; cases h
      | ok r =>
          cases r with
          | true =>
              simp only [scanLeast, hcmp] at h
              obtain ⟨a, ha⟩ := ih h
              rcases List.mem_cons.1 ha with rfl | ha
              · exact ⟨a, List.mem_cons_self⟩
              · exact ⟨a, List.mem_cons_of_mem _ (List.mem_cons_of_mem _ ha)⟩
          | false =>
              simp only [scanLeast, hcmp] at h
              obtain ⟨a, ha⟩ := ih h
              exact ⟨a, List.mem_cons_of_mem _ ha⟩

theorem scanLeast_ok {cmp : α → α → Except ε Bool} (xs : List (α × ℕ)) :
    ∀ {best : α × ℕ}, ((best :: xs).map Prod.fst).Pairwise (Answered cmp) →
      ∃ i, scanLeast cmp best xs = .ok i := by
  induction xs with
  | nil =>
      intro best _
      exact ⟨best.2, rfl⟩
  | cons x xs ih =>
      intro best h
      obtain ⟨hbest, hxs⟩ := List.pairwise_cons.1 h
      obtain ⟨⟨r, hr⟩, -⟩ := hbest x.1 List.mem_cons_self
      cases r with
      | true =>
          have hrest : ((best :: xs).map Prod.fst).Pairwise (Answered cmp) :=
            List.pairwise_cons.2 ⟨fun y hy => hbest y (List.mem_cons_of_mem _ hy),
              (List.pairwise_cons.1 hxs).2⟩
          obtain ⟨i, hi⟩ := ih hrest
          exact ⟨i, by simp only [scanLeast, hr, hi]⟩
      | false =>
          obtain ⟨i, hi⟩ := ih hxs
          exact ⟨i, by simp only [scanLeast, hr, hi]⟩

/-- The picker that scans the heads from the left chooses. -/
theorem chooses_leftmost : (Picker.leftmost : Picker ε α).Chooses := by
  constructor
  · intro cmp past streams i hne h
    rw [← map_fst_places, Ne, List.map_eq_nil_iff] at hne
    obtain ⟨x, xs, hplaces⟩ := List.exists_cons_of_ne_nil hne
    simp only [Picker.leftmost, hplaces] at h
    obtain ⟨a, ha⟩ := scanLeast_mem xs h
    exact ⟨a, mem_places.1 (hplaces ▸ ha)⟩
  · intro cmp past streams h
    rw [← map_fst_places] at h
    simp only [Picker.leftmost]
    cases hplaces : places streams with
    | nil => exact ⟨0, rfl⟩
    | cons x xs => exact scanLeast_ok xs (hplaces ▸ h)

/-! ### Interleavings -/

/-- **A list that interleaves some streams**: it has their items, those of each in its order. -/
structure Interleaves (streams : List (List α)) (out : List α) : Prop where
  perm : out.Perm streams.flatten
  sublist : ∀ s ∈ streams, s.Sublist out

/-- Streams without items are interleaved by the empty list. -/
theorem interleaves_nil {streams : List (List α)} (h : streams.flatten = []) :
    Interleaves streams [] := by
  refine ⟨by rw [h], fun s hs => ?_⟩
  rw [List.flatten_eq_nil_iff.1 h s hs]

/-- A head put before an interleaving of what is left. -/
theorem Interleaves.cons {streams : List (List α)} {i : ℕ} {a : α} {t out : List α}
    (hi : streams[i]? = some (a :: t)) (h : Interleaves (streams.set i t) out) :
    Interleaves streams (a :: out) := by
  refine ⟨(h.perm.cons a).trans (flatten_set_perm hi).symm, fun s hs => ?_⟩
  obtain ⟨j, hj⟩ := List.getElem?_of_mem hs
  by_cases hij : i = j
  · subst hij
    obtain rfl : a :: t = s := Option.some_inj.1 (hi.symm.trans hj)
    exact (h.sublist t (List.mem_of_getElem? (List.getElem?_set_self
      (List.getElem?_eq_some_iff.1 hi).1))).cons_cons a
  · have hset : (streams.set i t)[j]? = some s := by rw [List.getElem?_set_ne hij, hj]
    exact (h.sublist s (List.mem_of_getElem? hset)).cons a

/-- **One step of the merge**: the choice fails, or a head is emitted. -/
theorem mergeF_succ {P : Picker ε α} (hP : P.Chooses) (cmp : α → α → Except ε Bool) (fuel : ℕ)
    (past : List (List (List α))) {streams : List (List α)} (hne : heads streams ≠ []) :
    (∃ e, P.pick cmp past streams = .error e ∧
      mergeF P cmp (fuel + 1) past streams = .error e) ∨
    ∃ i a t, streams[i]? = some (a :: t) ∧ mergeF P cmp (fuel + 1) past streams =
      (mergeF P cmp fuel (streams :: past) (streams.set i t)).map (a :: ·) := by
  have hempty : (heads streams).isEmpty = false := by simpa using hne
  cases hpick : P.pick cmp past streams with
  | error e =>
      refine Or.inl ⟨e, rfl, ?_⟩
      simp [mergeF, hempty, hpick, bind, Except.bind]
  | ok i =>
      obtain ⟨a, t, hi⟩ := hP.head cmp past streams i hne hpick
      refine Or.inr ⟨i, a, t, hi, ?_⟩
      simp only [mergeF, hempty, hpick, hi, bind, Except.bind]
      cases mergeF P cmp fuel (streams :: past) (streams.set i t) <;> rfl

theorem interleaves_mergeF {P : Picker ε α} (hP : P.Chooses) {cmp : α → α → Except ε Bool} :
    ∀ (fuel : ℕ) {past : List (List (List α))} {streams : List (List α)} {out : List α},
      streams.flatten.length ≤ fuel → mergeF P cmp fuel past streams = .ok out →
      Interleaves streams out := by
  intro fuel
  induction fuel with
  | zero =>
      intro past streams out hlen h
      cases h
      exact interleaves_nil (List.length_eq_zero_iff.1 (by omega))
  | succ fuel ih =>
      intro past streams out hlen h
      by_cases hne : heads streams = []
      · have hout : (.ok [] : Except ε (List α)) = .ok out := by simpa [mergeF, hne] using h
        cases hout
        exact interleaves_nil (heads_eq_nil.1 hne)
      · rcases mergeF_succ hP cmp fuel past hne with ⟨e, -, herr⟩ | ⟨i, a, t, hi, hstep⟩
        · cases herr.symm.trans h
        · rw [hstep] at h
          have hlen' : (streams.set i t).flatten.length ≤ fuel := by
            have := (flatten_set_perm hi).length_eq
            rw [List.length_cons] at this
            omega
          cases hrest : mergeF P cmp fuel (streams :: past) (streams.set i t) with
          | error e => rw [hrest] at h; cases h
          | ok rest =>
              rw [hrest] at h
              cases h
              exact (ih hlen' hrest).cons hi

/-- **What a merge yields interleaves its streams**, sorted or not. -/
theorem interleaves_merge {P : Picker ε α} (hP : P.Chooses) {cmp : α → α → Except ε Bool}
    {streams : List (List α)} {out : List α} (h : merge P cmp streams = .ok out) :
    Interleaves streams out :=
  interleaves_mergeF hP _ le_rfl h

theorem mergeF_ok {P : Picker ε α} (hP : P.Chooses) {cmp : α → α → Except ε Bool} :
    ∀ (fuel : ℕ) {past : List (List (List α))} {streams : List (List α)},
      streams.Pairwise (fun s s' => ∀ a ∈ s, ∀ b ∈ s', Answered cmp a b) →
      ∃ out, mergeF P cmp fuel past streams = .ok out := by
  intro fuel
  induction fuel with
  | zero =>
      intro past streams _
      exact ⟨[], rfl⟩
  | succ fuel ih =>
      intro past streams h
      by_cases hne : heads streams = []
      · exact ⟨[], by simp [mergeF, hne]⟩
      · rcases mergeF_succ hP cmp fuel past hne with ⟨e, hpick, -⟩ | ⟨i, a, t, hi, hstep⟩
        · -- the heads are answered, so one of them is chosen
          have hheads : (heads streams).Pairwise (Answered cmp) :=
            List.pairwise_filterMap.2 (h.imp fun hss a ha b hb =>
              hss a (List.mem_of_mem_head? ha) b (List.mem_of_mem_head? hb))
          obtain ⟨i, hi⟩ := hP.ok cmp past streams hheads
          cases hi.symm.trans hpick
        · obtain ⟨out, hout⟩ := @ih (streams :: past) _ (pairwise_set hi
            (fun s hst a ha => hst a (List.mem_cons_of_mem _ ha))
            (fun s hst a ha b hb => hst a ha b (List.mem_cons_of_mem _ hb)) h)
          exact ⟨a :: out, by rw [hstep, hout]; rfl⟩

/-- **A merge does not fail** where the comparator answers on items of different streams. -/
theorem merge_ok {P : Picker ε α} (hP : P.Chooses) {cmp : α → α → Except ε Bool}
    {streams : List (List α)}
    (h : streams.Pairwise fun s s' => ∀ a ∈ s, ∀ b ∈ s', Answered cmp a b) :
    ∃ out, merge P cmp streams = .ok out :=
  mergeF_ok hP _ h

end KMerge

namespace Adjacent

variable {ε α : Type}

/-! ### Folds -/

/-- **A fold that combines items of `Q` into one of them**, which is above both. -/
def Covers (Q : α → Prop) (R : α → α → Prop) (f : α → α → Except ε (Except (α × α) α)) : Prop :=
  ∀ a b, f a b = .ok (.error (a, b)) ∨
    ∃ c, f a b = .ok (.ok c) ∧ (c = a ∨ c = b) ∧ Q a ∧ Q b ∧ R a c ∧ R b c

/-- What such a fold leaves of a stream: a part of it, with all items outside `Q`, that covers the
rest. -/
structure Covered (Q : α → Prop) [DecidablePred Q] (R : α → α → Prop) (l out : List α) : Prop where
  sublist : out.Sublist l
  others : (out.filter fun x => ¬Q x) = l.filter fun x => ¬Q x
  covered : ∀ x ∈ l, ∃ y ∈ out, R x y

section Covers

variable {Q : α → Prop} [DecidablePred Q] {R : α → α → Prop}
  {f : α → α → Except ε (Except (α × α) α)}

theorem Covered.cons {l out : List α} (h : Covered Q R l out) (hR : ∀ a, R a a) (a : α) :
    Covered Q R (a :: l) (a :: out) := by
  refine ⟨h.sublist.cons_cons a, ?_, fun x hx => ?_⟩
  · rw [List.filter_cons, List.filter_cons, h.others]
  · rcases List.mem_cons.1 hx with rfl | hx
    · exact ⟨x, List.mem_cons_self, hR x⟩
    · obtain ⟨y, hy, hxy⟩ := h.covered x hx
      exact ⟨y, List.mem_cons_of_mem _ hy, hxy⟩

/-- Two items combined into one of them. -/
theorem Covered.of_combined {a b c : α} {l out : List α} (h : Covered Q R (c :: l) out)
    (htrans : ∀ a b c, R a b → R b c → R a c) (hc : c = a ∨ c = b) (ha : Q a) (hb : Q b)
    (hac : R a c) (hbc : R b c) : Covered Q R (a :: b :: l) out := by
  have hqc : Q c := by rcases hc with rfl | rfl <;> assumption
  refine ⟨h.sublist.trans ?_, ?_, fun x hx => ?_⟩
  · rcases hc with rfl | rfl
    · exact (List.sublist_cons_self b l).cons_cons _
    · exact List.sublist_cons_self a _
  · rw [h.others]
    simp [ha, hb, hqc]
  · obtain ⟨z, hz, hcz⟩ := h.covered c List.mem_cons_self
    rcases List.mem_cons.1 hx with rfl | hx
    · exact ⟨z, hz, htrans _ _ _ hac hcz⟩
    · rcases List.mem_cons.1 hx with rfl | hx
      · exact ⟨z, hz, htrans _ _ _ hbc hcz⟩
      · exact h.covered x (List.mem_cons_of_mem _ hx)

theorem coalesceFrom_covers (hf : Covers Q R f) (hR : ∀ a, R a a)
    (htrans : ∀ a b c, R a b → R b c → R a c) (xs : List α) :
    ∀ held, ∃ out, coalesceFrom f held xs = .ok out ∧ Covered Q R (held :: xs) out := by
  induction xs with
  | nil =>
      intro held
      exact ⟨[held], rfl, List.Sublist.refl _, rfl, fun x hx => ⟨x, hx, hR x⟩⟩
  | cons x xs ih =>
      intro held
      rcases hf held x with hkeep | ⟨c, hcomb, hc, ha, hb, hac, hbc⟩
      · obtain ⟨out, hout, hcov⟩ := ih x
        exact ⟨held :: out, by simp [coalesceFrom, hkeep, hout], hcov.cons hR held⟩
      · obtain ⟨out, hout, hcov⟩ := ih c
        exact ⟨out, by simp [coalesceFrom, hcomb, hout],
          hcov.of_combined htrans hc ha hb hac hbc⟩

/-- **A fold leaves a sublist that covers the stream**, and every item it does not combine. -/
theorem coalesce_covers (hf : Covers Q R f) (hR : ∀ a, R a a)
    (htrans : ∀ a b c, R a b → R b c → R a c) (l : List α) :
    ∃ out, coalesce f l = .ok out ∧ Covered Q R l out := by
  cases l with
  | nil => exact ⟨[], rfl, List.Sublist.refl _, rfl, nofun⟩
  | cons x xs => exact coalesceFrom_covers hf hR htrans xs x

end Covers

end Adjacent
