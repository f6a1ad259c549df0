/-
**Merging sorted streams by a comparator that may fail.**

A `k`-way merge holds the head of every stream that is not exhausted, compares heads with a
caller's comparator, emits one of them and moves on in its stream.  Which pairs are compared and
how ties are broken is the business of the implementation, so it is a parameter here: a
`KMerge.Picker` chooses the stream whose head is emitted.  An implementation that keeps its heads in
a heap compares only some of them at a time, and what it has arranged before stays; so the choice
may depend on the whole run, the exhausted streams included.  It is only asked for a least head when
the comparator has answered by a total preorder all along, and to fail when the only two heads
cannot be compared.

Everything is over an arbitrary type of items and an arbitrary type of failures.

Main definitions:

* `KMerge.Answers` — the comparator's answer on a pair agrees with a preorder;
* `KMerge.Picker` — how a merge chooses among its streams, and `KMerge.Picker.leftmost`, the one
  that scans the heads from the left;
* `KMerge.merge` — the merge.

Main results:

* `KMerge.merge_sorted` — **sorted streams merge into a sorted stream** of the same items;
* `KMerge.merge_pair_error` — two streams that hold a pair the comparator fails on make the merge
  fail, wherever in the streams the pair is.
-/

import Mathlib.Data.List.Sort
import Mathlib.Tactic.Common

set_option relaxedAutoImplicit false
set_option autoImplicit false

namespace KMerge

variable {ε α : Type}

/-! ### Heads -/

/-- The heads of the streams that are not exhausted. -/
def heads (streams : List (List α)) : List α := streams.filterMap List.head?

/-- The heads, each with the position of its stream. -/
def places (streams : List (List α)) : List (α × ℕ) :=
  streams.zipIdx.filterMap fun p => p.1.head?.map fun a => (a, p.2)

theorem mem_heads {streams : List (List α)} {a : α} :
    a ∈ heads streams ↔ ∃ t, a :: t ∈ streams := by
  simp [heads, List.mem_filterMap, List.head?_eq_some_iff, and_comm]

theorem map_fst_places (streams : List (List α)) :
    (places streams).map Prod.fst = heads streams := by
  have hstreams : (streams.zipIdx.map Prod.fst) = streams := List.zipIdx_map_fst 0 streams
  rw [heads, ← hstreams, List.filterMap_map, places, List.map_filterMap, hstreams]
  refine List.filterMap_congr fun p _ => ?_
  rw [Option.map_map]
  exact Option.map_id' ..

theorem mem_places {streams : List (List α)} {a : α} {i : ℕ} :
    (a, i) ∈ places streams ↔ ∃ t, streams[i]? = some (a :: t) := by
  rw [places, List.mem_filterMap]
  constructor
  · rintro ⟨⟨s, j⟩, hmem, hs⟩
    obtain ⟨b, hb, heq⟩ := Option.map_eq_some_iff.1 hs
    cases heq
    obtain ⟨t, rfl⟩ := List.head?_eq_some_iff.1 hb
    exact ⟨t, List.mem_zipIdx_iff_getElem?.1 hmem⟩
  · rintro ⟨t, ht⟩
    exact ⟨(a :: t, i), List.mem_zipIdx_iff_getElem?.2 ht, rfl⟩

/-- Without heads there are no items. -/
theorem heads_eq_nil {streams : List (List α)} : heads streams = [] ↔ streams.flatten = [] := by
  rw [heads, List.filterMap_eq_nil_iff, List.flatten_eq_nil_iff]
  exact forall₂_congr fun s _ => List.head?_eq_none_iff

/-! ### Choosing among the streams -/

/-- The comparator answers on `a` and `b`, and its answer agrees with `le`. -/
def Answers (cmp : α → α → Except ε Bool) (le : α → α → Prop) (a b : α) : Prop :=
  (cmp a b = .ok true ∧ le a b) ∨ (cmp a b = .ok false ∧ le b a)

/-- Every two heads are answered, both ways round. -/
def HeadsAnswer (cmp : α → α → Except ε Bool) (le : α → α → Prop) (streams : List (List α)) :
    Prop :=
  (heads streams).Pairwise fun a b => Answers cmp le a b ∧ Answers cmp le b a

/-- **How a merge chooses the stream whose head it emits**: by position, or by failing.  The choice
may depend on the streams as they are, and on what they were before each item emitted so far, the
latest first. -/
structure Picker (ε α : Type) where
  pick : (α → α → Except ε Bool) → List (List (List α)) → List (List α) → Except ε ℕ
  /-- When the comparator has answered by a total preorder all along, a least head is chosen. -/
  pick_least : ∀ (cmp : α → α → Except ε Bool) (le : α → α → Prop) (past : List (List (List α)))
    (streams : List (List α)),
    (∀ a b, le a b ∨ le b a) → (∀ a b c, le a b → le b c → le a c) →
    (∀ earlier ∈ past, HeadsAnswer cmp le earlier) → HeadsAnswer cmp le streams →
    heads streams ≠ [] →
    ∃ i h t, pick cmp past streams = .ok i ∧ streams[i]? = some (h :: t) ∧
      ∀ a ∈ heads streams, le h a
  /-- Two heads that cannot be compared make the choice fail. -/
  pick_error : ∀ (cmp : α → α → Except ε Bool) (past : List (List (List α))) (a b : α)
    (s t : List α) (e : ε),
    cmp a b = .error e → cmp b a = .error e → pick cmp past [a :: s, b :: t] = .error e

/-- Scan the heads from the left, holding the best one so far, each with its position. -/
def scanLeast (cmp : α → α → Except ε Bool) : α × ℕ → List (α × ℕ) → Except ε ℕ
  | best, [] => .ok best.2
  | best, x :: xs =>
      match cmp best.1 x.1 with
      | .error e => .error e
      | .ok true => scanLeast cmp best xs
      | .ok false => scanLeast cmp x xs

theorem scanLeast_spec {cmp : α → α → Except ε Bool} {le : α → α → Prop}
    (htotal : ∀ a b, le a b ∨ le b a) (htrans : ∀ a b c, le a b → le b c → le a c)
    (xs : List (α × ℕ)) :
    ∀ best : α × ℕ, (∀ x ∈ xs, Answers cmp le best.1 x.1) →
      (xs.map Prod.fst).Pairwise (fun a b => Answers cmp le a b ∧ Answers cmp le b a) →
      ∃ p ∈ best :: xs, scanLeast cmp best xs = .ok p.2 ∧ le p.1 best.1 ∧
        ∀ x ∈ xs, le p.1 x.1 := by
  induction xs with
  | nil =>
      intro best _ _
      exact ⟨best, List.mem_cons_self, rfl, or_self_iff.1 (htotal best.1 best.1), nofun⟩
  | cons x xs ih =>
      intro best hbest hpw
      obtain ⟨hx, hxs⟩ := List.pairwise_cons.1 hpw
      rcases hbest x List.mem_cons_self with ⟨hcmp, hle⟩ | ⟨hcmp, hle⟩
      · -- the best head stays
        obtain ⟨p, hp, hscan, hpb, hall⟩ :=
          ih best (fun y hy => hbest y (List.mem_cons_of_mem _ hy)) hxs
        refine ⟨p, ?_, by simp only [scanLeast, hcmp, hscan], hpb, fun y hy => ?_⟩
        · rcases List.mem_cons.1 hp with rfl | hp
          · exact List.mem_cons_self
          · exact List.mem_cons_of_mem _ (List.mem_cons_of_mem _ hp)
        · rcases List.mem_cons.1 hy with rfl | hy
          · exact htrans _ _ _ hpb hle
          · exact hall y hy
      · -- the new head is better
        obtain ⟨p, hp, hscan, hpx, hall⟩ :=
          ih x (fun y hy => (hx y.1 (List.mem_map_of_mem hy)).1) hxs
        refine ⟨p, List.mem_cons_of_mem _ hp, by simp only [scanLeast, hcmp, hscan],
          htrans _ _ _ hpx hle, fun y hy => ?_⟩
        rcases List.mem_cons.1 hy with rfl | hy
        · exact hpx
        · exact hall y hy

/-- The picker that scans the heads from the left and keeps the earlier one on a tie. -/
def Picker.leftmost : Picker ε α where
  pick cmp _ streams :=
    match places streams with
    | [] => .ok 0
    | x :: xs => scanLeast cmp x xs
  pick_least := by
    intro cmp le _ streams htotal htrans _ hpw hne
    rw [HeadsAnswer, ← map_fst_places] at hpw
    rw [← map_fst_places, Ne, List.map_eq_nil_iff] at hne
    obtain ⟨x, xs, hplaces⟩ := List.exists_cons_of_ne_nil hne
    rw [hplaces, List.map_cons] at hpw
    obtain ⟨hx, hxs⟩ := List.pairwise_cons.1 hpw
    obtain ⟨p, hp, hscan, hpx, hall⟩ := scanLeast_spec htotal htrans xs x
      (fun y hy => (hx y.1 (List.mem_map_of_mem hy)).1) hxs
    obtain ⟨t, ht⟩ := mem_places.1 (hplaces ▸ hp : (p.1, p.2) ∈ places streams)
    refine ⟨p.2, p.1, t, by rw [hplaces]; exact hscan, ht, fun a ha => ?_⟩
    rw [← map_fst_places, hplaces, List.map_cons] at ha
    rcases List.mem_cons.1 ha with rfl | ha
    · exact hpx
    · obtain ⟨y, hy, rfl⟩ := List.mem_map.1 ha
      exact hall y hy
  pick_error := by
    intro cmp _ a b s t e hab _
    simp [places, scanLeast, hab]

/-! ### The merge -/

/-- The merge, with `fuel` bounding the number of items emitted. -/
def mergeF (P : Picker ε α) (cmp : α → α → Except ε Bool) :
    ℕ → List (List (List α)) → List (List α) → Except ε (List α)
  | 0, _, _ => .ok []
  | fuel + 1, past, streams =>
      if (heads streams).isEmpty then .ok []
      else do
        let i ← P.pick cmp past streams
        match streams[i]? with
        | some (h :: rest) => do
            let out ← mergeF P cmp fuel (streams :: past) (streams.set i rest)
            return h :: out
        | _ => .ok []

/-- **The `k`-way merge of a list of streams.** -/
def merge (P : Picker ε α) (cmp : α → α → Except ε Bool) (streams : List (List α)) :
    Except ε (List α) :=
  mergeF P cmp streams.flatten.length [] streams

/-! ### The streams left after a head is emitted -/

/-- Taking the head of a stream takes one item away. -/
theorem flatten_set_perm {streams : List (List α)} {i : ℕ} {a : α} {t : List α}
    (h : streams[i]? = some (a :: t)) : streams.flatten.Perm (a :: (streams.set i t).flatten) := by
  induction streams generalizing i with
  | nil => simp at h
  | cons s streams ih =>
      cases i with
      | zero =>
          obtain rfl : s = a :: t := by simpa using h
          simp
      | succ i =>
          have hi := ih (i := i) (by simpa using h)
          simp only [List.set_cons_succ, List.flatten_cons]
          exact (hi.append_left s).trans List.perm_middle

/-- A relation between streams that passes to tails survives the emission of a head. -/
theorem pairwise_set {R : List α → List α → Prop} {streams : List (List α)} {i : ℕ} {a : α}
    {t : List α} (hi : streams[i]? = some (a :: t)) (hl : ∀ s, R (a :: t) s → R t s)
    (hr : ∀ s, R s (a :: t) → R s t) (h : streams.Pairwise R) : (streams.set i t).Pairwise R := by
  induction streams generalizing i with
  | nil => simp
  | cons s streams ih =>
      obtain ⟨hs, hrest⟩ := List.pairwise_cons.1 h
      cases i with
      | zero =>
          obtain rfl : s = a :: t := by simpa using hi
          exact List.pairwise_cons.2 ⟨fun s' hs' => hl s' (hs s' hs'), hrest⟩
      | succ i =>
          have hi' : streams[i]? = some (a :: t) := by simpa using hi
          refine List.pairwise_cons.2 ⟨fun s' hs' => ?_, ih hi' hrest⟩
          rcases List.mem_or_eq_of_mem_set hs' with hs' | rfl
          · exact hs s' hs'
          · exact hr s (hs _ (List.mem_of_getElem? hi'))

/-! ### Sorted streams -/

/-- Every two items of different streams are answered, both ways round. -/
def Comparable (cmp : α → α → Except ε Bool) (le : α → α → Prop) (s s' : List α) : Prop :=
  ∀ a ∈ s, ∀ b ∈ s', Answers cmp le a b ∧ Answers cmp le b a

section Sorted

variable {cmp : α → α → Except ε Bool} {le : α → α → Prop}

theorem headsAnswer_of_comparable {streams : List (List α)}
    (h : streams.Pairwise (Comparable cmp le)) : HeadsAnswer cmp le streams := by
  refine List.pairwise_filterMap.2 (h.imp ?_)
  intro s s' hss a ha b hb
  exact hss a (List.mem_of_mem_head? ha) b (List.mem_of_mem_head? hb)

/-- Streams stay comparable when a head is emitted. -/
theorem comparable_set {streams : List (List α)} {i : ℕ} {a : α} {t : List α}
    (hi : streams[i]? = some (a :: t)) (h : streams.Pairwise (Comparable cmp le)) :
    (streams.set i t).Pairwise (Comparable cmp le) :=
  pairwise_set hi (fun _ hst x hx => hst x (List.mem_cons_of_mem _ hx))
    (fun _ hst x hx y hy => hst x hx y (List.mem_cons_of_mem _ hy)) h

/-- A least head of sorted streams is least among all their items. -/
theorem le_of_least_head {streams : List (List α)} (htrans : ∀ a b c, le a b → le b c → le a c)
    (hsorted : ∀ s ∈ streams, s.Pairwise le) {h : α} (hleast : ∀ a ∈ heads streams, le h a) :
    ∀ x ∈ streams.flatten, le h x := by
  intro x hx
  obtain ⟨s, hs, hxs⟩ := List.mem_flatten.1 hx
  cases s with
  | nil => simp at hxs
  | cons a t =>
      have ha : le h a := hleast a (mem_heads.2 ⟨t, hs⟩)
      rcases List.mem_cons.1 hxs with rfl | hxt
      · exact ha
      · exact htrans _ _ _ ha ((List.pairwise_cons.1 (hsorted _ hs)).1 x hxt)

/-- **One step of the merge** emits a least head, and goes on with its stream shortened. -/
theorem mergeF_step (P : Picker ε α) (htotal : ∀ a b, le a b ∨ le b a)
    (htrans : ∀ a b c, le a b → le b c → le a c) (fuel : ℕ) {past : List (List (List α))}
    {streams : List (List α)} (hpast : ∀ earlier ∈ past, HeadsAnswer cmp le earlier)
    (hheads : HeadsAnswer cmp le streams) (hne : heads streams ≠ []) :
    ∃ i h t, streams[i]? = some (h :: t) ∧ (∀ a ∈ heads streams, le h a) ∧
      mergeF P cmp (fuel + 1) past streams =
        (mergeF P cmp fuel (streams :: past) (streams.set i t) >>= fun out => .ok (h :: out)) := by
  obtain ⟨i, h, t, hpick, hi, hleast⟩ :=
    P.pick_least cmp le past streams htotal htrans hpast hheads hne
  have hempty : (heads streams).isEmpty = false := by simpa using hne
  refine ⟨i, h, t, hi, hleast, ?_⟩
  simp only [mergeF, hempty, hpick, hi, bind, Except.bind, pure, Except.pure]
  rfl

theorem mergeF_sorted (P : Picker ε α) (htotal : ∀ a b, le a b ∨ le b a)
    (htrans : ∀ a b c, le a b → le b c → le a c) :
    ∀ (fuel : ℕ) (past : List (List (List α))) (streams : List (List α)),
      streams.flatten.length ≤ fuel → (∀ earlier ∈ past, HeadsAnswer cmp le earlier) →
      (∀ s ∈ streams, s.Pairwise le) → streams.Pairwise (Comparable cmp le) →
      ∃ out, mergeF P cmp fuel past streams = .ok out ∧ out.Perm streams.flatten ∧
        out.Pairwise le := by
  intro fuel
  induction fuel with
  | zero =>
      intro past streams hlen _ _ _
      have hnil : streams.flatten = [] := List.length_eq_zero_iff.1 (by omega)
      exact ⟨[], rfl, by rw [hnil], List.Pairwise.nil⟩
  | succ fuel ih =>
      intro past streams hlen hpast hsorted hcmp
      by_cases hne : heads streams = []
      · exact ⟨[], by simp [mergeF, hne], by rw [heads_eq_nil.1 hne], List.Pairwise.nil⟩
      · have hheads := headsAnswer_of_comparable hcmp
        obtain ⟨i, h, t, hi, hleast, hstep⟩ := mergeF_step P htotal htrans fuel hpast hheads hne
        have hperm := flatten_set_perm hi
        have hlen' : (streams.set i t).flatten.length ≤ fuel := by
          have := hperm.length_eq
          rw [List.length_cons] at this
          omega
        have hset : ∀ s ∈ streams.set i t, s.Pairwise le := by
          intro s' hs'
          rcases List.mem_or_eq_of_mem_set hs' with hs' | rfl
          · exact hsorted s' hs'
          · exact (List.pairwise_cons.1 (hsorted _ (List.mem_of_getElem? hi))).2
        obtain ⟨out, hout, houtp, houts⟩ := ih (streams :: past) _ hlen'
          (List.forall_mem_cons.2 ⟨hheads, hpast⟩) hset (comparable_set hi hcmp)
        have hall := le_of_least_head htrans hsorted hleast
        refine ⟨h :: out, ?_, (houtp.cons h).trans hperm.symm,
          List.pairwise_cons.2 ⟨fun x hx => ?_, houts⟩⟩
        · rw [hstep, hout]
          rfl
        · exact hall x (hperm.mem_iff.2 (List.mem_cons_of_mem _ (houtp.mem_iff.1 hx)))

/-- **Sorted streams merge into a sorted stream of the same items**, whatever the picker. -/
theorem merge_sorted (P : Picker ε α) (htotal : ∀ a b, le a b ∨ le b a)
    (htrans : ∀ a b c, le a b → le b c → le a c) {streams : List (List α)}
    (hsorted : ∀ s ∈ streams, s.Pairwise le) (hcmp : streams.Pairwise (Comparable cmp le)) :
    ∃ out, merge P cmp streams = .ok out ∧ out.Perm streams.flatten ∧ out.Pairwise le :=
  mergeF_sorted P htotal htrans _ [] streams le_rfl nofun hsorted hcmp

end Sorted

/-! ### Two streams that conflict -/

section Conflict

variable {cmp : α → α → Except ε Bool} {le : α → α → Prop} {e : ε}

/-- The comparator fails on `a` and `b`, both ways round. -/
def Conflicts (cmp : α → α → Except ε Bool) (e : ε) (a b : α) : Prop :=
  cmp a b = .error e ∧ cmp b a = .error e

theorem Conflicts.symm {a b : α} (h : Conflicts cmp e a b) : Conflicts cmp e b a := ⟨h.2, h.1⟩

theorem Answers.not_conflicts {a b : α} (h : Answers cmp le a b) : ¬Conflicts cmp e a b := by
  rintro ⟨hab, -⟩
  rcases h with ⟨h, -⟩ | ⟨h, -⟩
  · cases h.symm.trans hab
  · cases h.symm.trans hab

/-- A conflicting item of the stream whose head is emitted is behind that head. -/
theorem mem_tail_of_conflicts (htrans : ∀ a b c, le a b → le b c → le a c) {a b x y : α}
    {s t : List α} (hab : ¬Conflicts cmp e a b) (hle : le a b)
    (hys : (b :: t).Pairwise fun a b => ¬le b a) (hx : x ∈ a :: s) (hy : y ∈ b :: t)
    (hconf : Conflicts cmp e x y) (hyx : le y x) : x ∈ s := by
  rcases List.mem_cons.1 hx with rfl | hx
  · rcases List.mem_cons.1 hy with rfl | hy
    · exact absurd hconf hab
    · -- `y` is above the head `b`, and `b` is above `x`
      exact absurd (htrans _ _ _ hyx hle) ((List.pairwise_cons.1 hys).1 y hy)
  · exact hx

theorem mergeF_pair_error (P : Picker ε α) (htotal : ∀ a b, le a b ∨ le b a)
    (htrans : ∀ a b c, le a b → le b c → le a c) :
    ∀ (fuel : ℕ) (past : List (List (List α))) (xs ys : List α), xs.length + ys.length ≤ fuel →
      (∀ earlier ∈ past, HeadsAnswer cmp le earlier) →
      xs.Pairwise (fun a b => ¬le b a) → ys.Pairwise (fun a b => ¬le b a) →
      (∀ a ∈ xs, ∀ b ∈ ys, (Answers cmp le a b ∧ Answers cmp le b a) ∨ Conflicts cmp e a b) →
      (∃ x ∈ xs, ∃ y ∈ ys, Conflicts cmp e x y ∧ le x y ∧ le y x) →
      mergeF P cmp fuel past [xs, ys] = .error e := by
  intro fuel
  induction fuel with
  | zero =>
      rintro past xs ys hlen - - - - ⟨x, hx, -⟩
      have := List.length_pos_of_mem hx
      omega
  | succ fuel ih =>
      rintro past xs ys hlen hpast hxs hys hans ⟨x, hx, y, hy, hconf, hxy, hyx⟩
      obtain ⟨a, s, rfl⟩ := List.exists_cons_of_ne_nil (List.ne_nil_of_mem hx)
      obtain ⟨b, t, rfl⟩ := List.exists_cons_of_ne_nil (List.ne_nil_of_mem hy)
      simp only [List.length_cons] at hlen
      have hne : heads [a :: s, b :: t] ≠ [] := by simp [heads]
      rcases hans a List.mem_cons_self b List.mem_cons_self with hab | ⟨hab, hba⟩
      · -- the heads are answered, so the conflicting pair is behind the head that is emitted
        have hheads : HeadsAnswer cmp le [a :: s, b :: t] := by simpa [HeadsAnswer, heads] using hab
        have hpast' := List.forall_mem_cons.2 ⟨hheads, hpast⟩
        obtain ⟨i, h, r, hi, hleast, hstep⟩ := mergeF_step P htotal htrans fuel hpast hheads hne
        rw [hstep]
        match i, hi with
        | 0, hi =>
            obtain ⟨rfl, rfl⟩ : a = h ∧ s = r := by simpa using hi
            have hxs' : x ∈ s := mem_tail_of_conflicts htrans hab.1.not_conflicts
              (hleast b (by simp [heads])) hys hx hy hconf hyx
            have hrest := ih _ s (b :: t) (by simp only [List.length_cons]; omega) hpast'
              (List.pairwise_cons.1 hxs).2 hys
              (fun a' ha' => hans a' (List.mem_cons_of_mem _ ha'))
              ⟨x, hxs', y, hy, hconf, hxy, hyx⟩
            rw [List.set_cons_zero, hrest]
            rfl
        | 1, hi =>
            obtain ⟨rfl, rfl⟩ : b = h ∧ t = r := by simpa using hi
            have hyt' : y ∈ t := mem_tail_of_conflicts htrans hab.2.not_conflicts
              (hleast a (by simp [heads])) hxs hy hx hconf.symm hxy
            have hrest := ih _ (a :: s) t (by simp only [List.length_cons]; omega) hpast'
              hxs (List.pairwise_cons.1 hys).2
              (fun a' ha' b' hb' => hans a' ha' b' (List.mem_cons_of_mem _ hb'))
              ⟨x, hx, y, hyt', hconf, hxy, hyx⟩
            rw [List.set_cons_succ, List.set_cons_zero, hrest]
            rfl
        | i + 2, hi => simp at hi
      · have hpick := P.pick_error cmp past a b s t e hab hba
        have hempty : (heads [a :: s, b :: t]).isEmpty = false := by simp [heads]
        simp [mergeF, hempty, hpick, bind, Except.bind]

/-- **Two strictly sorted streams that hold a conflicting pair do not merge.** -/
theorem merge_pair_error (P : Picker ε α) (htotal : ∀ a b, le a b ∨ le b a)
    (htrans : ∀ a b c, le a b → le b c → le a c) {xs ys : List α}
    (hxs : xs.Pairwise (fun a b => ¬le b a)) (hys : ys.Pairwise (fun a b => ¬le b a))
    (hans : ∀ a ∈ xs, ∀ b ∈ ys,
      (Answers cmp le a b ∧ Answers cmp le b a) ∨ Conflicts cmp e a b)
    (hconf : ∃ x ∈ xs, ∃ y ∈ ys, Conflicts cmp e x y ∧ le x y ∧ le y x) :
    merge P cmp [xs, ys] = .error e :=
  mergeF_pair_error P htotal htrans _ [] xs ys (by simp) nofun hxs hys hans hconf

end Conflict

end KMerge
