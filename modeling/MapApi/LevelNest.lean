/-
**Levels read over levels.**

A read over levels takes any readers, so what stands at the bottom may itself be levels that are
read together, and the older of these levels again.  However they are nested, a read answers as one
over all levels side by side: a point read asks them in the same order and stops at the same place,
failures included, and a range read lists the greatest record of each key, once.

Where a reader is expected and there is none, `()` stands in for it, which changes no point read, and
no range read over levels that keep to their contract; a reference and an immutable level hand reads
on.

Main definitions:

* `MapApi.Placeholder`, `MapApi.Ref`, `MapApi.Immutable` — `()`, `&T` and the immutable level;
* `MapApi.SoundAnswers` — levels that keep to their contract at a range read;
* `MapApi.Nest`, `MapApi.Nest.read` — levels over levels, and the reads of them.

Main results:

* `MapApi.compactedRange_silent` — levels that answer nothing change no range read;
* `MapApi.placeholders_unobservable` — **placeholders change no read**;
* `MapApi.Nest.nesting_unobservable` — **nesting changes no read**.
-/

import MapApi.Level
import Mathlib.Data.Set.List

set_option relaxedAutoImplicit false
set_option autoImplicit false

namespace MapApi

/-! ### Readers that stand in for others -/

/-- `()` as a reader of values of type `V`. -/
structure Placeholder (V : Type) where
  deriving DecidableEq, Repr

instance {K V : Type} : MapApiRO (Placeholder V) K V where
  get _ _ := .ok .newNotFound
  range _ _ := .ok []

/-- `&T`: a reference hands reads on. -/
structure Ref (T : Type) where
  referent : T
  deriving DecidableEq, Repr

instance {T K V : Type} [MapApiRO T K V] : MapApiRO (Ref T) K V where
  get l key := MapApiRO.get l.referent key
  range l r := MapApiRO.range l.referent r

/-- `Immutable`: a level that is not written any more. -/
structure Immutable (K V : Type) [LinearOrder K] where
  level : Level K V
  deriving DecidableEq

/-- `Immutable::new_from_level`. -/
def Immutable.newFromLevel {K V : Type} [LinearOrder K] (level : Level K V) : Immutable K V :=
  ⟨level⟩

instance {K V : Type} [LinearOrder K] : MapApiRO (Immutable K V) K V where
  get l key := .ok (l.level.get key)
  range l r := l.level.range r

variable {K V : Type} [LinearOrder K]

/-- A reference shows what its referent shows. -/
theorem Ref.shows {T : Type} [MapApiRO T K V] {l : T} {m : Shown K V} (h : LevelShows l m) :
    LevelShows (⟨l⟩ : Ref T) m := h

/-- An immutable level shows its records. -/
theorem Immutable.shows (l : Level K V) : LevelShows (Immutable.newFromLevel l) l.shown := l.shows

/-! ### Levels that answer nothing -/

/-- An answer to a range read without items. -/
def silent {ε α : Type} : Except ε (List α) → Bool
  | .ok [] => true
  | _ => false

/-- Calls that answer nothing may be left out: the first failure stays, and the other streams. -/
theorem mapM_filter_silent {ε α : Type} (answers : List (Except ε (List α))) :
    (answers.filter fun a => !silent a).mapM id =
      (answers.mapM id).map (List.filter fun s => !s.isEmpty) := by
  induction answers with
  | nil => rfl
  | cons a answers ih =>
      rw [List.mapM_cons]
      match a with
      | .error f => rfl
      | .ok [] =>
          rw [List.filter_cons_of_neg (by simp [silent]), ih]
          cases answers.mapM id <;> rfl
      | .ok (x :: xs) =>
          rw [List.filter_cons_of_pos (by simp [silent]), List.mapM_cons, ih]
          cases answers.mapM id <;> rfl

/-- **Levels that keep to their contract** at a range read: the call of one fails, or all answer
with ascending streams of records, and two of them hold one key and marker only as a tombstone. -/
def SoundAnswers (answers : List (Except Fault (List (KVResult K V)))) : Prop :=
  (∃ f, .error f ∈ answers) ∨ ∃ streams : List (List (K × SeqMarked V)),
    answers = (streams.map fun s => .ok (items s)) ∧ (∀ s ∈ streams, KeyAscending s) ∧
      streams.Pairwise Compatible

omit [LinearOrder K] in
/-- Streams that differ by empty ones from streams of records are streams of records. -/
theorem exists_items_of_live {streams : List (List (K × SeqMarked V))}
    {others : List (List (KVResult K V))}
    (h : (others.filter fun s => !s.isEmpty) = (streams.map items).filter fun s => !s.isEmpty) :
    ∃ streams' : List (List (K × SeqMarked V)), streams'.map items = others ∧
      (streams'.filter fun s => !s.isEmpty) = streams.filter fun s => !s.isEmpty := by
  have hlive : ∀ s : List (K × SeqMarked V), (items s).isEmpty = s.isEmpty := fun s => by
    cases s <;> rfl
  have hrecords : ∀ l ∈ others, ∃ s, items s = l := by
    intro l hl
    cases l with
    | nil => exact ⟨[], rfl⟩
    | cons a rest =>
        have hmem : a :: rest ∈ (streams.map items).filter fun s => !s.isEmpty :=
          h ▸ List.mem_filter.2 ⟨hl, rfl⟩
        obtain ⟨s, -, hs⟩ := List.mem_map.1 (List.mem_filter.1 hmem).1
        exact ⟨s, hs⟩
  have hrange : others ∈ Set.range (List.map (items (K := K) (V := V))) := by
    rw [Set.range_list_map]
    exact hrecords
  obtain ⟨streams', rfl⟩ := hrange
  refine ⟨streams', rfl, ?_⟩
  rw [List.filter_map, List.filter_map] at h
  have hinj := (List.map_injective_iff.2 items_injective) h
  simpa [Function.comp_def, hlive] using hinj

/-- Streams that differ by empty ones merge the same. -/
theorem mergeStreams_silent {streams : List (List (K × SeqMarked V))}
    {others : List (List (KVResult K V))} (hasc : ∀ s ∈ streams, KeyAscending s)
    (hcomp : streams.Pairwise Compatible)
    (h : (others.filter fun s => !s.isEmpty) = (streams.map items).filter fun s => !s.isEmpty)
    (P P' : KMerge.Picker Fault (KVResult K V)) :
    mergeStreams P' others = mergeStreams P (streams.map items) := by
  obtain ⟨streams', rfl, hsame⟩ := exists_items_of_live h
  have hmem : ∀ s ∈ streams', ∀ e ∈ s, s ∈ streams := by
    intro s hs e he
    have hlive : s ∈ streams.filter fun s => !s.isEmpty :=
      hsame ▸ List.mem_filter.2 ⟨hs, by cases s with | nil => cases he | cons _ _ => rfl⟩
    exact (List.mem_filter.1 hlive).1
  refine mergeStreams_congr (fun e => ?_) hasc hcomp (fun s hs => ?_) ?_ P P'
  · rw [← List.flatten_filter_not_isEmpty (L := streams'), hsame, List.flatten_filter_not_isEmpty]
  · cases s with
    | nil => exact List.Pairwise.nil
    | cons e s => exact hasc _ (hmem _ hs e List.mem_cons_self)
  · have hpw : (streams'.filter fun s => !s.isEmpty).Pairwise Compatible := by
      rw [hsame]
      exact hcomp.filter _
    refine (List.pairwise_filter.1 hpw).imp fun {s s'} hss e he e' he' => ?_
    refine hss ?_ ?_ e he e' he'
    · cases s with
      | nil => cases he
      | cons _ _ => rfl
    · cases s' with
      | nil => cases he'
      | cons _ _ => rfl

/-- **Levels that answer nothing change no range read**, wherever they stand. -/
theorem compactedRange_silent {TOP L PL TOP' L' PL' : Type} [MapApiRO TOP K V] [MapApiRO L K V]
    [MapApiRO PL K V] [MapApiRO TOP' K V] [MapApiRO L' K V] [MapApiRO PL' K V] {r : RangeBounds K}
    {top : Option TOP} {levels : List L} {persisted : List PL} {top' : Option TOP'}
    {levels' : List L'} {persisted' : List PL'}
    (hsound : SoundAnswers (rangesOf r top levels persisted))
    (h : ((rangesOf r top' levels' persisted').filter fun a => !silent a) =
      (rangesOf r top levels persisted).filter fun a => !silent a)
    (P P' : KMerge.Picker Fault (KVResult K V)) :
    compactedRange P' r top' levels' persisted' = compactedRange P r top levels persisted := by
  rw [compactedRange_eq, compactedRange_eq]
  generalize rangesOf r top' levels' persisted' = answers' at h
  generalize rangesOf r top levels persisted = answers at h hsound
  have hcalls := mapM_filter_silent answers'
  rw [h, mapM_filter_silent answers] at hcalls
  cases hanswers : answers.mapM id with
  | error f =>
      rw [hanswers] at hcalls
      cases hanswers' : answers'.mapM id with
      | error f' =>
          rw [hanswers'] at hcalls
          cases hcalls
          rfl
      | ok others => rw [hanswers'] at hcalls; cases hcalls
  | ok ss =>
      rw [hanswers] at hcalls
      cases hanswers' : answers'.mapM id with
      | error f' => rw [hanswers'] at hcalls; cases hcalls
      | ok others =>
          rw [hanswers'] at hcalls
          rcases hsound with ⟨f, hf⟩ | ⟨streams, rfl, hasc, hcomp⟩
          · obtain ⟨s, hs⟩ := exists_ok_of_mapM_ok hanswers _ hf
            cases hs
          · have hok : (streams.map fun s => (.ok (items s) : Except Fault _)).mapM id =
                .ok (streams.map items) := mapM_of_map_eq_ok (by simp)
            cases hok.symm.trans hanswers
            exact mergeStreams_silent hasc hcomp (Except.ok.inj hcalls).symm P P'

omit [LinearOrder K] in
/-- Placeholders answer no point read. -/
theorem firstFound_placeholders (key : K) (n : ℕ) :
    firstFound key (List.replicate n (⟨⟩ : Placeholder V)) = .ok none := by
  induction n with
  | zero => rfl
  | succ n ih => exact ih

/-- **Placeholders change no read**: as the top level, as the levels or as the persisted ones, any
number of them reads as none.  For a point read the other levels are any; for a range read the call
of one of them fails, or they answer with ascending streams of records, two of which hold one key
and marker only as a tombstone. -/
theorem placeholders_unobservable {TOP L PL : Type} [MapApiRO TOP K V] [MapApiRO L K V]
    [MapApiRO PL K V] (P P' : KMerge.Picker Fault (KVResult K V)) (top : Option TOP)
    (levels : List L) (persisted : List PL) (n : ℕ) :
    let unit : Placeholder V := ⟨⟩
    (∀ k : K, compactedGet k (List.replicate n unit) persisted =
        compactedGet k ([] : List L) persisted ∧
      compactedGet k levels (List.replicate n unit) = compactedGet k levels ([] : List PL)) ∧
    ∀ r : RangeBounds K,
      (SoundAnswers (rangesOf r (none : Option TOP) levels persisted) →
        compactedRange P' r (some unit) levels persisted =
          compactedRange P r (none : Option TOP) levels persisted) ∧
      (SoundAnswers (rangesOf r top ([] : List L) persisted) →
        compactedRange P' r top (List.replicate n unit) persisted =
          compactedRange P r top ([] : List L) persisted) ∧
      (SoundAnswers (rangesOf r top levels ([] : List PL)) →
        compactedRange P' r top levels (List.replicate n unit) =
          compactedRange P r top levels ([] : List PL)) := by
  intro unit
  have hranges : ∀ r : RangeBounds K, ((List.replicate n unit).map fun l => MapApiRO.range l r) =
      List.replicate n (.ok [] : Except Fault (List (KVResult K V))) := fun r => by
    rw [List.map_replicate]
    rfl
  have hsilent : ((List.replicate n (.ok [] : Except Fault (List (KVResult K V)))).filter fun a =>
      !silent a) = [] := by
    simp [silent]
  refine ⟨fun k => ⟨?_, ?_⟩, fun r => ⟨fun h => ?_, fun h => ?_, fun h => ?_⟩⟩
  · rw [compactedGet, firstFound_placeholders]
    rfl
  · rw [compactedGet, compactedGet, firstFound_placeholders]
    rfl
  · refine compactedRange_silent h ?_ P P'
    rfl
  · refine compactedRange_silent h ?_ P P'
    simp only [rangesOf, hranges, List.filter_append, hsilent, List.map_nil, List.filter_nil]
  · refine compactedRange_silent h ?_ P P'
    simp only [rangesOf, hranges, List.filter_append, hsilent, List.map_nil, List.filter_nil]

/-- Two levels under a placeholder. -/
theorem placeholders_unobservable_sample :
    let l₀ : Level ℕ ℕ := (Level.default.store 1 (.newNormal 1 10)).store 2 (.newTombstone 2)
    let l₁ : Level ℕ ℕ := l₀.newLevel.store 1 (.newTombstone 2)
    let unit : Placeholder ℕ := ⟨⟩
    let all : RangeBounds ℕ := .full
    compactedRange .leftmost all (some unit) [l₁, l₀] ([] : List (Level ℕ ℕ)) =
      .ok (items [(1, .newTombstone 2), (2, .newTombstone 2)]) := by
  intro l₀ l₁ unit all
  have hsound : SoundAnswers (rangesOf all (none : Option (Level ℕ ℕ)) [l₁, l₀]
      ([] : List (Level ℕ ℕ))) := by
    refine Or.inr ⟨[l₁.map.entries, l₀.map.entries], by decide, ?_, ?_⟩
    · unfold KeyAscending
      decide
    · unfold Compatible
      decide
  have hsame := ((placeholders_unobservable .leftmost .leftmost (none : Option (Level ℕ ℕ))
    [l₁, l₀] ([] : List (Level ℕ ℕ)) 0).2 all).1 hsound
  exact hsame.trans (by decide)

/-! ### Nests of levels -/

/-- The greatest records, of some streams and of the greatest records of the others, are the
greatest of all. -/
theorem isGreatest_append_greatest {front rest : List (List (K × SeqMarked V))}
    {low : List (K × SeqMarked V)} (hlow : ∀ k x, (k, x) ∈ low ↔ IsGreatest rest k x) {k : K}
    {x : SeqMarked V} :
    IsGreatest (front ++ [low]) k x ↔ IsGreatest (front ++ rest) k x := by
  have hmem : ∀ y, (k, y) ∈ (front ++ [low]).flatten ↔
      (k, y) ∈ front.flatten ∨ (k, y) ∈ low := by
    intro y
    simp
  have hmem' : ∀ y, (k, y) ∈ (front ++ rest).flatten ↔
      (k, y) ∈ front.flatten ∨ (k, y) ∈ rest.flatten := by
    intro y
    rw [List.flatten_append, List.mem_append]
  constructor
  · rintro ⟨hx, hmax⟩
    refine ⟨(hmem' x).2 (((hmem x).1 hx).imp_right fun h => ((hlow k x).1 h).1), fun y hy => ?_⟩
    rcases (hmem' y).1 hy with hy | hy
    · exact hmax y ((hmem y).2 (Or.inl hy))
    · -- below the greatest record of the others
      obtain ⟨z, hz⟩ := exists_isGreatest hy
      exact le_trans (hz.2 y hy) (hmax z ((hmem z).2 (Or.inr ((hlow k z).2 hz))))
  · rintro ⟨hx, hmax⟩
    have hrest : ∀ y, (k, y) ∈ rest.flatten → y.orderKey ≤ x.orderKey :=
      fun y hy => hmax y ((hmem' y).2 (Or.inr hy))
    refine ⟨(hmem x).2 (((hmem' x).1 hx).imp_right fun h => (hlow k x).2 ⟨h, hrest⟩),
      fun y hy => ?_⟩
    rcases (hmem y).1 hy with hy | hy
    · exact hmax y ((hmem' y).2 (Or.inl hy))
    · exact hrest y ((hlow k y).1 hy).1

/-- A reader given by its two reads. -/
structure DynReader (K V : Type) where
  get : K → Except Fault (SeqMarked V)
  range : RangeBounds K → Except Fault (List (KVResult K V))

instance : MapApiRO (DynReader K V) K V where
  get l key := l.get key
  range l r := l.range r

/-- **Levels over levels**: the older ones may be read together, as one reader. -/
inductive Nest (L : Type) where
  | bottom (levels : List L)
  | above (levels : List L) (below : Nest L)
  deriving Repr

namespace Nest

variable {L : Type}

/-- All levels of a nest, from the newest on. -/
def levels : Nest L → List L
  | bottom ls => ls
  | above ls below => ls ++ below.levels

variable [MapApiRO L K V]

/-- The reads of a nest: `compacted_get` and `compacted_range`, over the reads of what is below. -/
def read (P : KMerge.Picker Fault (KVResult K V)) : Nest L → DynReader K V
  | bottom ls =>
      ⟨fun k => compactedGet k ls ([] : List L),
        fun r => compactedRange P r (none : Option L) ls ([] : List L)⟩
  | above ls below =>
      ⟨fun k => compactedGet k ls [below.read P],
        fun r => compactedRange P r (none : Option L) ls [below.read P]⟩

end Nest

section

variable {L PL : Type} [MapApiRO L K V] [MapApiRO PL K V]

omit [LinearOrder K] in
/-- A point read asks two lists of levels one after the other. -/
theorem firstFound_append (k : K) (ls ls' : List L) :
    firstFound k (ls ++ ls') = (do
      match ← firstFound k ls with
      | some got => return some got
      | none => firstFound k ls') := by
  induction ls with
  | nil => rfl
  | cons l ls ih =>
      rw [List.cons_append, firstFound, firstFound]
      cases MapApiRO.get l k with
      | error f => rfl
      | ok got =>
          simp only [ok_bind]
          split_ifs
          · exact ih
          · rfl

omit [LinearOrder K] in
/-- A point read stops at an answer that is not *not found*. -/
theorem isNotFound_of_firstFound {k : K} {ls : List L} {got : SeqMarked V}
    (h : firstFound k ls = .ok (some got)) : got.isNotFound = false := by
  induction ls with
  | nil => cases h
  | cons l ls ih =>
      rw [firstFound] at h
      obtain ⟨x, -, h⟩ := bind_eq_ok.1 h
      split_ifs at h with hx
      · exact ih h
      · cases h
        simpa using hx

omit [LinearOrder K] in
/-- A point read over a reader that answers as levels do goes on into these levels. -/
theorem compactedGet_above {k : K} {ls ls' : List L} {b : PL}
    (hb : MapApiRO.get b k = compactedGet k ls' ([] : List L)) :
    compactedGet k ls [b] = compactedGet k (ls ++ ls') ([] : List L) := by
  simp only [compactedGet, firstFound_append, firstFound, hb]
  cases firstFound k ls with
  | error f => rfl
  | ok o =>
      cases o with
      | some got => rfl
      | none =>
          simp only [ok_bind]
          cases hrest : firstFound k ls' with
          | error f => rfl
          | ok o' =>
              cases o' with
              | none => rfl
              | some got =>
                  have hgot := isNotFound_of_firstFound hrest
                  simp [hgot, pure, Except.pure]

/-- A range read fails with the first level that does. -/
theorem compactedRange_error (P : KMerge.Picker Fault (KVResult K V)) {r : RangeBounds K}
    {ls : List L} {f : Fault} (h : (ls.mapM fun l => MapApiRO.range l r) = .error f)
    (ps : List PL) : compactedRange P r (none : Option L) ls ps = .error f := by
  rw [compactedRange, h]
  rfl

end

namespace Nest

variable {L : Type} [MapApiRO L K V]

/-- **A point read of a nest is one of all its levels.** -/
theorem get_read (P : KMerge.Picker Fault (KVResult K V)) (k : K) (nest : Nest L) :
    (nest.read P).get k = compactedGet k nest.levels ([] : List L) := by
  induction nest with
  | bottom ls => rfl
  | above ls below ih =>
      have hb : MapApiRO.get (below.read P) k = compactedGet k below.levels ([] : List L) := ih
      exact compactedGet_above hb

/-- A range read of a nest fails with the first of its levels that does. -/
theorem range_read_error (P : KMerge.Picker Fault (KVResult K V)) {r : RangeBounds K} {f : Fault}
    (nest : Nest L) (h : (nest.levels.mapM fun l => MapApiRO.range l r) = .error f) :
    (nest.read P).range r = .error f := by
  induction nest with
  | bottom ls => exact compactedRange_error P h []
  | above ls below ih =>
      rw [levels, List.mapM_append] at h
      change compactedRange P r (none : Option L) ls [below.read P] = .error f
      cases hls : ls.mapM fun l => MapApiRO.range l r with
      | error e =>
          rw [hls] at h
          cases h
          exact compactedRange_error P hls _
      | ok streams =>
          rw [hls, ok_bind] at h
          have hbelow : (below.levels.mapM fun l => MapApiRO.range l r) = .error f := by
            cases hb : below.levels.mapM fun l => MapApiRO.range l r with
            | error e => rw [hb] at h; cases h; rfl
            | ok ss => rw [hb] at h; cases h
          have hread : MapApiRO.range (below.read P) r = .error f := ih hbelow
          rw [compactedRange, hls, List.mapM_cons, hread]
          rfl

/-- **A range read of a nest lists the greatest records of all its levels**, by induction on the
nest: the greatest records of a stream of greatest records are the greatest of all. -/
theorem range_read (P : KMerge.Picker Fault (KVResult K V)) {r : RangeBounds K} (nest : Nest L) :
    ∀ {streams : List (List (K × SeqMarked V))},
      (nest.levels.map fun l => MapApiRO.range l r) = (streams.map fun s => .ok (items s)) →
      (∀ s ∈ streams, KeyAscending s) → streams.Pairwise Compatible →
      ∃ out, (nest.read P).range r = .ok (items out) ∧ KeyAscending out ∧
        ∀ k x, (k, x) ∈ out ↔ IsGreatest streams k x := by
  induction nest with
  | bottom ls =>
      intro streams hls hasc hcomp
      obtain ⟨out, hout, hoasc, hmem⟩ := mergeStreams_spec P hasc hcomp
      refine ⟨out, ?_, hoasc, hmem⟩
      have hranges : rangesOf r (none : Option L) ls ([] : List L) =
          streams.map fun s => .ok (items s) := by
        rw [rangesOf, ← hls]
        simp [levels]
      exact (compactedRange_of_streams P hranges).trans hout
  | above ls below ih =>
      intro streams hls hasc hcomp
      rw [levels, List.map_append] at hls
      obtain ⟨front, rest, rfl, hfront, hrest⟩ := List.map_eq_append_iff.1 hls.symm
      obtain ⟨hcfront, hcrest, hcross⟩ := List.pairwise_append.1 hcomp
      obtain ⟨low, hlow, hlasc, hlmem⟩ := ih hrest.symm
        (fun s hs => hasc s (List.mem_append_right _ hs)) hcrest
      -- what is below is a stream of records of the rest
      have hsub : ∀ e ∈ low, ∃ s ∈ rest, e ∈ s := fun e he =>
        List.mem_flatten.1 ((hlmem e.1 e.2).1 he).1
      have hasc' : ∀ s ∈ front ++ [low], KeyAscending s := by
        intro s hs
        rcases List.mem_append.1 hs with hs | hs
        · exact hasc s (List.mem_append_left _ hs)
        · rw [List.mem_singleton.1 hs]
          exact hlasc
      have hcomp' : (front ++ [low]).Pairwise Compatible := by
        refine List.pairwise_append.2 ⟨hcfront, List.pairwise_singleton _ _, fun s hs s' hs' => ?_⟩
        rw [List.mem_singleton.1 hs']
        intro e he e' he' hkey hord
        obtain ⟨s'', hs'', he''⟩ := hsub e' he'
        exact hcross s hs s'' hs'' e he e' he'' hkey hord
      obtain ⟨out, hout, hoasc, hmem⟩ := mergeStreams_spec P hasc' hcomp'
      refine ⟨out, ?_, hoasc, fun k x => (hmem k x).trans ?_⟩
      · have hranges : rangesOf r (none : Option L) ls [below.read P] =
            (front ++ [low]).map fun s => .ok (items s) := by
          have hb : MapApiRO.range (below.read P) r = .ok (items low) := hlow
          rw [rangesOf, List.map_append, hfront, List.map_singleton, List.map_singleton, hb]
          rfl
        exact (compactedRange_of_streams P hranges).trans hout
      · exact isGreatest_append_greatest hlmem

/-- **Nesting changes no read.**  Point reads of a nest answer, or fail, as a point read of all its
levels does.  A range read fails with the first level that does; where all levels answer with
ascending streams of records, and two of them hold one key and marker only as a tombstone, it
answers as a range read of all of them. -/
theorem nesting_unobservable (P : KMerge.Picker Fault (KVResult K V)) (nest : Nest L) :
    (∀ k : K, (nest.read P).get k = compactedGet k nest.levels ([] : List L)) ∧
    ∀ r : RangeBounds K,
      (∀ f, (nest.levels.mapM fun l => MapApiRO.range l r) = .error f →
        (nest.read P).range r = .error f) ∧
      ∀ streams : List (List (K × SeqMarked V)),
        (nest.levels.map fun l => MapApiRO.range l r) = (streams.map fun s => .ok (items s)) →
        (∀ s ∈ streams, KeyAscending s) → streams.Pairwise Compatible →
        (nest.read P).range r =
          compactedRange P r (none : Option L) nest.levels ([] : List L) := by
  refine ⟨fun k => get_read P k nest, fun r => ⟨fun f hf => range_read_error P nest hf,
    fun streams hstreams hasc hcomp => ?_⟩⟩
  obtain ⟨out, hout, hoasc, hmem⟩ := range_read P nest hstreams hasc hcomp
  obtain ⟨out', hout', hoasc', hmem'⟩ := range_read P (.bottom nest.levels) hstreams hasc hcomp
  have heq : out = out' := by
    refine hoasc.ext_mem hoasc' ?_
    rintro ⟨k, x⟩
    rw [hmem, hmem']
  rw [hout, heq]
  exact hout'.symm

/-- **A nest of levels is a reader like its levels**: where these answer as maps, each newer than
those behind it, the point reads and the range reads of the nest answer the first records. -/
theorem nest_readsAs (P : KMerge.Picker Fault (KVResult K V)) {nest : Nest L}
    {ms : List (Shown K V)} (h : LevelsShow nest.levels ms) (hnew : ms.Pairwise Shown.Newer)
    (hpos : ∀ m ∈ ms, m.Positive) :
    ReadsAs (nest.read P).get (nest.read P).range (Shown.first ms) := by
  have hnil : LevelsShow ([] : List L) ([] : List (Shown K V)) := .nil
  have htop : LevelsShow ((none : Option L).toList ++ nest.levels) ms := h
  have hflat := readsAs_levels P htop hnil (by rwa [List.append_nil]) (by rwa [List.append_nil])
  rw [List.append_nil] at hflat
  refine ⟨fun k => ?_, fun r hr => ?_⟩
  · rw [get_read]
    exact hflat.get_eq k
  · obtain ⟨ls, hls, hlists⟩ := h.exists_lists hr
    obtain ⟨out, hout, hasc, hmem⟩ :=
      range_read P nest hls hlists.ascending (hlists.compatible hnew)
    exact ⟨out, hout, hasc, fun k x => (hmem k x).trans (hlists.isGreatest_iff hnew)⟩

/-- Three levels, the lower two of them read together. -/
theorem nesting_unobservable_sample :
    let l₀ : Level ℕ ℕ := (Level.default.store 1 (.newNormal 1 10)).store 2 (.newTombstone 2)
    let l₁ : Level ℕ ℕ := l₀.newLevel.store 1 (.newTombstone 2)
    let l₂ : Level ℕ ℕ := l₁.newLevel.store 3 (.newNormal 3 30)
    let nest : Nest (Level ℕ ℕ) := .above [l₂] (.bottom [l₁, l₀])
    let all : RangeBounds ℕ := .full
    (nest.read .leftmost : DynReader ℕ ℕ).range all =
      compactedRange .leftmost all (none : Option (Level ℕ ℕ)) [l₂, l₁, l₀]
        ([] : List (Level ℕ ℕ)) := by
  intro l₀ l₁ l₂ nest all
  refine ((nesting_unobservable .leftmost nest).2 all).2
    [l₂.map.entries, l₁.map.entries, l₀.map.entries] (by decide) ?_ ?_
  · unfold KeyAscending
    decide
  · unfold Compatible
    decide

/-- References to immutable levels, under one to an empty level. -/
theorem nest_readsAs_sample :
    let l₀ : Level ℕ ℕ := (Level.default.store 1 (.newNormal 1 10)).store 2 (.newNormal 2 20)
    let l₁ : Level ℕ ℕ := l₀.newLevel.store 1 (.newTombstone 2)
    let nest : Nest (Ref (Immutable ℕ ℕ)) :=
      .above [⟨.newFromLevel l₁.newLevel⟩] (.bottom [⟨.newFromLevel l₁⟩, ⟨.newFromLevel l₀⟩])
    let reader : DynReader ℕ ℕ := nest.read .leftmost
    reader.get 1 = .ok (.newTombstone 2) ∧
      ∃ out, reader.range .full = .ok (items out) ∧ (2, .newNormal 2 20) ∈ out := by
  intro l₀ l₁ nest reader
  let ms : List (Shown ℕ ℕ) :=
    [fun k => l₁.newLevel.map.get? k, fun k => l₁.map.get? k, fun k => l₀.map.get? k]
  have hshow : LevelsShow nest.levels ms :=
    .cons (Ref.shows (Immutable.shows _))
      (.cons (Ref.shows (Immutable.shows _)) (.cons (Ref.shows (Immutable.shows _)) .nil))
  have hentries : ∀ {l : Level ℕ ℕ} {k : ℕ} {x : SeqMarked ℕ}, l.map.get? k = some x →
      (k, x) ∈ l.map.entries := fun h => BTreeMap.get?_eq_some.1 h
  have hnewer : ∀ {a b : Level ℕ ℕ}, (∀ e ∈ a.map.entries, ∀ e' ∈ b.map.entries, e.1 = e'.1 →
      e'.2.orderKey < e.2.orderKey) → Shown.Newer (fun k => a.map.get? k) fun k => b.map.get? k :=
    fun h k x y hx hy => Or.inl (h _ (hentries hx) _ (hentries hy) rfl)
  have hnew : ms.Pairwise Shown.Newer :=
    .cons (by simpa [ms] using ⟨hnewer (by decide), hnewer (by decide)⟩)
      (.cons (by simpa [ms] using hnewer (by decide)) (List.pairwise_singleton _ _))
  have hpositive : ∀ {a : Level ℕ ℕ}, (∀ e ∈ a.map.entries, e.2.seq ≠ 0) →
      Shown.Positive fun k => a.map.get? k := fun h k x hx _ => h _ (hentries hx)
  have hpos : ∀ m ∈ ms, m.Positive := by
    simp only [ms, List.forall_mem_cons]
    exact ⟨hpositive (by decide), hpositive (by decide), hpositive (by decide), nofun⟩
  have hreads := nest_readsAs .leftmost hshow hnew hpos
  obtain ⟨out, hout, hlist⟩ := hreads.range_eq .full RangeBounds.not_inverted_full
  exact ⟨hreads.get_eq 1, out, hout, (hlist.mem_iff 2 _).2 ⟨RangeBounds.contains_full 2, rfl⟩⟩

end Nest

end MapApi
