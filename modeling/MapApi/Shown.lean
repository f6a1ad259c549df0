/-
**Readers that answer as a map.**

What reads over readers rely on is that the two reads of a reader tell the same story: there is a
map with at most one record of each key, a point read answers the record of the key, and a range
read lists the records of the range in the order of their keys.  Where several readers are read together,
each has to be *newer* than those behind it: where two of them show a record of one key, the newer
one has the greater marker, or both are the same tombstone.  Reading them by their order and reading
them by marker then comes to the same.

Nothing here is about a particular reader.  Paged scans and batched point reads are facts about any
reader that answers as a map.

Main definitions:

* `MapApi.Shown`, `MapApi.Shown.Newer`, `MapApi.Shown.first` — the records a reader shows, the order
  of readers, and the first record among several;
* `MapApi.Lists` — a list of the shown records of a range;
* `MapApi.ReadsAs` — **the two reads of a reader answer as a map**;
* `MapApi.pages` — a range cut into pages.

Main results:

* `MapApi.Shown.findSome?_found_eq` — the first record that is not *not found* is the first record;
* `MapApi.mergeStreams_first` — **the streams of newer readers merge into their first records**;
* `MapApi.ReadsAs.pages_eq` — **a scan in pages is the scan of the whole range**.
-/

import MapApi.Util

set_option relaxedAutoImplicit false
set_option autoImplicit false

namespace MapApi

/-! ### The records a reader shows -/

/-- **What a reader shows**: at most one record of each key. -/
abbrev Shown (K V : Type) : Type := K → Option (SeqMarked V)

namespace Shown

variable {K V : Type}

/-- **`m` is newer than `m'`**: where both show a record of a key, that of `m` has the greater
marker, or both are the same tombstone. -/
def Newer (m m' : Shown K V) : Prop :=
  ∀ k x y, m k = some x → m' k = some y →
    y.orderKey < x.orderKey ∨ (y.orderKey = x.orderKey ∧ x.isTombstone = true)

/-- Values have sequence numbers above `0`. -/
def Positive (m : Shown K V) : Prop :=
  ∀ k x, m k = some x → x.isTombstone = false → x.seq ≠ 0

/-- **The first record of a key**, from the newest map on. -/
def first (ms : List (Shown K V)) : Shown K V := fun k => ms.findSome? fun m => m k

@[simp] theorem first_nil (k : K) : first ([] : List (Shown K V)) k = none := rfl

theorem first_cons (m : Shown K V) (ms : List (Shown K V)) (k : K) :
    first (m :: ms) k = (m k).or (first ms k) := by
  rw [first, List.findSome?_cons]
  cases m k <;> rfl

theorem Newer.le {m m' : Shown K V} (h : Newer m m') {k : K} {x y : SeqMarked V}
    (hx : m k = some x) (hy : m' k = some y) : y.orderKey ≤ x.orderKey := by
  rcases h k x y hx hy with hlt | ⟨heq, -⟩
  · exact hlt.le
  · exact heq.le

/-- Among newer maps, the first record of a key is the greatest. -/
theorem le_first {ms : List (Shown K V)} (h : ms.Pairwise Newer) {k : K} {x : SeqMarked V}
    (hx : first ms k = some x) : ∀ m ∈ ms, ∀ y, m k = some y → y.orderKey ≤ x.orderKey := by
  induction ms with
  | nil => nofun
  | cons m ms ih =>
      obtain ⟨hm, hms⟩ := List.pairwise_cons.1 h
      rw [first_cons] at hx
      intro m' hm' y hy
      cases hmk : m k with
      | none =>
          rw [hmk, Option.none_or] at hx
          rcases List.mem_cons.1 hm' with rfl | hm'
          · cases hmk.symm.trans hy
          · exact ih hms hx m' hm' y hy
      | some z =>
          -- the newest map shows the record
          obtain rfl : z = x := by simpa [hmk] using hx
          rcases List.mem_cons.1 hm' with rfl | hm'
          · obtain rfl : z = y := Option.some_inj.1 (hmk.symm.trans hy)
            exact le_rfl
          · exact (hm m' hm').le hmk hy

/-- The record of a key that a point read stops at. -/
def found (k : K) (m : Shown K V) : Option (SeqMarked V) := (m k).filter fun x => !x.isNotFound

/-- Behind a record that reads as *not found* there is nothing to be found. -/
theorem findSome?_found_of_le {ms : List (Shown K V)} {k : K} (hpos : ∀ m ∈ ms, m.Positive)
    (hle : ∀ m ∈ ms, ∀ y, m k = some y → y.orderKey ≤ .newTombstone 0) :
    ms.findSome? (found k) = none := by
  rw [List.findSome?_eq_none_iff]
  intro m hm
  rw [found, Option.filter_eq_none_iff]
  intro y hy
  have hseq : y.seq = 0 := by
    have h := Marker.le_newTombstone_iff.1 (hle m hm y hy)
    rw [SeqMarked.seq_orderKey] at h
    exact Fin.le_zero_iff.1 h
  have ht : y.isTombstone = true := by
    by_contra ht
    exact hpos m hm k y hy (by simpa using ht) hseq
  simp [SeqMarked.isNotFound, ht, hseq]

/-- The first record that is not *not found* is the first record. -/
theorem findSome?_found_eq {ms : List (Shown K V)} (hnew : ms.Pairwise Newer)
    (hpos : ∀ m ∈ ms, m.Positive) (k : K) :
    (ms.findSome? (found k)).getD .newNotFound = (first ms k).getD .newNotFound := by
  induction ms with
  | nil => rfl
  | cons m ms ih =>
      obtain ⟨hm, hms⟩ := List.pairwise_cons.1 hnew
      have hpos' := fun m' hm' => hpos m' (List.mem_cons_of_mem _ hm')
      rw [first_cons, List.findSome?_cons]
      cases hk : m k with
      | none =>
          rw [found, hk]
          exact ih hms hpos'
      | some x =>
          by_cases hx : x.isNotFound = true
          · -- the read goes on, and finds nothing
            obtain rfl := SeqMarked.isNotFound_iff.1 hx
            have hnone := findSome?_found_of_le hpos' fun m' hm' y hy => (hm m' hm').le hk hy
            rw [found, hk, Option.filter_some, hx, hnone]
            rfl
          · rw [found, hk, Option.filter_some]
            simp [hx]

end Shown

/-! ### Lists of shown records -/

section

variable {K V : Type} [LinearOrder K]

/-- **The list holds the shown records of a range**, in the order of their keys. -/
structure Lists (m : Shown K V) (r : RangeBounds K) (l : List (K × SeqMarked V)) : Prop where
  ascending : KeyAscending l
  mem_iff : ∀ k x, (k, x) ∈ l ↔ r.Contains k ∧ m k = some x

theorem Lists.unique {m : Shown K V} {r : RangeBounds K} {l l' : List (K × SeqMarked V)}
    (h : Lists m r l) (h' : Lists m r l') : l = l' := by
  refine h.ascending.ext_mem h'.ascending ?_
  rintro ⟨k, x⟩
  rw [h.mem_iff, h'.mem_iff]

/-- The streams of newer readers share a key and marker only at a tombstone. -/
theorem Shown.Newer.compatible {m m' : Shown K V} (h : m.Newer m') {r : RangeBounds K}
    {l l' : List (K × SeqMarked V)} (hl : Lists m r l) (hl' : Lists m' r l') :
    Compatible l l' := by
  intro e he e' he' hkey hord
  obtain ⟨k, x⟩ := e
  obtain ⟨k', y⟩ := e'
  obtain rfl : k = k' := hkey
  rcases h k x y ((hl.mem_iff k x).1 he).2 ((hl'.mem_iff k y).1 he').2 with hlt | ⟨-, ht⟩
  · exact absurd hord.symm (ne_of_lt hlt)
  · exact ht

/-- One list for each map. -/
abbrev ListsEach (r : RangeBounds K) (ms : List (Shown K V)) (ls : List (List (K × SeqMarked V))) :
    Prop :=
  List.Forall₂ (fun m l => Lists m r l) ms ls

section Streams

variable {r : RangeBounds K} {ms : List (Shown K V)} {ls : List (List (K × SeqMarked V))}

theorem ListsEach.exists_map (h : ListsEach r ms ls) : ∀ l ∈ ls, ∃ m ∈ ms, Lists m r l := by
  induction h with
  | nil => nofun
  | cons hl _ ih =>
      intro l hmem
      rcases List.mem_cons.1 hmem with rfl | hmem
      · exact ⟨_, List.mem_cons_self, hl⟩
      · obtain ⟨m, hm, hlist⟩ := ih l hmem
        exact ⟨m, List.mem_cons_of_mem _ hm, hlist⟩

theorem ListsEach.mem_flatten (h : ListsEach r ms ls) {k : K} {x : SeqMarked V} :
    (k, x) ∈ ls.flatten ↔ r.Contains k ∧ ∃ m ∈ ms, m k = some x := by
  induction h with
  | nil => simp
  | cons hl _ ih =>
      rw [List.flatten_cons, List.mem_append, ih, hl.mem_iff]
      simp only [List.mem_cons, exists_eq_or_imp]
      exact and_or_left.symm

theorem ListsEach.ascending (h : ListsEach r ms ls) : ∀ l ∈ ls, KeyAscending l := by
  intro l hl
  obtain ⟨m, -, hlist⟩ := h.exists_map l hl
  exact hlist.ascending

theorem ListsEach.compatible (h : ListsEach r ms ls) (hnew : ms.Pairwise Shown.Newer) :
    ls.Pairwise Compatible := by
  induction h with
  | nil => exact List.Pairwise.nil
  | cons hl hls ih =>
      obtain ⟨hm, hms⟩ := List.pairwise_cons.1 hnew
      refine List.pairwise_cons.2 ⟨fun l' hl' => ?_, ih hms⟩
      obtain ⟨m', hm', hlist⟩ := ListsEach.exists_map hls l' hl'
      exact (hm m' hm').compatible hl hlist

/-- The greatest record of a key is the first one. -/
theorem ListsEach.isGreatest_iff (h : ListsEach r ms ls) (hnew : ms.Pairwise Shown.Newer) {k : K}
    {x : SeqMarked V} : IsGreatest ls k x ↔ r.Contains k ∧ Shown.first ms k = some x := by
  constructor
  · rintro ⟨hx, hmax⟩
    obtain ⟨hk, m, hm, hmx⟩ := h.mem_flatten.1 hx
    cases hfirst : Shown.first ms k with
    | none => cases hmx.symm.trans (List.findSome?_eq_none_iff.1 hfirst m hm)
    | some z =>
        -- the first record is as great, and the marker determines the record
        have hz := h.mem_flatten.2 ⟨hk, List.exists_of_findSome?_eq_some hfirst⟩
        have heq := le_antisymm (Shown.le_first hnew hfirst m hm x hmx) (hmax z hz)
        exact ⟨hk, congrArg some (eq_of_compatible h.ascending (h.compatible hnew) hz hx heq.symm)⟩
  · rintro ⟨hk, hfirst⟩
    refine ⟨h.mem_flatten.2 ⟨hk, List.exists_of_findSome?_eq_some hfirst⟩, fun y hy => ?_⟩
    obtain ⟨-, m, hm, hmy⟩ := h.mem_flatten.1 hy
    exact Shown.le_first hnew hfirst m hm y hmy

/-- **The streams of newer readers merge into their first records.** -/
theorem mergeStreams_first (P : KMerge.Picker Fault (KVResult K V)) (h : ListsEach r ms ls)
    (hnew : ms.Pairwise Shown.Newer) :
    ∃ out, mergeStreams P (ls.map items) = .ok (items out) ∧ Lists (Shown.first ms) r out := by
  obtain ⟨out, hout, hasc, hmem⟩ := mergeStreams_spec P h.ascending (h.compatible hnew)
  exact ⟨out, hout, hasc, fun k x => (hmem k x).trans (h.isGreatest_iff hnew)⟩

end Streams

/-! ### Readers -/

/-- **The two reads of a reader answer as a map.** -/
structure ReadsAs (get : K → Except Fault (SeqMarked V))
    (range : RangeBounds K → Except Fault (List (KVResult K V))) (m : Shown K V) : Prop where
  get_eq : ∀ k, get k = .ok ((m k).getD .newNotFound)
  range_eq : ∀ r, ¬r.Inverted → ∃ out, range r = .ok (items out) ∧ Lists m r out

/-! ### Scans in pages, and batches of point reads -/

/-- **A range cut into adjacent pages**, at keys in ascending order. -/
def pages (startBound endBound : Bound K) : List K → List (RangeBounds K)
  | [] => [⟨startBound, endBound⟩]
  | k :: cuts => ⟨startBound, .excluded k⟩ :: pages (.included k) endBound cuts

/-- What is shown below a key of a range and what is shown from the key on make up the range. -/
theorem Lists.append {m : Shown K V} {s e : Bound K} {k : K}
    (hk : (⟨s, e⟩ : RangeBounds K).Contains k) {l l' : List (K × SeqMarked V)}
    (hl : Lists m ⟨s, .excluded k⟩ l) (hl' : Lists m ⟨.included k, e⟩ l') :
    Lists m ⟨s, e⟩ (l ++ l') := by
  have hcut : ∀ k', (⟨s, e⟩ : RangeBounds K).Contains k' ↔
      (⟨s, .excluded k⟩ : RangeBounds K).Contains k' ∨
        (⟨.included k, e⟩ : RangeBounds K).Contains k' := by
    intro k'
    constructor
    · rintro ⟨hs, he⟩
      rcases lt_or_ge k' k with hlt | hge
      · exact Or.inl ⟨hs, hlt⟩
      · exact Or.inr ⟨hge, he⟩
    · rintro (⟨hs, hlt⟩ | ⟨hge, he⟩)
      · refine ⟨hs, ?_⟩
        cases e with
        | unbounded => trivial
        | included b => exact le_trans (le_of_lt hlt) hk.2
        | excluded b => exact lt_trans hlt hk.2
      · refine ⟨?_, he⟩
        cases s with
        | unbounded => trivial
        | included a => exact le_trans hk.1 hge
        | excluded a => exact lt_of_lt_of_le hk.1 hge
  refine ⟨List.pairwise_append.2 ⟨hl.ascending, hl'.ascending, fun a ha b hb => ?_⟩,
    fun k' x => ?_⟩
  · have hbelow : a.1 < k := ((hl.mem_iff a.1 a.2).1 ha).1.2
    have habove : k ≤ b.1 := ((hl'.mem_iff b.1 b.2).1 hb).1.1
    exact lt_of_lt_of_le hbelow habove
  · rw [List.mem_append, hl.mem_iff, hl'.mem_iff, hcut]
    exact or_and_right.symm

section Scans

variable {get : K → Except Fault (SeqMarked V)}
  {range : RangeBounds K → Except Fault (List (KVResult K V))} {m : Shown K V}

/-- The pages of a scan, by induction on the cuts. -/
theorem ReadsAs.exists_pages (h : ReadsAs get range m) {e : Bound K} (cuts : List K) :
    ∀ {s : Bound K}, ¬(⟨s, e⟩ : RangeBounds K).Inverted → cuts.Pairwise (· ≤ ·) →
      (∀ k ∈ cuts, (⟨s, e⟩ : RangeBounds K).Contains k) →
      ∃ outs : List (List (K × SeqMarked V)),
        (pages s e cuts).mapM range = .ok (outs.map items) ∧
        Lists m ⟨s, e⟩ outs.flatten := by
  induction cuts with
  | nil =>
      intro s hr _ _
      obtain ⟨out, hout, hlist⟩ := h.range_eq _ hr
      refine ⟨[out], ?_, by simpa using hlist⟩
      rw [pages, List.mapM_cons, hout]
      rfl
  | cons k cuts ih =>
      intro s _ hcuts hin
      have hk := hin k List.mem_cons_self
      obtain ⟨hle, hcuts'⟩ := List.pairwise_cons.1 hcuts
      obtain ⟨out, hout, hlist⟩ := h.range_eq _ (RangeBounds.not_inverted_below hk)
      have hrest : (⟨.included k, e⟩ : RangeBounds K).Contains k := ⟨le_rfl, hk.2⟩
      obtain ⟨outs, houts, hlists⟩ := ih (RangeBounds.not_inverted_of_contains hrest) hcuts'
        fun k' hk' => ⟨hle k' hk', (hin k' (List.mem_cons_of_mem _ hk')).2⟩
      refine ⟨out :: outs, ?_, ?_⟩
      · rw [pages, List.mapM_cons, hout, ok_bind, houts]
        rfl
      · rw [List.flatten_cons]
        exact hlist.append hk hlists

/-- **A scan in pages is the scan of the whole range.** -/
theorem ReadsAs.pages_eq (h : ReadsAs get range m) {r : RangeBounds K} (hr : ¬r.Inverted)
    {cuts : List K} (hcuts : cuts.Pairwise (· ≤ ·)) (hin : ∀ k ∈ cuts, r.Contains k) :
    ((pages r.startBound r.endBound cuts).mapM range).map List.flatten = range r := by
  obtain ⟨outs, houts, hlist⟩ := h.exists_pages cuts hr hcuts hin
  obtain ⟨out, hout, hlist'⟩ := h.range_eq r hr
  rw [houts, hout, hlist'.unique hlist]
  exact congrArg Except.ok (flatten_items outs)

/-- **A batch of point reads of scanned keys answers what the scan listed.** -/
theorem ReadsAs.mapM_get (h : ReadsAs get range m) {r : RangeBounds K}
    {out : List (K × SeqMarked V)} (hlist : Lists m r out) :
    (out.map Prod.fst).mapM get = .ok (out.map Prod.snd) := by
  refine mapM_of_map_eq_ok ?_
  rw [List.map_map, List.map_map]
  refine List.map_congr_left fun e he => ?_
  have hshown := ((hlist.mem_iff e.1 e.2).1 he).2
  change get e.1 = .ok e.2
  rw [h.get_eq, hshown]
  rfl

end Scans

end

end MapApi
