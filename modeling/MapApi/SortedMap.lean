/-
**Ordered maps as strictly sorted lists of entries.**

A B-tree map is observed through the order of its keys: iteration lists the entries in ascending
order, a range scan lists those whose key lies between two bounds, and an insertion replaces the
entry of an equal key.  The shape of the tree is not observable, so the map is the strictly sorted
list of its entries, and the order is a field of the structure: an unsorted map cannot be built.

Nothing here is about a particular kind of key or value.

Main definitions:

* `BTreeMap` — a strictly sorted list of entries, with `BTreeMap.get?`, `BTreeMap.insert`,
  `BTreeMap.extend` and `BTreeMap.fromIter`;
* `Bound`, `RangeBounds` — the ends of a range, `RangeBounds.Contains`, and
  `RangeBounds.Inverted`, the ranges a scan refuses;
* `BTreeMap.range` — the scan;
* `BTreeMap.lastValue` — the value a list of writes leaves at a key.

Main results:

* `BTreeMap.ext_get?`, `BTreeMap.ext_mem` — a map is determined by its lookups, and by its
  entries;
* `BTreeMap.mem_insert`, `BTreeMap.get?_extend` — what insertion and extension do;
* `BTreeMap.head?_filter_eq_some` — the first entry of a scan is the least one in the range;
* `KeyAscending.ext_mem` — a list of pairs with ascending keys is determined by its members.
-/

import Mathlib.Data.List.Induction
import Mathlib.Data.List.Sort
import Mathlib.Order.Lattice
import Mathlib.Tactic.Common

set_option relaxedAutoImplicit false
set_option autoImplicit false

/-! ### Lists of pairs with ascending keys -/

/-- A list of pairs is **key-ascending** when the keys strictly ascend along it. -/
def KeyAscending {κ ν : Type} [LT κ] (l : List (κ × ν)) : Prop :=
  l.Pairwise fun a b => a.1 < b.1

namespace KeyAscending

variable {κ ν : Type} [LinearOrder κ] {l l' : List (κ × ν)}

theorem nil : KeyAscending ([] : List (κ × ν)) := List.Pairwise.nil

theorem cons_iff {a : κ × ν} :
    KeyAscending (a :: l) ↔ (∀ b ∈ l, a.1 < b.1) ∧ KeyAscending l :=
  List.pairwise_cons

theorem filter (h : KeyAscending l) (p : κ × ν → Bool) : KeyAscending (l.filter p) :=
  List.Pairwise.filter p h

/-- A key occurs at most once. -/
theorem eq_of_mem (h : KeyAscending l) {k : κ} {v v' : ν} (hv : (k, v) ∈ l) (hv' : (k, v') ∈ l) :
    v = v' := by
  induction l with
  | nil => simp at hv
  | cons a l ih =>
      obtain ⟨hlt, hl⟩ := cons_iff.1 h
      rcases List.mem_cons.1 hv with rfl | hvl
      · rcases List.mem_cons.1 hv' with heq | hvl'
        · exact (Prod.mk.inj heq).2.symm
        · have hkk : k < k := hlt (k, v') hvl'
          exact (lt_irrefl k hkk).elim
      · rcases List.mem_cons.1 hv' with rfl | hvl'
        · have hkk : k < k := hlt (k, v) hvl
          exact (lt_irrefl k hkk).elim
        · exact ih hl hvl hvl'

/-- **A key-ascending list is determined by its members.** -/
theorem ext_mem (h : KeyAscending l) (h' : KeyAscending l') (hmem : ∀ e, e ∈ l ↔ e ∈ l') :
    l = l' := by
  have hirr : Std.Irrefl fun a b : κ × ν => a.1 < b.1 := ⟨fun a => lt_irrefl a.1⟩
  have hasymm : Std.Antisymm fun a b : κ × ν => a.1 < b.1 :=
    ⟨fun a b hab hba => absurd hab (lt_asymm hba)⟩
  exact List.Pairwise.eq_of_mem_iff h h' (fun {e} => hmem e)

end KeyAscending

/-! ### The map -/

/-- **An ordered map**: its entries, in strictly ascending order of their keys. -/
@[ext] structure BTreeMap (κ ν : Type) [LinearOrder κ] where
  /-- The entries, as iteration lists them. -/
  entries : List (κ × ν)
  sorted : KeyAscending entries

namespace BTreeMap

variable {κ ν : Type} [LinearOrder κ]

instance [DecidableEq ν] : DecidableEq (BTreeMap κ ν) := fun m m' =>
  decidable_of_iff (m.entries = m'.entries) BTreeMap.ext_iff.symm

/-- The map without entries. -/
def empty : BTreeMap κ ν := ⟨[], KeyAscending.nil⟩

@[simp] theorem entries_empty : (empty : BTreeMap κ ν).entries = [] := rfl

/-- The value stored at a key. -/
def get? (m : BTreeMap κ ν) (k : κ) : Option ν :=
  (m.entries.find? fun e => e.1 = k).map Prod.snd

@[simp] theorem get?_empty (k : κ) : (empty : BTreeMap κ ν).get? k = none := rfl

theorem get?_eq_some {m : BTreeMap κ ν} {k : κ} {v : ν} :
    m.get? k = some v ↔ (k, v) ∈ m.entries := by
  constructor
  · intro h
    obtain ⟨e, he, rfl⟩ := Option.map_eq_some_iff.1 h
    have hk : e.1 = k := by simpa using List.find?_some he
    subst hk
    exact List.mem_of_find?_eq_some he
  · intro h
    cases hf : m.entries.find? fun e => e.1 = k with
    | none =>
        have := List.find?_eq_none.1 hf (k, v) h
        simp at this
    | some e =>
        have hk : e.1 = k := by simpa using List.find?_some hf
        subst hk
        have hv := m.sorted.eq_of_mem (List.mem_of_find?_eq_some hf) h
        rw [get?, hf, Option.map_some, hv]

theorem get?_eq_none {m : BTreeMap κ ν} {k : κ} :
    m.get? k = none ↔ ∀ v, (k, v) ∉ m.entries := by
  rw [Option.eq_none_iff_forall_ne_some]
  exact forall_congr' fun v => not_congr get?_eq_some

/-- Two maps with the same entries are equal. -/
theorem ext_mem {m m' : BTreeMap κ ν} (h : ∀ e, e ∈ m.entries ↔ e ∈ m'.entries) : m = m' :=
  BTreeMap.ext (m.sorted.ext_mem m'.sorted h)

/-- **Two maps with the same lookups are equal.** -/
theorem ext_get? {m m' : BTreeMap κ ν} (h : ∀ k, m.get? k = m'.get? k) : m = m' := by
  refine ext_mem ?_
  rintro ⟨k, v⟩
  rw [← get?_eq_some, ← get?_eq_some, h]

/-! ### Insertion -/

/-- Put an entry at its place in a sorted list, replacing the entry of an equal key. -/
def insertEntry (k : κ) (v : ν) : List (κ × ν) → List (κ × ν)
  | [] => [(k, v)]
  | e :: l =>
      if k < e.1 then (k, v) :: e :: l
      else if k = e.1 then (k, v) :: l
      else e :: insertEntry k v l

theorem mem_insertEntry {k : κ} {v : ν} {l : List (κ × ν)} (h : KeyAscending l) {e : κ × ν} :
    e ∈ insertEntry k v l ↔ e = (k, v) ∨ (e ∈ l ∧ e.1 ≠ k) := by
  induction l with
  | nil => simp [insertEntry]
  | cons a l ih =>
      obtain ⟨hlt, hl⟩ := KeyAscending.cons_iff.1 h
      simp only [insertEntry]
      split_ifs with h₁ h₂
      · -- every key of the list is above `k`
        have hne : ∀ b ∈ a :: l, b.1 ≠ k := by
          intro b hb
          rcases List.mem_cons.1 hb with rfl | hb
          · exact ne_of_gt h₁
          · exact ne_of_gt (lt_trans h₁ (hlt b hb))
        rw [List.mem_cons]
        exact or_congr_right ⟨fun he => ⟨he, hne e he⟩, And.left⟩
      · -- the head is the entry of `k`
        rw [List.mem_cons, List.mem_cons]
        refine or_congr_right ⟨fun he => ⟨Or.inr he, ?_⟩, ?_⟩
        · exact h₂ ▸ ne_of_gt (hlt e he)
        · rintro ⟨rfl | he, hk⟩
          · exact absurd h₂.symm hk
          · exact he
      · rw [List.mem_cons, ih hl, List.mem_cons]
        constructor
        · rintro (rfl | rfl | ⟨he, hk⟩)
          · exact Or.inr ⟨Or.inl rfl, Ne.symm h₂⟩
          · exact Or.inl rfl
          · exact Or.inr ⟨Or.inr he, hk⟩
        · rintro (rfl | ⟨rfl | he, hk⟩)
          · exact Or.inr (Or.inl rfl)
          · exact Or.inl rfl
          · exact Or.inr (Or.inr ⟨he, hk⟩)

theorem keyAscending_insertEntry (k : κ) (v : ν) {l : List (κ × ν)} (h : KeyAscending l) :
    KeyAscending (insertEntry k v l) := by
  induction l with
  | nil => simp [insertEntry, KeyAscending]
  | cons a l ih =>
      obtain ⟨hlt, hl⟩ := KeyAscending.cons_iff.1 h
      simp only [insertEntry]
      split_ifs with h₁ h₂
      · refine KeyAscending.cons_iff.2 ⟨fun b hb => ?_, h⟩
        rcases List.mem_cons.1 hb with rfl | hb
        · exact h₁
        · exact lt_trans h₁ (hlt b hb)
      · exact KeyAscending.cons_iff.2 ⟨fun b hb => h₂ ▸ hlt b hb, hl⟩
      · refine KeyAscending.cons_iff.2 ⟨fun b hb => ?_, ih hl⟩
        rcases (mem_insertEntry hl).1 hb with rfl | ⟨hb, -⟩
        · exact lt_of_le_of_ne (not_lt.1 h₁) (Ne.symm h₂)
        · exact hlt b hb

/-- Store a value at a key. -/
def insert (m : BTreeMap κ ν) (k : κ) (v : ν) : BTreeMap κ ν :=
  ⟨insertEntry k v m.entries, keyAscending_insertEntry k v m.sorted⟩

theorem mem_insert {m : BTreeMap κ ν} {k : κ} {v : ν} {e : κ × ν} :
    e ∈ (m.insert k v).entries ↔ e = (k, v) ∨ (e ∈ m.entries ∧ e.1 ≠ k) :=
  mem_insertEntry m.sorted

theorem get?_insert (m : BTreeMap κ ν) (k : κ) (v : ν) (k' : κ) :
    (m.insert k v).get? k' = if k = k' then some v else m.get? k' := by
  ext w
  rw [get?_eq_some, mem_insert]
  by_cases h : k = k'
  · subst h
    simp [eq_comm]
  · simp [h, Ne.symm h, get?_eq_some]

/-! ### Extension -/

/-- Store the entries of a list one after the other. -/
def extend (m : BTreeMap κ ν) (es : List (κ × ν)) : BTreeMap κ ν :=
  es.foldl (fun m e => m.insert e.1 e.2) m

/-- Collect a list of entries into a map. -/
def fromIter (es : List (κ × ν)) : BTreeMap κ ν := empty.extend es

@[simp] theorem extend_nil (m : BTreeMap κ ν) : m.extend [] = m := rfl

theorem extend_append (m : BTreeMap κ ν) (es es' : List (κ × ν)) :
    m.extend (es ++ es') = (m.extend es).extend es' :=
  List.foldl_append

theorem extend_singleton (m : BTreeMap κ ν) (e : κ × ν) : m.extend [e] = m.insert e.1 e.2 := rfl

/-- **The value a list of writes leaves at a key**: the last one written there. -/
def lastValue (es : List (κ × ν)) (k : κ) : Option ν :=
  (es.reverse.find? fun e => e.1 = k).map Prod.snd

@[simp] theorem lastValue_nil (k : κ) : lastValue ([] : List (κ × ν)) k = none := rfl

theorem lastValue_concat (es : List (κ × ν)) (e : κ × ν) (k : κ) :
    lastValue (es ++ [e]) k = if e.1 = k then some e.2 else lastValue es k := by
  rw [lastValue, List.reverse_concat, List.find?_cons]
  by_cases h : e.1 = k <;> simp [h, lastValue]

theorem lastValue_eq_none {es : List (κ × ν)} {k : κ} :
    lastValue es k = none ↔ ∀ e ∈ es, e.1 ≠ k := by
  simp [lastValue]

theorem lastValue_mem {es : List (κ × ν)} {k : κ} {v : ν} (h : lastValue es k = some v) :
    (k, v) ∈ es := by
  obtain ⟨e, he, rfl⟩ := Option.map_eq_some_iff.1 h
  have hk : e.1 = k := by simpa using List.find?_some he
  subst hk
  exact List.mem_reverse.1 (List.mem_of_find?_eq_some he)

theorem lastValue_isSome_of_mem {es : List (κ × ν)} {e : κ × ν} (h : e ∈ es) :
    ∃ v, lastValue es e.1 = some v := by
  cases hl : lastValue es e.1 with
  | none => exact absurd rfl (lastValue_eq_none.1 hl e h)
  | some v => exact ⟨v, rfl⟩

/-- The entries of a map write each key once. -/
theorem lastValue_entries (m : BTreeMap κ ν) (k : κ) : lastValue m.entries k = m.get? k := by
  cases h : lastValue m.entries k with
  | none =>
      refine (get?_eq_none.2 fun v hv => ?_).symm
      exact lastValue_eq_none.1 h _ hv rfl
  | some v => exact (get?_eq_some.2 (lastValue_mem h)).symm

/-- **An extension is read through its last writes, and through the map where there is none.** -/
theorem get?_extend (m : BTreeMap κ ν) (es : List (κ × ν)) (k : κ) :
    (m.extend es).get? k = (lastValue es k).or (m.get? k) := by
  induction es using List.reverseRecOn with
  | nil => simp
  | append_singleton es e ih =>
      rw [extend_append, extend_singleton, get?_insert, ih, lastValue_concat]
      split_ifs <;> rfl

theorem get?_fromIter (es : List (κ × ν)) (k : κ) : (fromIter es).get? k = lastValue es k := by
  rw [fromIter, get?_extend, get?_empty, Option.or_none]

/-- Extending by the entries of a collected list is extending by the list. -/
theorem extend_fromIter (m : BTreeMap κ ν) (es : List (κ × ν)) :
    m.extend (fromIter es).entries = m.extend es := by
  refine ext_get? fun k => ?_
  rw [get?_extend, get?_extend, lastValue_entries, get?_fromIter]

/-- What a map extended by the entries of another one holds. -/
theorem mem_extend_entries {m m' : BTreeMap κ ν} {e : κ × ν} :
    e ∈ (m.extend m'.entries).entries ↔
      e ∈ m'.entries ∨ (e ∈ m.entries ∧ ∀ v, (e.1, v) ∉ m'.entries) := by
  obtain ⟨k, v⟩ := e
  rw [← get?_eq_some, get?_extend, lastValue_entries, Option.or_eq_some_iff, get?_eq_some,
    get?_eq_some, get?_eq_none]
  exact or_congr_right and_comm

/-- A key-ascending list is what collecting it lists. -/
theorem entries_fromIter {es : List (κ × ν)} (h : KeyAscending es) :
    (fromIter es).entries = es := by
  have heq : fromIter es = ⟨es, h⟩ :=
    ext_get? fun k => (get?_fromIter es k).trans (lastValue_entries ⟨es, h⟩ k)
  rw [heq]

/-- Collecting does not depend on the order of entries whose keys differ. -/
theorem fromIter_perm {es : List (κ × ν)} {m : BTreeMap κ ν} (h : es.Perm m.entries) :
    fromIter es = m := by
  refine ext_mem ?_
  rintro ⟨k, v⟩
  rw [← get?_eq_some, get?_fromIter]
  constructor
  · intro hv
    exact h.mem_iff.1 (lastValue_mem hv)
  · intro hv
    obtain ⟨w, hw⟩ := lastValue_isSome_of_mem (h.mem_iff.2 hv)
    rw [hw, m.sorted.eq_of_mem (h.mem_iff.1 (lastValue_mem hw)) hv]

end BTreeMap

/-! ### Ranges -/

/-- One end of a range of keys. -/
inductive Bound (κ : Type) where
  | included (k : κ)
  | excluded (k : κ)
  | unbounded
  deriving DecidableEq, Repr

/-- A range of keys, by its two ends. -/
structure RangeBounds (κ : Type) where
  startBound : Bound κ
  endBound : Bound κ
  deriving DecidableEq, Repr

namespace RangeBounds

variable {κ : Type} [LinearOrder κ]

/-- The range of all keys. -/
def full : RangeBounds κ := ⟨.unbounded, .unbounded⟩

/-- A key lies between the two ends. -/
def Contains (r : RangeBounds κ) (k : κ) : Prop :=
  (match r.startBound with
    | .included s => s ≤ k
    | .excluded s => s < k
    | .unbounded => True) ∧
  (match r.endBound with
    | .included e => k ≤ e
    | .excluded e => k < e
    | .unbounded => True)

instance (r : RangeBounds κ) (k : κ) : Decidable (r.Contains k) := by
  unfold Contains
  cases r.startBound <;> cases r.endBound <;> infer_instance

@[simp] theorem contains_full (k : κ) : (full : RangeBounds κ).Contains k := ⟨trivial, trivial⟩

/-- The ranges a scan refuses: those whose start is above their end, and those that exclude the
single key they start and end at. -/
def Inverted (r : RangeBounds κ) : Prop :=
  match r.startBound, r.endBound with
  | .excluded s, .excluded e => e ≤ s
  | .included s, .included e => e < s
  | .included s, .excluded e => e < s
  | .excluded s, .included e => e < s
  | _, _ => False

instance (r : RangeBounds κ) : Decidable r.Inverted := by
  unfold Inverted
  cases r.startBound <;> cases r.endBound <;> infer_instance

@[simp] theorem not_inverted_full : ¬(full : RangeBounds κ).Inverted := id

/-- A range that contains a key is not inverted. -/
theorem not_inverted_of_contains {r : RangeBounds κ} {k : κ} (h : r.Contains k) :
    ¬r.Inverted := by
  obtain ⟨s, e⟩ := r
  obtain ⟨hs, he⟩ := h
  cases s with
  | unbounded => exact id
  | included a =>
      cases e with
      | unbounded => exact id
      | included b => exact not_lt.2 (le_trans hs he)
      | excluded b => exact not_lt.2 (le_trans hs he.le)
  | excluded a =>
      cases e with
      | unbounded => exact id
      | included b => exact not_lt.2 (le_trans hs.le he)
      | excluded b => exact not_le.2 (lt_trans hs he)

/-- Neither is the part of it below the key. -/
theorem not_inverted_below {r : RangeBounds κ} {k : κ} (h : r.Contains k) :
    ¬(⟨r.startBound, .excluded k⟩ : RangeBounds κ).Inverted := by
  obtain ⟨s, e⟩ := r
  cases s with
  | unbounded => exact id
  | included a => exact not_lt.2 h.1
  | excluded a => exact not_le.2 h.1

end RangeBounds

namespace BTreeMap

variable {κ ν : Type} [LinearOrder κ]

/-- **A range scan**: the entries whose key lies in the range, in ascending order; `none` when the
scan refuses the range.  Which ranges it refuses follows the documented panics of `BTreeMap::range`
of the standard library, for any map; that a map that was never filled does not look at the range is
not part of that contract. -/
def range (m : BTreeMap κ ν) (r : RangeBounds κ) : Option (List (κ × ν)) :=
  if r.Inverted then none else some (m.entries.filter fun e => r.Contains e.1)

theorem range_of_not_inverted (m : BTreeMap κ ν) {r : RangeBounds κ} (h : ¬r.Inverted) :
    m.range r = some (m.entries.filter fun e => r.Contains e.1) := if_neg h

theorem range_of_inverted (m : BTreeMap κ ν) {r : RangeBounds κ} (h : r.Inverted) :
    m.range r = none := if_pos h

/-- The first entry a filter leaves of a key-ascending list is the least one that passes. -/
theorem head?_filter_eq_some {l : List (κ × ν)} (hl : KeyAscending l) {p : κ × ν → Bool}
    {e : κ × ν} :
    (l.filter p).head? = some e ↔ e ∈ l ∧ p e ∧ ∀ e' ∈ l, p e' → e.1 ≤ e'.1 := by
  constructor
  · intro h
    obtain ⟨rest, hrest⟩ := List.head?_eq_some_iff.1 h
    have hmem : e ∈ l.filter p := by rw [hrest]; exact List.mem_cons_self
    obtain ⟨hel, hpe⟩ := List.mem_filter.1 hmem
    refine ⟨hel, hpe, fun e' he' hp' => ?_⟩
    have hsorted := hl.filter p
    rw [hrest] at hsorted
    have he'' : e' ∈ e :: rest := hrest ▸ List.mem_filter.2 ⟨he', hp'⟩
    rcases List.mem_cons.1 he'' with rfl | he''
    · exact le_rfl
    · exact le_of_lt ((KeyAscending.cons_iff.1 hsorted).1 e' he'')
  · rintro ⟨hel, hpe, hleast⟩
    have hmem : e ∈ l.filter p := List.mem_filter.2 ⟨hel, hpe⟩
    cases hf : l.filter p with
    | nil => rw [hf] at hmem; simp at hmem
    | cons a rest =>
        have ha : a ∈ l.filter p := by rw [hf]; exact List.mem_cons_self
        obtain ⟨hal, hpa⟩ := List.mem_filter.1 ha
        have hsorted := hl.filter p
        rw [hf] at hsorted hmem
        rcases List.mem_cons.1 hmem with rfl | hmem
        · rfl
        · exact absurd ((KeyAscending.cons_iff.1 hsorted).1 e hmem) (not_lt.2 (hleast a hal hpa))

end BTreeMap
