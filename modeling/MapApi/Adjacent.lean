/-
**Folding adjacent items of a stream.**

`coalesce f` walks a stream holding one item: `f` either combines the held item with the next one,
or gives both back, in which case the first is emitted and the second is held.  Two uses are worked
out here, both on a sorted stream: combining items of equal key into the one of greatest rank, and
dropping the items that an earlier item of their group makes superfluous.

Main definitions:

* `Adjacent.coalesce` — the fold;
* `Adjacent.Absorbed`, `Adjacent.Distinct` — the items a pruning fold drops, and the streams it
  accepts.

Main results:

* `Adjacent.coalesce_max` — **one item per key is left, the one of greatest rank**;
* `Adjacent.coalesce_prune`, `Adjacent.coalesce_prune_error` — **a pruning fold keeps what is not
  absorbed**, and fails on a repeated key unless it is absorbed.
-/

import Mathlib.Data.List.Sort
import Mathlib.Data.Prod.Lex
import Mathlib.Order.Lattice
import Mathlib.Tactic.Common

set_option relaxedAutoImplicit false
set_option autoImplicit false

namespace Adjacent

variable {ε α κ μ γ : Type}

/-- The fold, holding `held`. -/
def coalesceFrom (f : α → α → Except ε (Except (α × α) α)) : α → List α → Except ε (List α)
  | held, [] => .ok [held]
  | held, x :: xs =>
      match f held x with
      | .error e => .error e
      | .ok (.ok merged) => coalesceFrom f merged xs
      | .ok (.error (a, b)) => do
          let out ← coalesceFrom f b xs
          return a :: out

/-- **Fold adjacent items**: `f` combines two of them, or gives both back. -/
def coalesce (f : α → α → Except ε (Except (α × α) α)) : List α → Except ε (List α)
  | [] => .ok []
  | x :: xs => coalesceFrom f x xs

/-! ### Keeping the greatest item of each key -/

section Max

variable [LinearOrder κ] [LinearOrder μ] {key : α → κ} {rank : α → μ}
  {Q : α → Prop} {f : α → α → Except ε (Except (α × α) α)}

/-- Items in the order of their keys, and of their ranks at one key. -/
def KeyRankLE (key : α → κ) (rank : α → μ) (a b : α) : Prop :=
  key a < key b ∨ (key a = key b ∧ rank a ≤ rank b)

/-- Among the items of `Q`, `f` combines neighbours of equal key into one of them whose rank is
the second's, and leaves neighbours of different keys alone. -/
structure CombinesMax (Q : α → Prop) (key : α → κ) (rank : α → μ)
    (f : α → α → Except ε (Except (α × α) α)) : Prop where
  combine : ∀ a b, Q a → Q b → key a = key b → rank a ≤ rank b →
    ∃ c, f a b = .ok (.ok c) ∧ (c = a ∨ c = b) ∧ rank c = rank b
  keep : ∀ a b, Q a → Q b → key a < key b → f a b = .ok (.error (a, b))

/-- What a fold by `f` leaves of a stream: one item per key, of the greatest rank. -/
structure GreatestPerKey (key : α → κ) (rank : α → μ) (l out : List α) : Prop where
  ascending : out.Pairwise fun a b => key a < key b
  greatest : ∀ x ∈ out, x ∈ l ∧ ∀ y ∈ l, key y = key x → rank y ≤ rank x
  complete : ∀ y ∈ l, ∃ x ∈ out, key x = key y

/-- An item whose key is below all others is an item of its own. -/
theorem GreatestPerKey.cons {held : α} {l out : List α} (h : GreatestPerKey key rank l out)
    (hbelow : ∀ y ∈ l, key held < key y) : GreatestPerKey key rank (held :: l) (held :: out) := by
  obtain ⟨hasc, hgr, hcomp⟩ := h
  refine ⟨List.pairwise_cons.2 ⟨fun y hy => hbelow y (hgr y hy).1, hasc⟩, ?_, ?_⟩
  · intro y hy
    rcases List.mem_cons.1 hy with rfl | hy
    · refine ⟨List.mem_cons_self, fun z hz hkey => ?_⟩
      rcases List.mem_cons.1 hz with rfl | hz
      · exact le_rfl
      · exact absurd hkey (ne_of_gt (hbelow z hz))
    · obtain ⟨hmem, hmax⟩ := hgr y hy
      refine ⟨List.mem_cons_of_mem _ hmem, fun z hz hkey => ?_⟩
      rcases List.mem_cons.1 hz with rfl | hz
      · exact absurd hkey (ne_of_lt (hbelow y hmem))
      · exact hmax z hz hkey
  · intro y hy
    rcases List.mem_cons.1 hy with rfl | hy
    · exact ⟨y, List.mem_cons_self, rfl⟩
    · obtain ⟨z, hz, hkey⟩ := hcomp y hy
      exact ⟨z, List.mem_cons_of_mem _ hz, hkey⟩

/-- Two items of one key may be combined into one of them that has the greater rank. -/
theorem GreatestPerKey.of_combined {held x c : α} {xs out : List α}
    (h : GreatestPerKey key rank (c :: xs) out) (hkey : key held = key x)
    (hle : rank held ≤ rank x) (hc : c = held ∨ c = x) (hrank : rank c = rank x) :
    GreatestPerKey key rank (held :: x :: xs) out := by
  obtain ⟨hasc, hgr, hcomp⟩ := h
  have hckey : key c = key x := by rcases hc with rfl | rfl <;> simp [hkey]
  refine ⟨hasc, fun y hy => ?_, fun y hy => ?_⟩
  · obtain ⟨hmem, hmax⟩ := hgr y hy
    refine ⟨?_, fun z hz hzy => ?_⟩
    · rcases List.mem_cons.1 hmem with rfl | hmem
      · rcases hc with rfl | rfl <;> simp
      · exact List.mem_cons_of_mem _ (List.mem_cons_of_mem _ hmem)
    · -- both combined items are at most `c`
      rcases List.mem_cons.1 hz with rfl | hz
      · have hcy := hmax c List.mem_cons_self (by rw [hckey, ← hkey, hzy])
        exact le_trans hle (hrank ▸ hcy)
      · rcases List.mem_cons.1 hz with rfl | hz
        · exact hrank ▸ hmax c List.mem_cons_self (by rw [hckey, hzy])
        · exact hmax z (List.mem_cons_of_mem _ hz) hzy
  · obtain ⟨z, hz, hzc⟩ := hcomp c List.mem_cons_self
    rcases List.mem_cons.1 hy with rfl | hy
    · exact ⟨z, hz, by rw [hzc, hckey, hkey]⟩
    · rcases List.mem_cons.1 hy with rfl | hy
      · exact ⟨z, hz, by rw [hzc, hckey]⟩
      · exact hcomp y (List.mem_cons_of_mem _ hy)

theorem coalesceFrom_max (hf : CombinesMax Q key rank f) (xs : List α) :
    ∀ held, (∀ x ∈ held :: xs, Q x) → (held :: xs).Pairwise (KeyRankLE key rank) →
      ∃ out, coalesceFrom f held xs = .ok out ∧ GreatestPerKey key rank (held :: xs) out := by
  induction xs with
  | nil =>
      intro held _ _
      refine ⟨[held], rfl, List.pairwise_singleton _ _, ?_, fun y hy => ⟨y, hy, rfl⟩⟩
      intro x hx
      obtain rfl : x = held := by simpa using hx
      exact ⟨List.mem_cons_self, fun y hy _ => by simp_all⟩
  | cons x xs ih =>
      intro held hQ hpw
      have hQx : ∀ y ∈ x :: xs, Q y := fun y hy => hQ y (List.mem_cons_of_mem _ hy)
      have hQheld := hQ held List.mem_cons_self
      obtain ⟨hheld, hpw'⟩ := List.pairwise_cons.1 hpw
      obtain ⟨hx, hxs⟩ := List.pairwise_cons.1 hpw'
      rcases hheld x List.mem_cons_self with hlt | ⟨heq, hle⟩
      · -- a new key: the held item is emitted
        obtain ⟨out, hout, hgr⟩ := ih x hQx hpw'
        have hkeep := hf.keep _ _ hQheld (hQx x List.mem_cons_self) hlt
        refine ⟨held :: out, by simp [coalesceFrom, hkeep, hout], hgr.cons fun y hy => ?_⟩
        rcases List.mem_cons.1 hy with rfl | hy
        · exact hlt
        · rcases hx y hy with h | ⟨h, -⟩
          · exact lt_trans hlt h
          · exact h ▸ hlt
      · -- the same key: one of the two is held on, with the second's rank
        obtain ⟨c, hc, hcmem, hrank⟩ := hf.combine _ _ hQheld (hQx x List.mem_cons_self) heq hle
        have hckey : key c = key x := by rcases hcmem with rfl | rfl <;> simp [heq]
        have hpwc : (c :: xs).Pairwise (KeyRankLE key rank) := by
          refine List.pairwise_cons.2 ⟨fun y hy => ?_, hxs⟩
          rcases hx y hy with h | ⟨h, h'⟩
          · exact Or.inl (hckey ▸ h)
          · exact Or.inr ⟨hckey ▸ h, hrank ▸ h'⟩
        have hQc : ∀ y ∈ c :: xs, Q y := by
          intro y hy
          rcases List.mem_cons.1 hy with rfl | hy
          · rcases hcmem with rfl | rfl
            · exact hQheld
            · exact hQx _ List.mem_cons_self
          · exact hQx y (List.mem_cons_of_mem _ hy)
        obtain ⟨out, hout, hgr⟩ := ih c hQc hpwc
        exact ⟨out, by simp [coalesceFrom, hc, hout], hgr.of_combined heq hle hcmem hrank⟩

/-- **A sorted stream folds into one item per key, the one of greatest rank.** -/
theorem coalesce_max (hf : CombinesMax Q key rank f) {l : List α} (hQ : ∀ x ∈ l, Q x)
    (hl : l.Pairwise (KeyRankLE key rank)) :
    ∃ out, coalesce f l = .ok out ∧ GreatestPerKey key rank l out := by
  cases l with
  | nil => exact ⟨[], rfl, List.Pairwise.nil, by simp, by simp⟩
  | cons x xs => exact coalesceFrom_max hf xs x hQ hl

end Max

/-! ### Dropping what an earlier item of the group absorbs -/

section Prune

variable [LinearOrder κ] {key : α → κ} {group : α → γ} {low : α → Prop}
  {f : α → α → Except ε (Except (α × α) α)} {e : ε}

/-- An item is **absorbed** when a low item of its group comes strictly before it. -/
def Absorbed (key : α → κ) (group : α → γ) (low : α → Prop) (l : List α) (x : α) : Prop :=
  ∃ y ∈ l, key y < key x ∧ group y = group x ∧ low y

/-- The only repeated keys of the stream are those of absorbed items. -/
def Distinct (key : α → κ) (group : α → γ) (low : α → Prop) (l : List α) : Prop :=
  l.Pairwise fun a b => key a = key b → Absorbed key group low l a

/-- `f` fails on neighbours that do not ascend, and otherwise drops the second of two neighbours
of one group when the first is low. -/
structure Prunes (key : α → κ) (group : α → γ) (low : α → Prop) (e : ε)
    (f : α → α → Except ε (Except (α × α) α)) : Prop where
  drop : ∀ a b, key a < key b → group a = group b → low a → f a b = .ok (.ok a)
  keep : ∀ a b, key a < key b → ¬(group a = group b ∧ low a) → f a b = .ok (.error (a, b))
  fail : ∀ a b, ¬key a < key b → f a b = .error e

/-- Items of one group are not separated by an item of another one. -/
def Grouped (key : α → κ) (group : α → γ) : Prop :=
  ∀ a b c, key a ≤ key b → key b ≤ key c → group a = group c → group b = group a

/-- The first item of a sorted stream is not absorbed. -/
theorem not_absorbed_head {x : α} {xs : List α} (h : (x :: xs).Pairwise fun a b => key a ≤ key b) :
    ¬Absorbed key group low (x :: xs) x := by
  rintro ⟨y, hy, hlt, -⟩
  rcases List.mem_cons.1 hy with rfl | hy
  · exact lt_irrefl _ hlt
  · exact absurd hlt (not_lt.2 ((List.pairwise_cons.1 h).1 y hy))

/-- What a dropped item absorbs is absorbed by the item that drops it. -/
theorem absorbed_drop_iff {held x : α} {xs : List α} (hlt : key held < key x)
    (hgroup : group held = group x) (hlow : low held) (z : α) :
    Absorbed key group low (held :: x :: xs) z ↔ Absorbed key group low (held :: xs) z := by
  constructor
  · rintro ⟨y, hy, hyz, hg, hl⟩
    rcases List.mem_cons.1 hy with rfl | hy
    · exact ⟨y, List.mem_cons_self, hyz, hg, hl⟩
    · rcases List.mem_cons.1 hy with rfl | hy
      · exact ⟨held, List.mem_cons_self, lt_trans hlt hyz, hgroup.trans hg, hlow⟩
      · exact ⟨y, List.mem_cons_of_mem _ hy, hyz, hg, hl⟩
  · rintro ⟨y, hy, h⟩
    refine ⟨y, ?_, h⟩
    rcases List.mem_cons.1 hy with rfl | hy
    · exact List.mem_cons_self
    · exact List.mem_cons_of_mem _ (List.mem_cons_of_mem _ hy)

/-- An item that does not drop its neighbour absorbs nothing behind it. -/
theorem absorbed_keep_iff (hgr : Grouped key group) {held x : α} {xs : List α}
    (hle : key held ≤ key x) (hx : ∀ z ∈ xs, key x ≤ key z)
    (hkeep : ¬(group held = group x ∧ low held)) {z : α} (hz : z ∈ x :: xs) :
    Absorbed key group low (held :: x :: xs) z ↔ Absorbed key group low (x :: xs) z := by
  constructor
  · rintro ⟨y, hy, hyz, hg, hl⟩
    rcases List.mem_cons.1 hy with rfl | hy
    · have hxz : key x ≤ key z := by
        rcases List.mem_cons.1 hz with rfl | hz
        · exact le_rfl
        · exact hx z hz
      exact absurd ⟨(hgr y x z hle hxz hg).symm, hl⟩ hkeep
    · exact ⟨y, hy, hyz, hg, hl⟩
  · rintro ⟨y, hy, h⟩
    exact ⟨y, List.mem_cons_of_mem _ hy, h⟩

theorem distinct_drop_iff {held x : α} {xs : List α} (hlt : key held < key x)
    (hgroup : group held = group x) (hlow : low held) :
    Distinct key group low (held :: x :: xs) ↔ Distinct key group low (held :: xs) := by
  have hiff : ∀ z, Absorbed key group low (held :: x :: xs) z ↔
      Absorbed key group low (held :: xs) z := absorbed_drop_iff hlt hgroup hlow
  have habs : Absorbed key group low (held :: xs) x :=
    ⟨held, List.mem_cons_self, hlt, hgroup, hlow⟩
  simp only [Distinct, List.pairwise_cons, hiff]
  constructor
  · rintro ⟨hheld, -, hxs⟩
    exact ⟨fun y hy => hheld y (List.mem_cons_of_mem _ hy), hxs⟩
  · rintro ⟨hheld, hxs⟩
    refine ⟨fun y hy => ?_, fun y _ _ => habs, hxs⟩
    rcases List.mem_cons.1 hy with rfl | hy
    · exact fun h => absurd h (ne_of_lt hlt)
    · exact hheld y hy

theorem distinct_keep_iff (hgr : Grouped key group) {held x : α} {xs : List α}
    (hlt : key held < key x) (hx : ∀ z ∈ xs, key x ≤ key z)
    (hkeep : ¬(group held = group x ∧ low held)) :
    Distinct key group low (held :: x :: xs) ↔ Distinct key group low (x :: xs) := by
  have hiff : ∀ z ∈ x :: xs, Absorbed key group low (held :: x :: xs) z ↔
      Absorbed key group low (x :: xs) z :=
    fun z hz => absorbed_keep_iff hgr hlt.le hx hkeep hz
  rw [Distinct, List.pairwise_cons]
  constructor
  · rintro ⟨-, h⟩
    exact h.imp_of_mem fun ha _ hab heq => (hiff _ ha).1 (hab heq)
  · intro h
    refine ⟨fun y hy heq => ?_, h.imp_of_mem fun ha _ hab heq => (hiff _ ha).2 (hab heq)⟩
    rcases List.mem_cons.1 hy with rfl | hy
    · exact absurd heq (ne_of_lt hlt)
    · exact absurd heq (ne_of_lt (lt_of_lt_of_le hlt (hx y hy)))

open Classical in
theorem coalesceFrom_prune (hf : Prunes key group low e f) (hgr : Grouped key group)
    (xs : List α) :
    ∀ held, (held :: xs).Pairwise (fun a b => key a ≤ key b) →
      (Distinct key group low (held :: xs) →
        coalesceFrom f held xs =
          .ok ((held :: xs).filter fun x => ¬Absorbed key group low (held :: xs) x)) ∧
      (¬Distinct key group low (held :: xs) → coalesceFrom f held xs = .error e) := by
  induction xs with
  | nil =>
      intro held hpw
      refine ⟨fun _ => ?_, fun h => absurd (List.pairwise_singleton _ _) h⟩
      have hhead : ¬Absorbed key group low [held] held := not_absorbed_head hpw
      simp only [coalesceFrom, List.filter_cons, hhead, not_false_eq_true, decide_true, if_true,
        List.filter_nil]
  | cons x xs ih =>
      intro held hpw
      obtain ⟨hheld, hpwx⟩ := List.pairwise_cons.1 hpw
      have hx := (List.pairwise_cons.1 hpwx).1
      by_cases hlt : key held < key x
      · by_cases hdrop : group held = group x ∧ low held
        · -- `x` is dropped, and `held` is held on
          obtain ⟨hgroup, hlow⟩ := hdrop
          have hpw' : (held :: xs).Pairwise fun a b => key a ≤ key b :=
            hpw.sublist (by simp)
          have hstep : coalesceFrom f held (x :: xs) = coalesceFrom f held xs := by
            simp only [coalesceFrom, hf.drop held x hlt hgroup hlow]
          rw [hstep, distinct_drop_iff hlt hgroup hlow]
          refine ⟨fun h => ((ih held hpw').1 h).trans ?_, (ih held hpw').2⟩
          have habs : Absorbed key group low (held :: xs) x :=
            ⟨held, List.mem_cons_self, hlt, hgroup, hlow⟩
          simp only [absorbed_drop_iff hlt hgroup hlow, List.filter_cons, habs, not_true_eq_false,
            decide_false, Bool.false_eq_true, if_false]
        · -- `held` is emitted, and `x` is held
          have hstep : coalesceFrom f held (x :: xs) =
              (coalesceFrom f x xs).map (fun out => held :: out) := by
            simp only [coalesceFrom, hf.keep held x hlt hdrop]
            rfl
          rw [hstep, distinct_keep_iff hgr hlt hx hdrop]
          refine ⟨fun h => ?_, fun h => by rw [(ih x hpwx).2 h]; rfl⟩
          have hhead : ¬Absorbed key group low (held :: x :: xs) held := not_absorbed_head hpw
          have hrest : ∀ z ∈ x :: xs,
              (decide ¬Absorbed key group low (held :: x :: xs) z) =
                decide ¬Absorbed key group low (x :: xs) z := by
            intro z hz
            rw [absorbed_keep_iff hgr hlt.le hx hdrop hz]
          rw [(ih x hpwx).1 h, List.filter_cons (x := held), List.filter_congr hrest]
          simp only [hhead, not_false_eq_true, decide_true, if_true]
          rfl
      · -- a repeated key at the head, which nothing absorbs
        have heq : key held = key x :=
          le_antisymm (hheld x List.mem_cons_self) (not_lt.1 hlt)
        refine ⟨fun h => ?_, fun _ => by simp only [coalesceFrom, hf.fail held x hlt]⟩
        have habs := (List.pairwise_cons.1 h).1 x List.mem_cons_self heq
        exact absurd habs (not_absorbed_head hpw)

open Classical in
/-- **A pruning fold keeps what is not absorbed.** -/
theorem coalesce_prune (hf : Prunes key group low e f) (hgr : Grouped key group) {l : List α}
    (hl : l.Pairwise fun a b => key a ≤ key b) (hd : Distinct key group low l) :
    coalesce f l = .ok (l.filter fun x => ¬Absorbed key group low l x) := by
  cases l with
  | nil => rfl
  | cons x xs => exact (coalesceFrom_prune hf hgr xs x hl).1 hd

/-- **A pruning fold fails on a repeated key that is not absorbed.** -/
theorem coalesce_prune_error (hf : Prunes key group low e f) (hgr : Grouped key group)
    {l : List α} (hl : l.Pairwise fun a b => key a ≤ key b)
    (hd : ¬Distinct key group low l) : coalesce f l = .error e := by
  cases l with
  | nil => exact absurd List.Pairwise.nil hd
  | cons x xs => exact (coalesceFrom_prune hf hgr xs x hl).2 hd

/-- The items a pruning fold keeps have strictly ascending keys. -/
theorem ascending_filter_absorbed {l : List α} (hl : l.Pairwise fun a b => key a ≤ key b)
    (hd : Distinct key group low l) (p : α → Bool)
    (hp : ∀ x, p x → ¬Absorbed key group low l x) :
    (l.filter p).Pairwise fun a b => key a < key b := by
  refine List.pairwise_filter.2 ((List.Pairwise.and hl hd).imp ?_)
  rintro a b ⟨hle, heq⟩ ha -
  exact lt_of_le_of_ne hle fun h => hp a ha (heq h)

end Prune

end Adjacent
