/-
**Versioned records: what a reader bounded by a snapshot sees.**

A store of versioned records is a relation between keys, versions and data.  A reader admits some
of the versions, and sees at each key the newest record it admits, or nothing.  This module states
the two ways a store may change without a reader noticing, and the one way it is meant to notice:

* records may be dropped when a newer record of their key, which every reader in question admits,
  is kept;
* a log of writes whose versions only grow may be replayed on top of a store, after which a reader
  sees the last write it admits, and the store where it admits none.

Keys, versions and data are arbitrary types; versions are linearly ordered.

Main definitions:

* `Versions.IsLatest`, `Versions.Sees` — the newest admitted record, and what a reader sees;
* `Versions.Hidden`, `Versions.PrunedTo`, `Versions.prune` — a record hidden by a newer one, a store
  from which only hidden records are missing, and the one from which all of them are;
* `Versions.overlay`, `Versions.Replay`, `Versions.lastWrite` — one store on top of another, the
  store a log of writes leaves, and the last write a reader admits;
* `Versions.restrict` — the part of a store a reader admits.

Main results:

* `Versions.PrunedTo.sees_iff` — **pruning is invisible** to readers that admit what hides;
* `Versions.PrunedTo.overlay`, `Versions.PrunedTo.trans`, `Versions.prunedTo_prune` — how pruned
  stores arise;
* `Versions.prune_iff`, `Versions.prune_union_prune` — what pruning keeps, and **pruning in parts
  is pruning the whole**;
* `Versions.sees_overlay`, `Versions.sees_replay` — **a replayed log is read through its last
  writes**.
-/

import Mathlib.Data.List.Induction
import Mathlib.Order.Lattice
import Mathlib.Tactic.Common

set_option relaxedAutoImplicit false
set_option autoImplicit false

namespace Versions

variable {κ μ ν : Type}

/-- A store of versioned records. -/
abbrev Records (κ μ ν : Type) : Type := κ → μ → ν → Prop

/-- A key and a version determine the datum. -/
def Functional (S : Records κ μ ν) : Prop := ∀ ⦃k m d d'⦄, S k m d → S k m d' → d = d'

/-- The records of `C`, and those of `A` whose key and version `C` does not write. -/
def overlay (A C : Records κ μ ν) : Records κ μ ν := fun k m d =>
  C k m d ∨ (A k m d ∧ ∀ d', ¬C k m d')

section Readers

variable [LinearOrder μ] {S A B C : Records κ μ ν} {P Q : μ → Prop} {k : κ}

/-- The newest record of a key among those the reader admits. -/
structure IsLatest (S : Records κ μ ν) (P : μ → Prop) (k : κ) (m : μ) (d : ν) : Prop where
  mem : S k m d
  admitted : P m
  newest : ∀ m' d', S k m' d' → P m' → m' ≤ m

/-- **What a reader sees at a key**: the newest record it admits, or nothing. -/
def Sees (S : Records κ μ ν) (P : μ → Prop) (k : κ) : Option (μ × ν) → Prop
  | none => ∀ m d, S k m d → ¬P m
  | some (m, d) => IsLatest S P k m d

@[simp] theorem sees_none : Sees S P k none ↔ ∀ m d, S k m d → ¬P m := Iff.rfl

@[simp] theorem sees_some {m : μ} {d : ν} : Sees S P k (some (m, d)) ↔ IsLatest S P k m d := Iff.rfl

/-- Two stores with the same admitted records of a key have the same newest one there. -/
theorem isLatest_congr {S' : Records κ μ ν} (h : ∀ m d, P m → (S k m d ↔ S' k m d)) {m : μ}
    {d : ν} : IsLatest S P k m d ↔ IsLatest S' P k m d := by
  constructor
  · rintro ⟨hS, hP, hnew⟩
    exact ⟨(h m d hP).1 hS, hP, fun m' d' hS' hP' => hnew m' d' ((h m' d' hP').2 hS') hP'⟩
  · rintro ⟨hS, hP, hnew⟩
    exact ⟨(h m d hP).2 hS, hP, fun m' d' hS' hP' => hnew m' d' ((h m' d' hP').1 hS') hP'⟩

/-- A reader sees one thing at a key. -/
theorem Sees.unique (hS : Functional S) {r r' : Option (μ × ν)} (h : Sees S P k r)
    (h' : Sees S P k r') : r = r' := by
  match r, r' with
  | none, none => rfl
  | none, some (m, d) => exact absurd h'.admitted (h m d h'.mem)
  | some (m, d), none => exact absurd h.admitted (h' m d h.mem)
  | some (m, d), some (m', d') =>
      have hm : m = m' :=
        le_antisymm (h'.newest m d h.mem h.admitted) (h.newest m' d' h'.mem h'.admitted)
      subst hm
      rw [hS h.mem h'.mem]

/-- Two readers that admit the same records of a key see the same there. -/
theorem Sees.congr (hPQ : ∀ m d, S k m d → (P m ↔ Q m)) {r : Option (μ × ν)}
    (h : Sees S P k r) : Sees S Q k r := by
  match r with
  | none => exact fun m d hm hQ => h m d hm ((hPQ m d hm).2 hQ)
  | some (m, d) =>
      exact ⟨h.mem, (hPQ m d h.mem).1 h.admitted,
        fun m' d' hm' hQ => h.newest m' d' hm' ((hPQ m' d' hm').2 hQ)⟩

/-- A reader sees the same at a key where two stores have the same records. -/
theorem Sees.congr_store {S' : Records κ μ ν} (h : ∀ m d, S k m d ↔ S' k m d)
    {r : Option (μ × ν)} (hr : Sees S P k r) : Sees S' P k r := by
  match r with
  | none => exact fun m d hm => hr m d ((h m d).2 hm)
  | some (m, d) => exact (isLatest_congr fun m d _ => h m d).1 hr

/-! ### Pruning -/

/-- A record is **hidden** when a newer record of its key is admitted. -/
def Hidden (P : μ → Prop) (S : Records κ μ ν) (k : κ) (m : μ) : Prop :=
  ∃ m' d', S k m' d' ∧ m < m' ∧ P m'

/-- **Only hidden records are missing**: `A` is part of `B`, and what is missing is hidden by what
is kept. -/
structure PrunedTo (P : μ → Prop) (A B : Records κ μ ν) : Prop where
  sub : ∀ {k m d}, A k m d → B k m d
  kept : ∀ {k m d}, B k m d → A k m d ∨ Hidden P A k m

theorem PrunedTo.refl (P : μ → Prop) (A : Records κ μ ν) : PrunedTo P A A := ⟨id, Or.inl⟩

theorem PrunedTo.mono (hPQ : ∀ m, P m → Q m) (h : PrunedTo P A B) : PrunedTo Q A B := by
  refine ⟨h.sub, fun hB => ?_⟩
  rcases h.kept hB with hA | ⟨m', d', hA, hlt, hP⟩
  · exact Or.inl hA
  · exact Or.inr ⟨m', d', hA, hlt, hPQ m' hP⟩

/-- Pruning a pruned store prunes the original. -/
theorem PrunedTo.trans (hAB : PrunedTo P A B) (hBC : PrunedTo P B C) : PrunedTo P A C := by
  refine ⟨fun hA => hBC.sub (hAB.sub hA), fun hC => ?_⟩
  rcases hBC.kept hC with hB | ⟨m', d', hB, hlt, hP⟩
  · exact hAB.kept hB
  · -- the hiding record is kept, or hidden by a still newer one
    rcases hAB.kept hB with hA | ⟨m'', d'', hA, hlt', hP'⟩
    · exact Or.inr ⟨m', d', hA, hlt, hP⟩
    · exact Or.inr ⟨m'', d'', hA, lt_trans hlt hlt', hP'⟩

theorem PrunedTo.isLatest_iff (h : PrunedTo P A B) (hPQ : ∀ m, P m → Q m) {m : μ} {d : ν} :
    IsLatest A Q k m d ↔ IsLatest B Q k m d := by
  constructor
  · rintro ⟨hA, hQ, hnew⟩
    refine ⟨h.sub hA, hQ, fun m' d' hB hQ' => ?_⟩
    rcases h.kept hB with hA' | ⟨m'', d'', hA', hlt, hP⟩
    · exact hnew m' d' hA' hQ'
    · exact le_trans hlt.le (hnew m'' d'' hA' (hPQ m'' hP))
  · rintro ⟨hB, hQ, hnew⟩
    rcases h.kept hB with hA | ⟨m', d', hA, hlt, hP⟩
    · exact ⟨hA, hQ, fun m' d' hA' hQ' => hnew m' d' (h.sub hA') hQ'⟩
    · exact absurd (hnew m' d' (h.sub hA) (hPQ m' hP)) (not_le.2 hlt)

/-- **Pruning is invisible** to a reader that admits every version that hides. -/
theorem PrunedTo.sees_iff (h : PrunedTo P A B) (hPQ : ∀ m, P m → Q m) {r : Option (μ × ν)} :
    Sees A Q k r ↔ Sees B Q k r := by
  match r with
  | some (m, d) => exact h.isLatest_iff hPQ
  | none =>
      refine ⟨fun hA m d hB hQ => ?_, fun hB m d hA => hB m d (h.sub hA)⟩
      rcases h.kept hB with hA' | ⟨m', d', hA', -, hP⟩
      · exact hA m d hA' hQ
      · exact hA m' d' hA' (hPQ m' hP)

/-- The store less its hidden records. -/
def prune (P : μ → Prop) (S : Records κ μ ν) : Records κ μ ν := fun k m d =>
  S k m d ∧ ¬Hidden P S k m

/-- Every admitted record of a store has a newest one of its key. -/
def HasLatest (P : μ → Prop) (S : Records κ μ ν) : Prop :=
  ∀ k m d, S k m d → P m → ∃ m' d', IsLatest S P k m' d'

/-- Dropping exactly the hidden records prunes, when admitted records have a newest one. -/
theorem prunedTo_prune (hS : HasLatest P S) : PrunedTo P (prune P S) S := by
  refine ⟨And.left, fun {k m d} hmem => ?_⟩
  by_cases hhid : Hidden P S k m
  · obtain ⟨m', d', hmem', hlt, hP⟩ := hhid
    obtain ⟨n, e, hn⟩ := hS k m' d' hmem' hP
    refine Or.inr ⟨n, e, ⟨hn.mem, ?_⟩, lt_of_lt_of_le hlt (hn.newest m' d' hmem' hP), hn.admitted⟩
    rintro ⟨n', e', hn', hlt', hP'⟩
    exact absurd (hn.newest n' e' hn' hP') (not_le.2 hlt')
  · exact Or.inl ⟨hmem, hhid⟩

/-- The records of either store. -/
def union (S T : Records κ μ ν) : Records κ μ ν := fun k m d => S k m d ∨ T k m d

omit [LinearOrder μ] in
theorem union_comm (S T : Records κ μ ν) : union S T = union T S := by
  funext k m d
  exact propext or_comm

omit [LinearOrder μ] in
theorem union_assoc (S T U : Records κ μ ν) : union (union S T) U = union S (union T U) := by
  funext k m d
  exact propext or_assoc

theorem HasLatest.exists_sees (hS : HasLatest P S) (k : κ) : ∃ r, Sees S P k r := by
  by_cases h : ∃ m d, S k m d ∧ P m
  · obtain ⟨m, d, hmem, hP⟩ := h
    obtain ⟨m', d', hlatest⟩ := hS k m d hmem hP
    exact ⟨some (m', d'), hlatest⟩
  · exact ⟨none, fun m d hmem hP => h ⟨m, d, hmem, hP⟩⟩

theorem hasLatest_of_sees (h : ∀ k, ∃ r, Sees S P k r) : HasLatest P S := by
  intro k m d hmem hP
  obtain ⟨r, hr⟩ := h k
  match r with
  | none => exact absurd hP (hr m d hmem)
  | some (m', d') => exact ⟨m', d', hr⟩

/-- The newest record of two stores is the newer one of theirs. -/
theorem HasLatest.union {T : Records κ μ ν} (hS : HasLatest P S) (hT : HasLatest P T) :
    HasLatest P (union S T) := by
  refine hasLatest_of_sees fun k => ?_
  obtain ⟨r, hr⟩ := hS.exists_sees k
  obtain ⟨r', hr'⟩ := hT.exists_sees k
  match r, r' with
  | none, none => exact ⟨none, fun m d h => h.elim (hr m d) (hr' m d)⟩
  | some (a, da), none =>
      refine ⟨some (a, da), Or.inl hr.mem, hr.admitted, ?_⟩
      rintro m d (h | h) hP
      · exact hr.newest m d h hP
      · exact absurd hP (hr' m d h)
  | none, some (b, db) =>
      refine ⟨some (b, db), Or.inr hr'.mem, hr'.admitted, ?_⟩
      rintro m d (h | h) hP
      · exact absurd hP (hr m d h)
      · exact hr'.newest m d h hP
  | some (a, da), some (b, db) =>
      rcases le_total a b with hab | hba
      · refine ⟨some (b, db), Or.inr hr'.mem, hr'.admitted, ?_⟩
        rintro m d (h | h) hP
        · exact le_trans (hr.newest m d h hP) hab
        · exact hr'.newest m d h hP
      · refine ⟨some (a, da), Or.inl hr.mem, hr.admitted, ?_⟩
        rintro m d (h | h) hP
        · exact hr.newest m d h hP
        · exact le_trans (hr'.newest m d h hP) hba

/-- **What is kept**: the records that are not admitted, and the newest one of those that are.
Admission goes down: below an admitted version every version is admitted. -/
theorem prune_iff (hdown : ∀ m m', P m' → m ≤ m' → P m) {m : μ} {d : ν} :
    prune P S k m d ↔ S k m d ∧ (P m → ∀ m' d', S k m' d' → P m' → m' ≤ m) := by
  refine and_congr_right fun _ => ⟨fun h _ m' d' hS hP => ?_, fun h => ?_⟩
  · by_contra hle
    exact h ⟨m', d', hS, not_le.1 hle, hP⟩
  · rintro ⟨m', d', hS, hlt, hP⟩
    exact absurd (h (hdown m m' hP hlt.le) m' d' hS hP) (not_le.2 hlt)

/-- **Pruning part of a store first makes no difference**, when what hides then hides later. -/
theorem prune_union_prune (hPQ : ∀ m, P m → Q m) (hS : HasLatest P S) (T : Records κ μ ν) :
    prune Q (union (prune P S) T) = prune Q (union S T) := by
  -- a record hidden in the whole is hidden by one that is kept
  have hkept : ∀ k m, Hidden Q (union S T) k m → Hidden Q (union (prune P S) T) k m := by
    rintro k m ⟨m', d', hmem | hmem, hlt, hQ⟩
    · rcases (prunedTo_prune hS).kept hmem with hmem | ⟨n, e, hn, hlt', hP⟩
      · exact ⟨m', d', Or.inl hmem, hlt, hQ⟩
      · exact ⟨n, e, Or.inl hn, lt_trans hlt hlt', hPQ n hP⟩
    · exact ⟨m', d', Or.inr hmem, hlt, hQ⟩
  funext k m d
  refine propext ⟨?_, ?_⟩
  · rintro ⟨hmem, hhid⟩
    exact ⟨hmem.imp_left And.left, fun h => hhid (hkept k m h)⟩
  · rintro ⟨hmem, hhid⟩
    refine ⟨hmem.imp_left fun h => ⟨h, ?_⟩, ?_⟩
    · rintro ⟨m', d', hS', hlt, hP⟩
      exact hhid ⟨m', d', Or.inl hS', hlt, hPQ m' hP⟩
    · rintro ⟨m', d', hmem', hlt, hQ⟩
      exact hhid ⟨m', d', hmem'.imp_left And.left, hlt, hQ⟩

/-! ### One store on top of another -/

/-- Pruning survives the same writes on both sides. -/
theorem PrunedTo.overlay (h : PrunedTo P A B) (C : Records κ μ ν) :
    PrunedTo P (overlay A C) (overlay B C) := by
  constructor
  · rintro k m d (hC | ⟨hA, hn⟩)
    · exact Or.inl hC
    · exact Or.inr ⟨h.sub hA, hn⟩
  · rintro k m d (hC | ⟨hB, hn⟩)
    · exact Or.inl (Or.inl hC)
    · rcases h.kept hB with hA | ⟨m', d', hA, hlt, hP⟩
      · exact Or.inl (Or.inr ⟨hA, hn⟩)
      · -- the hiding record stays, or its place is written anew
        by_cases hC : ∃ d'', C k m' d''
        · obtain ⟨d'', hC⟩ := hC
          exact Or.inr ⟨m', d'', Or.inl hC, hlt, hP⟩
        · exact Or.inr ⟨m', d', Or.inr ⟨hA, fun d'' hd => hC ⟨d'', hd⟩⟩, hlt, hP⟩

/-! ### The part a reader admits -/

/-- **The records a reader admits.** -/
def restrict (P : μ → Prop) (S : Records κ μ ν) : Records κ μ ν := fun k m d => S k m d ∧ P m

omit [LinearOrder μ] in
/-- Writes the reader does not admit are not in its part. -/
theorem restrict_overlay {C : Records κ μ ν} (hC : ∀ k m d, C k m d → ¬P m) :
    restrict P (overlay A C) = restrict P A := by
  funext k m d
  refine propext ⟨?_, fun ⟨hA, hP⟩ => ⟨Or.inr ⟨hA, fun d' hd => hC k m d' hd hP⟩, hP⟩⟩
  rintro ⟨hd | ⟨hA, -⟩, hP⟩
  · exact absurd hP (hC k m d hd)
  · exact ⟨hA, hP⟩

/-- Pruning prunes the part of a reader that admits every version that hides. -/
theorem PrunedTo.restrict (h : PrunedTo P A B) (hPQ : ∀ m, P m → Q m) :
    PrunedTo P (restrict Q A) (restrict Q B) := by
  refine ⟨fun hA => ⟨h.sub hA.1, hA.2⟩, fun hB => ?_⟩
  rcases h.kept hB.1 with hA | ⟨m', d', hA, hlt, hP⟩
  · exact Or.inl ⟨hA, hB.2⟩
  · exact Or.inr ⟨m', d', ⟨hA, hPQ m' hP⟩, hlt, hP⟩

/-- **A reader sees its part.** -/
theorem sees_restrict {r : Option (μ × ν)} : Sees (restrict P S) P k r ↔ Sees S P k r := by
  match r with
  | some (m, d) => exact isLatest_congr fun m d hP => and_iff_left hP
  | none => exact forall₂_congr fun m d => ⟨fun h hS hP => h ⟨hS, hP⟩ hP, fun h hS => h hS.1⟩

/-- **A store on top is read first**, when its newest admitted record is at least as new as those
below. -/
theorem sees_overlay {a c : Option (μ × ν)} (hC : Sees C P k c) (hA : Sees A P k a)
    (hdom : ∀ m d, c = some (m, d) → ∀ m' d', A k m' d' → P m' → m' ≤ m) :
    Sees (overlay A C) P k (c.or a) := by
  match c with
  | some (m, d) =>
      refine ⟨Or.inl hC.mem, hC.admitted, ?_⟩
      rintro m' d' (h | ⟨h, -⟩) hP
      · exact hC.newest m' d' h hP
      · exact hdom m d rfl m' d' h hP
  | none =>
      match a with
      | some (m, d) =>
          refine ⟨Or.inr ⟨hA.mem, fun d' h => hC m d' h hA.admitted⟩, hA.admitted, ?_⟩
          rintro m' d' (h | ⟨h, -⟩) hP
          · exact absurd hP (hC m' d' h)
          · exact hA.newest m' d' h hP
      | none =>
          rintro m d (h | ⟨h, -⟩)
          · exact hC m d h
          · exact hA m d h

end Readers

/-! ### Logs of writes -/

/-- The last item of a list that satisfies `p`. -/
def lastThat {α : Type} (p : α → Prop) [DecidablePred p] (l : List α) : Option α :=
  (l.filter fun x => p x).getLast?

section LastThat

variable {α : Type} {p q : α → Prop} [DecidablePred p] [DecidablePred q] {l : List α}

@[simp] theorem lastThat_nil : lastThat p [] = none := rfl

theorem lastThat_concat (l : List α) (x : α) :
    lastThat p (l ++ [x]) = if p x then some x else lastThat p l := by
  by_cases h : p x <;> simp [lastThat, List.filter_append, h]

theorem lastThat_eq_none : lastThat p l = none ↔ ∀ x ∈ l, ¬p x := by
  simp [lastThat]

theorem lastThat_mem {x : α} (h : lastThat p l = some x) : x ∈ l ∧ p x := by
  have hx := List.mem_of_getLast? h
  simpa using List.mem_filter.1 hx

/-- Looking for less finds the same item, if that is still it. -/
theorem lastThat_of_imp {x : α} (h : lastThat p l = some x) (hqp : ∀ y, q y → p y) (hx : q x) :
    lastThat q l = some x := by
  induction l using List.reverseRecOn with
  | nil => simp at h
  | append_singleton l y ih =>
      rw [lastThat_concat] at h ⊢
      by_cases hy : p y
      · rw [if_pos hy] at h
        obtain rfl := Option.some_inj.1 h
        rw [if_pos hx]
      · rw [if_neg hy] at h
        rw [if_neg fun hq => hy (hqp y hq)]
        exact ih h

theorem lastThat_congr (h : ∀ x ∈ l, p x ↔ q x) : lastThat p l = lastThat q l := by
  rw [lastThat, lastThat, List.filter_congr fun x hx => decide_eq_decide.2 (h x hx)]

/-- Along a list whose items grow, the last item that satisfies `p` is above the others. -/
theorem le_lastThat {R : α → α → Prop} (hR : ∀ x, R x x) (hl : l.Pairwise R) {x : α}
    (h : lastThat p l = some x) : ∀ y ∈ l, p y → R y x := by
  induction l using List.reverseRecOn with
  | nil => simp at h
  | append_singleton l z ih =>
      obtain ⟨hl', -, hz⟩ := List.pairwise_append.1 hl
      rw [lastThat_concat] at h
      intro y hy hpy
      by_cases hpz : p z
      · rw [if_pos hpz] at h
        obtain rfl := Option.some_inj.1 h
        rcases List.mem_append.1 hy with hy | hy
        · exact hz y hy z (List.mem_singleton.2 rfl)
        · rw [List.mem_singleton.1 hy]
          exact hR z
      · rw [if_neg hpz] at h
        rcases List.mem_append.1 hy with hy | hy
        · exact ih hl' h y hy hpy
        · exact absurd (List.mem_singleton.1 hy ▸ hpy) hpz

end LastThat

section Log

variable [DecidableEq κ] {P : μ → Prop} [DecidablePred P]

/-- **The last write a reader admits** at a key. -/
def lastWrite (P : μ → Prop) [DecidablePred P] (log : List (κ × μ × ν)) (k : κ) :
    Option (μ × ν) :=
  (lastThat (fun e => e.1 = k ∧ P e.2.1) log).map Prod.snd

theorem lastWrite_eq_none {log : List (κ × μ × ν)} {k : κ} :
    lastWrite P log k = none ↔ ∀ e ∈ log, e.1 = k → ¬P e.2.1 := by
  simp [lastWrite, lastThat_eq_none]

theorem lastWrite_eq_some {log : List (κ × μ × ν)} {k : κ} {m : μ} {d : ν} :
    lastWrite P log k = some (m, d) ↔
      lastThat (fun e => e.1 = k ∧ P e.2.1) log = some (k, m, d) := by
  rw [lastWrite, Option.map_eq_some_iff]
  constructor
  · rintro ⟨⟨k', m', d'⟩, he, heq⟩
    obtain rfl : k' = k := (lastThat_mem he).2.1
    cases heq
    exact he
  · intro h
    exact ⟨_, h, rfl⟩

@[simp] theorem lastWrite_nil (k : κ) : lastWrite P ([] : List (κ × μ × ν)) k = none := rfl

theorem lastWrite_concat (log : List (κ × μ × ν)) (e : κ × μ × ν) (k : κ) :
    lastWrite P (log ++ [e]) k = if e.1 = k ∧ P e.2.1 then some e.2 else lastWrite P log k := by
  rw [lastWrite, lastThat_concat]
  split_ifs <;> rfl

end Log

section Replay

variable [DecidableEq κ] [LinearOrder μ] {P : μ → Prop} [DecidablePred P]

/-- **The store a log of writes leaves**: the last datum written at each key and version. -/
def Replay (log : List (κ × μ × ν)) : Records κ μ ν := fun k m d =>
  lastThat (fun e => e.1 = k ∧ e.2.1 = m) log = some (k, m, d)

theorem Replay.mem {log : List (κ × μ × ν)} {k : κ} {m : μ} {d : ν} (h : Replay log k m d) :
    (k, m, d) ∈ log := (lastThat_mem h).1

/-- The versions written at one key only grow. -/
def Growing (log : List (κ × μ × ν)) : Prop :=
  log.Pairwise fun e e' => e.1 = e'.1 → e.2.1 ≤ e'.2.1

/-- **A growing log is read through its last writes.** -/
theorem sees_replay {log : List (κ × μ × ν)} (hlog : Growing log) (k : κ) :
    Sees (Replay log) P k (lastWrite P log k) := by
  cases h : lastWrite P log k with
  | none => exact fun m d hm hP => lastWrite_eq_none.1 h _ hm.mem rfl hP
  | some r =>
      obtain ⟨m, d⟩ := r
      have hlast := lastWrite_eq_some.1 h
      obtain ⟨-, -, hP⟩ := lastThat_mem hlast
      refine ⟨?_, hP, fun m' d' hm' hP' => ?_⟩
      · refine lastThat_of_imp hlast ?_ ⟨rfl, rfl⟩
        rintro e ⟨he, rfl⟩
        exact ⟨he, hP⟩
      · have := le_lastThat (fun x _ => le_refl x.2.1) hlog hlast _ hm'.mem ⟨rfl, hP'⟩
        exact this rfl

end Replay

end Versions
