/-
**Splitting a map into levels is unobservable.**

Writes go to the newest level; at any point it may be frozen, and writing goes on in a new level
that keeps counting where the frozen one stopped.  The same writes on a level that is never frozen
leave the same map: a point read over all levels and a range read over all levels answer as that
single level does.

The invariant is that the single level holds, of each key, the first record from the newest level
on, and that levels are ordered by age.  A write keeps the order because everything written before
is at or below the tombstone of the counter, and a record that is stored is at or above it; the one
that is equal to it is a tombstone itself.

Main definitions:

* `MapApi.LevelOp`, `MapApi.LevelStack.run` — writes and freezes, and a sequence of them;
* `MapApi.Level.run`, `MapApi.Level.written` — a sequence of writes on a single level, and the
  records it stores;
* `MapApi.LevelStack.Splits` — the invariant.

Main results:

* `MapApi.Level.run_map`, `MapApi.Level.run_error` — a single level holds the last write of each
  key, and fails only at the last sequence number;
* `MapApi.LevelStack.Splits.set`, `MapApi.LevelStack.Splits.freeze` — one step keeps it;
* `MapApi.LevelStack.run_splits` — a run keeps it;
* `MapApi.LevelStack.splitting_unobservable` — **reads over the levels are reads of the single
  level**.
-/

import MapApi.Level
import MapApi.Machine

set_option relaxedAutoImplicit false
set_option autoImplicit false

namespace MapApi

variable {K V : Type} [LinearOrder K]

/-! ### Runs -/

/-- What `set` replies: the record before, and the record after. -/
abbrev BeforeAfter (V : Type) : Type := SeqMarked V × SeqMarked V

/-- **A sequence of writes on a single level.** -/
def Level.run (l : Level K V) :
    List (K × Option V) → Except Fault (List (BeforeAfter V) × Level K V)
  | [] => .ok ([], l)
  | (key, value) :: calls => do
      let (reply, l) ← l.set key value
      let (replies, l) ← l.run calls
      return (reply :: replies, l)

theorem Level.run_cons (l : Level K V) (key : K) (value : Option V) (calls : List (K × Option V)) :
    l.run ((key, value) :: calls) =
      match l.marked? value with
      | none => .error .overflow
      | some x =>
          ((l.store key x).run calls).map fun p => ((l.get key, x) :: p.1, p.2) := by
  rw [run, set_eq]
  cases l.marked? value with
  | none => rfl
  | some x =>
      simp only [orFault_some, Except.map, ok_bind]
      cases (l.store key x).run calls <;> rfl

/-- The records a sequence of writes has stored, read off its replies. -/
def Level.written (calls : List (K × Option V)) (replies : List (BeforeAfter V)) :
    List (K × SeqMarked V) :=
  (calls.zip replies).map fun p => (p.1.1, p.2.2)

/-- **What a sequence of writes leaves on a level**: the records it has stored, one over the other,
each with the value written. -/
theorem Level.run_map {calls : List (K × Option V)} : ∀ {l l' : Level K V}
    {replies : List (BeforeAfter V)}, l.run calls = .ok (replies, l') →
    l'.map = l.map.extend (written calls replies) ∧
      (replies.map fun p => p.2.intoData) = calls.map Prod.snd := by
  induction calls with
  | nil =>
      intro l l' replies h
      cases h
      exact ⟨rfl, rfl⟩
  | cons c calls ih =>
      intro l l' replies h
      obtain ⟨key, value⟩ := c
      rw [run_cons] at h
      cases hx : l.marked? value with
      | none => rw [hx] at h; cases h
      | some x =>
          simp only [hx] at h
          cases hrest : (l.store key x).run calls with
          | error f => rw [hrest] at h; cases h
          | ok p =>
              rw [hrest] at h
              cases h
              obtain ⟨hmap, hvalues⟩ := ih hrest
              refine ⟨hmap, ?_⟩
              rw [List.map_cons, hvalues, intoData_of_marked? hx]
              rfl

/-- A sequence of writes is a run of the machine that makes one. -/
theorem Level.run_eq_machine (calls : List (K × Option V)) : ∀ l : Level K V,
    l.run calls = Machine.run (fun l c => l.set c.1 c.2) l calls := by
  induction calls with
  | nil =>
      intro l
      rfl
  | cons c calls ih =>
      intro l
      obtain ⟨key, value⟩ := c
      rw [run, Machine.run]
      cases l.set key value with
      | error f => rfl
      | ok p =>
          simp only [ok_bind, ih]
          cases Machine.run (fun l c => l.set c.1 c.2) p.2 calls <;> rfl

/-- **Where a sequence of writes fails**: at a value, with the counter at the last sequence
number. -/
theorem Level.run_error {l : Level K V} {calls : List (K × Option V)} {f : Fault}
    (h : l.run calls = .error f) :
    f = .overflow ∧ ∃ before key v after replies l', calls = before ++ (key, some v) :: after ∧
      l.run before = .ok (replies, l') ∧ l'.seq = U64.max := by
  rw [run_eq_machine] at h
  obtain ⟨before, ⟨key, value⟩, after, replies, l', rfl, hbefore, hset⟩ := Machine.run_eq_error.1 h
  rw [set_eq] at hset
  cases hx : l'.marked? value with
  | some x => rw [hx] at hset; cases hset
  | none =>
      rw [hx] at hset
      cases hset
      obtain ⟨⟨v, rfl⟩, hmax⟩ := eq_max_of_marked? hx
      exact ⟨rfl, before, key, v, after, replies, l', rfl,
        (run_eq_machine before l).trans hbefore, hmax⟩

/-- A write to the newest level, or a freeze of it. -/
inductive LevelOp (K V : Type) where
  | set (key : K) (value : Option V)
  | freeze
  deriving DecidableEq, Repr

/-- The write of an operation. -/
def LevelOp.write? : LevelOp K V → Option (K × Option V)
  | .set key value => some (key, value)
  | .freeze => none

/-- **Levels**: the one that is written, and the frozen ones from the newest on. -/
structure LevelStack (K V : Type) [LinearOrder K] where
  top : Level K V
  frozen : List (Level K V)
  deriving DecidableEq

namespace LevelStack

/-- All levels, from the newest on. -/
def levels (s : LevelStack K V) : List (Level K V) := s.top :: s.frozen

/-- One level without records. -/
def default : LevelStack K V := ⟨.default, []⟩

/-- Freeze the current level and go on in its `new_level()`. -/
def freeze (s : LevelStack K V) : LevelStack K V := ⟨s.top.newLevel, s.top :: s.frozen⟩

/-- **A sequence of writes and freezes.** -/
def run (s : LevelStack K V) :
    List (LevelOp K V) → Except Fault (List (BeforeAfter V) × LevelStack K V)
  | [] => .ok ([], s)
  | .set key value :: ops => do
      let (reply, top) ← s.top.set key value
      let (replies, s) ← run { s with top } ops
      return (reply :: replies, s)
  | .freeze :: ops => s.freeze.run ops

theorem run_set (s : LevelStack K V) (key : K) (value : Option V) (ops : List (LevelOp K V)) :
    s.run (.set key value :: ops) =
      match s.top.marked? value with
      | none => .error .overflow
      | some x =>
          (run { s with top := s.top.store key x } ops).map fun p =>
            ((s.top.get key, x) :: p.1, p.2) := by
  rw [run, Level.set_eq]
  cases s.top.marked? value with
  | none => rfl
  | some x =>
      simp only [orFault_some, Except.map, ok_bind]
      cases run { s with top := s.top.store key x } ops <;> rfl

/-! ### The invariant -/

/-- **The levels split the map that the single level holds.** -/
structure Splits (single : Level K V) (s : LevelStack K V) : Prop where
  /-- The counter is carried across levels. -/
  seq_eq : s.top.seq = single.seq
  shown_eq : single.shown = Shown.first (s.levels.map Level.shown)
  newer : (s.levels.map Level.shown).Pairwise Shown.Newer
  positive : ∀ l ∈ s.levels, l.shown.Positive
  /-- Nothing is above the counter. -/
  bound : ∀ l ∈ s.levels, ∀ k x, l.shown k = some x → x.seq ≤ s.top.seq

theorem splits_default : Splits (Level.default : Level K V) default := by
  have hempty : ∀ l ∈ (default : LevelStack K V).levels, ∀ k x, l.shown k ≠ some x := by
    intro l hl k x h
    obtain rfl := List.mem_singleton.1 hl
    cases h
  exact ⟨rfl, rfl, List.pairwise_singleton _ _,
    fun l hl k x hx => absurd hx (hempty l hl k x), fun l hl k x hx => absurd hx (hempty l hl k x)⟩

namespace Splits

variable {single : Level K V} {s : LevelStack K V}

/-- A freeze puts an empty level in front. -/
theorem freeze (h : Splits single s) : Splits single s.freeze := by
  have hmem : ∀ l ∈ s.freeze.levels, ∀ k x, l.shown k = some x → l ∈ s.levels := by
    intro l hl k x hx
    rcases List.mem_cons.1 hl with rfl | hl
    · cases hx
    · exact hl
  have hlevels : s.freeze.levels.map Level.shown =
      s.top.newLevel.shown :: s.levels.map Level.shown := rfl
  refine ⟨h.seq_eq, ?_, ?_, fun l hl k x hx => ?_, fun l hl k x hx => ?_⟩
  · funext k
    rw [hlevels, Shown.first_cons, h.shown_eq]
    rfl
  · rw [hlevels]
    exact List.pairwise_cons.2 ⟨nofun, h.newer⟩
  · exact h.positive l (hmem l hl k x hx) k x hx
  · exact h.bound l (hmem l hl k x hx) k x hx

/-- Everything written so far is below a record that is stored, or the same tombstone. -/
theorem below_marked? (h : Splits single s) {value : Option V} {x : SeqMarked V}
    (hx : s.top.marked? value = some x) {l : Level K V} (hl : l ∈ s.levels) {k : K}
    {y : SeqMarked V} (hy : l.shown k = some y) :
    y.orderKey < x.orderKey ∨ (y.orderKey = x.orderKey ∧ x.isTombstone = true) := by
  have habove := Level.newTombstone_le_of_marked? hx
  have hbelow : y.orderKey ≤ SeqMarked.newTombstone s.top.seq := by
    rw [Marker.le_newTombstone_iff, SeqMarked.seq_orderKey]
    exact h.bound l hl k y hy
  rcases lt_or_eq_of_le (hbelow.trans habove) with hlt | heq
  · exact Or.inl hlt
  · -- both are the tombstone of the counter
    refine Or.inr ⟨heq, ?_⟩
    rw [← SeqMarked.isTombstone_orderKey, le_antisymm (heq ▸ hbelow) habove]
    rfl

/-- **A write keeps the levels in order.** -/
theorem set (h : Splits single s) (key : K) {value : Option V} {x : SeqMarked V}
    (hx : s.top.marked? value = some x) :
    Splits (single.store key x) { s with top := s.top.store key x } := by
  have hseq : s.top.seq ≤ x.seq := by
    have hle := Marker.seq_le_of_le (Level.newTombstone_le_of_marked? hx)
    rwa [SeqMarked.seq_orderKey] at hle
  -- a record of the new levels is the stored one, or was there before
  have hold : ∀ l ∈ s.top.store key x :: s.frozen, ∀ k y, l.shown k = some y →
      y = x ∨ ∃ l' ∈ s.levels, l'.shown k = some y := by
    intro l hl k y hy
    rcases List.mem_cons.1 hl with rfl | hl
    · rw [Level.shown_store] at hy
      split_ifs at hy
      · exact Or.inl (Option.some_inj.1 hy).symm
      · exact Or.inr ⟨s.top, List.mem_cons_self, hy⟩
    · exact Or.inr ⟨l, List.mem_cons_of_mem _ hl, hy⟩
  have hnewer : (s.top.shown :: s.frozen.map Level.shown).Pairwise Shown.Newer := h.newer
  obtain ⟨htop, hfrozen⟩ := List.pairwise_cons.1 hnewer
  refine ⟨rfl, ?_, ?_, fun l hl k y hy ht => ?_, fun l hl k y hy => ?_⟩
  · funext k
    rw [levels, List.map_cons, Shown.first_cons, Level.shown_store, Level.shown_store, h.shown_eq,
      levels, List.map_cons, Shown.first_cons]
    split_ifs <;> rfl
  · refine List.pairwise_cons.2 ⟨fun m hm k y z hy hz => ?_, hfrozen⟩
    rw [Level.shown_store] at hy
    split_ifs at hy
    · obtain rfl := Option.some_inj.1 hy
      obtain ⟨l, hl, rfl⟩ := List.mem_map.1 hm
      exact h.below_marked? hx (List.mem_cons_of_mem _ hl) hz
    · exact htop m hm k y z hy hz
  · rcases hold l hl k y hy with rfl | ⟨l', hl', hy⟩
    · exact Fin.pos_iff_ne_zero.1 (lt_of_le_of_lt (Fin.zero_le _) (Level.lt_seq_of_marked? hx ht))
    · exact h.positive l' hl' k y hy ht
  · rcases hold l hl k y hy with rfl | ⟨l', hl', hy⟩
    · exact le_rfl
    · exact (h.bound l' hl' k y hy).trans hseq

/-- **Both sides store the same record**, or fail alike. -/
theorem marked?_eq (h : Splits single s) (value : Option V) :
    s.top.marked? value = single.marked? value := by
  cases value <;> simp only [Level.marked?, h.seq_eq]

/-! ### Reads -/

/-- **Reads over the levels answer as the single level's map**, however the levels are passed on. -/
theorem readsAs (h : Splits single s) (P : KMerge.Picker Fault (KVResult K V))
    {top : Option (Level K V)} {levels persisted : List (Level K V)}
    (hsplit : top.toList ++ levels ++ persisted = s.levels) :
    ReadsAs (fun k => compactedGet k (top.toList ++ levels) persisted)
      (fun r => compactedRange P r top levels persisted) single.shown := by
  have hmaps : (top.toList ++ levels).map Level.shown ++ persisted.map Level.shown =
      s.levels.map Level.shown := by
    rw [← List.map_append, hsplit]
  have hpos : ∀ m ∈ s.levels.map Level.shown, m.Positive := by
    intro m hm
    obtain ⟨l, hl, rfl⟩ := List.mem_map.1 hm
    exact h.positive l hl
  have hreads := readsAs_levels P (Level.shows_each (top.toList ++ levels))
    (Level.shows_each persisted) (hmaps ▸ h.newer) (hmaps ▸ hpos)
  rwa [hmaps, ← h.shown_eq] at hreads

/-- **A point read over the levels is the single level's**, however they are passed on. -/
theorem compactedGet_eq (h : Splits single s) {levels persisted : List (Level K V)}
    (hsplit : levels ++ persisted = s.levels) (k : K) :
    compactedGet k levels persisted = .ok (single.get k) := by
  have htop : (none : Option (Level K V)).toList ++ levels ++ persisted = s.levels := hsplit
  exact (h.readsAs .leftmost htop).get_eq k

/-- **A range read over the levels is the single level's**, however they are passed on. -/
theorem compactedRange_eq (h : Splits single s) (P : KMerge.Picker Fault (KVResult K V))
    {r : RangeBounds K} (hr : ¬r.Inverted) {top : Option (Level K V)}
    {levels persisted : List (Level K V)} (hsplit : top.toList ++ levels ++ persisted = s.levels) :
    compactedRange P r top levels persisted = single.range r := by
  obtain ⟨out, hout, hlist⟩ := (h.readsAs P hsplit).range_eq r hr
  obtain ⟨out', hout', hlist'⟩ := single.shows.range_eq r hr
  exact hout.trans ((hlist.unique hlist') ▸ hout').symm

end Splits

/-! ### Whole runs -/

/-- **A run keeps the invariant**, and fails where the writes on the single level do. -/
theorem run_splits (ops : List (LevelOp K V)) :
    ∀ {single : Level K V} {s : LevelStack K V}, Splits single s →
      (s.run ops = .error .overflow ∧
        single.run (ops.filterMap LevelOp.write?) = .error .overflow) ∨
      ∃ replies replies' s' single', s.run ops = .ok (replies, s') ∧
        single.run (ops.filterMap LevelOp.write?) = .ok (replies', single') ∧
        replies.map Prod.snd = replies'.map Prod.snd ∧ Splits single' s' := by
  induction ops with
  | nil =>
      intro single s h
      exact Or.inr ⟨[], [], s, single, rfl, rfl, rfl, h⟩
  | cons op ops ih =>
      intro single s h
      cases op with
      | freeze => exact ih h.freeze
      | set key value =>
          have hwrites : (LevelOp.set key value :: ops).filterMap LevelOp.write? =
              (key, value) :: ops.filterMap LevelOp.write? := rfl
          rw [hwrites, run_set, Level.run_cons, h.marked?_eq]
          cases hx : single.marked? value with
          | none => exact Or.inl ⟨rfl, rfl⟩
          | some x =>
              rw [← h.marked?_eq] at hx
              simp only
              rcases ih (h.set key hx) with ⟨hrun, hsingle⟩ |
                ⟨replies, replies', s', single', hrun, hsingle, hafter, h'⟩
              · rw [hrun, hsingle]
                exact Or.inl ⟨rfl, rfl⟩
              · rw [hrun, hsingle]
                exact Or.inr ⟨_, _, s', single', rfl, rfl, congrArg (List.cons x) hafter, h'⟩

/-- **Splitting a map into levels is unobservable.**  However writes are interleaved with freezes,
the run fails when the writes on a single level do, for lack of a sequence number; otherwise each
write stores the same record, every point read over all levels is the single level's, and so is
every range read that is not refused, with at most one entry per key in ascending order.  It does
not matter how the levels, from the newest on, are divided among the arguments of a read.  The
single level holds, of each key, the record its last write has stored, with the value written. -/
theorem splitting_unobservable (ops : List (LevelOp K V)) :
    (default.run ops = .error .overflow ∧
      Level.default.run (ops.filterMap LevelOp.write?) = .error .overflow) ∨
    ∃ replies replies' s single, default.run ops = .ok (replies, s) ∧
      Level.default.run (ops.filterMap LevelOp.write?) = .ok (replies', single) ∧
      replies.map Prod.snd = replies'.map Prod.snd ∧
      ((∀ k, single.map.get? k =
          BTreeMap.lastValue (Level.written (ops.filterMap LevelOp.write?) replies') k) ∧
        (replies'.map fun p => p.2.intoData) = (ops.filterMap LevelOp.write?).map Prod.snd) ∧
      (∀ k levels persisted, levels ++ persisted = s.levels →
        compactedGet k levels persisted = .ok (single.get k)) ∧
      ∀ r : RangeBounds K, ¬r.Inverted → ∃ out, single.range r = .ok (items out) ∧
        KeyAscending out ∧ ∀ P top levels persisted,
          top.toList ++ levels ++ persisted = s.levels →
            compactedRange P r top levels persisted = .ok (items out) := by
  rcases run_splits ops splits_default with hover |
    ⟨replies, replies', s, single, hrun, hsingle, hafter, h⟩
  · exact Or.inl hover
  · obtain ⟨hmap, hvalues⟩ := Level.run_map hsingle
    refine Or.inr ⟨replies, replies', s, single, hrun, hsingle, hafter, ⟨fun k => ?_, hvalues⟩,
      fun k levels persisted hsplit => h.compactedGet_eq hsplit k, fun r hr => ?_⟩
    · rw [hmap]
      exact BTreeMap.get?_fromIter _ k
    · refine ⟨single.inRange r, Level.range_eq hr single, Level.keyAscending_inRange r single,
        fun P top levels persisted hsplit => ?_⟩
      rw [h.compactedRange_eq P hr hsplit, Level.range_eq hr]

end LevelStack

end MapApi
