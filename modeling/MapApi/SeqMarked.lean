/-
**Sequence numbers, markers, and values marked with them.**

Every value the library stores carries a sequence number and a mark: normal, or a tombstone that
records a deletion.  The types come from the `seq_marked` crate; what is embedded here is the part
the library uses, with the behaviour its own comments and tests rely on: a marker is ordered by
its sequence number first, and at one sequence number a tombstone is above a normal value, so that
`zero` is the least marker and `max_value` the greatest; the tombstone of sequence `0` doubles as
*not found*.

Sequence numbers are 64-bit: adding one to the greatest of them fails.

Main definitions:

* `MapApi.U64`, `MapApi.U64.succ?` — sequence numbers, and the checked increment;
* `MapApi.SeqMarked`, `MapApi.Marker` — a marked value, and a marker, the order key of one;
* `MapApi.RecordKey` — the key of a table record: a user key and a marker, newest marker first.

Main results:

* `MapApi.Marker.le_newTombstone_iff` and its companions — the order of markers;
* `MapApi.RecordKey.lt_iff` — the order of record keys.
-/

import Mathlib.Algebra.GroupWithZero.Nat
import Mathlib.Data.Fin.Basic
import Mathlib.Data.Prod.Lex
import Mathlib.Order.Fin.Basic
import Mathlib.Order.Lattice
import Mathlib.Tactic.Common

set_option relaxedAutoImplicit false
set_option autoImplicit false

namespace MapApi

/-! ### Sequence numbers -/

/-- A sequence number, `u64` in the source. -/
abbrev U64 : Type := Fin (2 ^ 64)

namespace U64

instance : NeZero (2 ^ 64) := ⟨by decide⟩

/-- The next sequence number, `none` past `u64::MAX`. -/
def succ? (n : U64) : Option U64 :=
  if h : n.val + 1 < 2 ^ 64 then some ⟨n.val + 1, h⟩ else none

/-- The greatest sequence number, `u64::MAX`. -/
def max : U64 := Fin.last _

theorem val_of_succ? {n n' : U64} (h : succ? n = some n') : n'.val = n.val + 1 := by
  unfold succ? at h
  split at h
  · exact (congrArg Fin.val (Option.some_inj.1 h)).symm
  · cases h

theorem lt_of_succ? {n n' : U64} (h : succ? n = some n') : n < n' := by
  have := val_of_succ? h
  exact Fin.lt_def.2 (by omega)

theorem le_max (n : U64) : n ≤ max := Fin.le_last n

theorem ne_zero_of_one_le {n : U64} (h : 1 ≤ n) : n ≠ 0 := by
  rintro rfl
  exact absurd h (by decide)

theorem eq_max_of_succ? {n : U64} (h : succ? n = none) : n = max := by
  unfold succ? at h
  split at h
  · cases h
  · refine Fin.ext ?_
    have hmax : max.val = 2 ^ 64 - 1 := rfl
    omega

end U64

/-! ### Marked values -/

/-- A normal value, or the mark of a deletion. -/
inductive Marked (D : Type) where
  | normal (data : D)
  | tombStone
  deriving DecidableEq, Repr

/-- **A marked value** with the sequence number it was written at. -/
structure SeqMarked (D : Type) where
  seq : U64
  marked : Marked D
  deriving DecidableEq, Repr

namespace SeqMarked

variable {D : Type}

def newNormal (seq : U64) (data : D) : SeqMarked D := ⟨seq, .normal data⟩

def newTombstone (seq : U64) : SeqMarked D := ⟨seq, .tombStone⟩

/-- The value of a key without record: the tombstone of sequence `0`. -/
def newNotFound : SeqMarked D := newTombstone 0

def isTombstone (x : SeqMarked D) : Bool :=
  match x.marked with
  | .normal _ => false
  | .tombStone => true

def isNotFound (x : SeqMarked D) : Bool := x.isTombstone && decide (x.seq = 0)

def internalSeq (x : SeqMarked D) : U64 := x.seq

/-- The marker of a value: its sequence number and mark, without the data. -/
def orderKey (x : SeqMarked D) : SeqMarked Unit :=
  match x.marked with
  | .normal _ => newNormal x.seq ()
  | .tombStone => newTombstone x.seq

/-- The data of a normal value. -/
def intoData (x : SeqMarked D) : Option D :=
  match x.marked with
  | .normal d => some d
  | .tombStone => none

/-- A value from its sequence number and its data, a tombstone without data. -/
def ofData (seq : U64) : Option D → SeqMarked D
  | some d => newNormal seq d
  | none => newTombstone seq

@[simp] theorem seq_newNormal (n : U64) (d : D) : (newNormal n d).seq = n := rfl
@[simp] theorem seq_newTombstone (n : U64) : (newTombstone n : SeqMarked D).seq = n := rfl
@[simp] theorem seq_orderKey (x : SeqMarked D) : x.orderKey.seq = x.seq := by
  obtain ⟨n, d | _⟩ := x <;> rfl
@[simp] theorem internalSeq_eq (x : SeqMarked D) : x.internalSeq = x.seq := rfl

@[simp] theorem isTombstone_newNormal (n : U64) (d : D) : (newNormal n d).isTombstone = false := rfl
@[simp] theorem isTombstone_newTombstone (n : U64) :
    (newTombstone n : SeqMarked D).isTombstone = true := rfl
@[simp] theorem isTombstone_orderKey (x : SeqMarked D) :
    x.orderKey.isTombstone = x.isTombstone := by
  obtain ⟨n, d | _⟩ := x <;> rfl

@[simp] theorem orderKey_newNormal (n : U64) (d : D) : (newNormal n d).orderKey = newNormal n () :=
  rfl
@[simp] theorem orderKey_newTombstone (n : U64) :
    (newTombstone n : SeqMarked D).orderKey = newTombstone n := rfl
@[simp] theorem intoData_newNormal (n : U64) (d : D) : (newNormal n d).intoData = some d := rfl
@[simp] theorem intoData_newTombstone (n : U64) :
    (newTombstone n : SeqMarked D).intoData = none := rfl

@[simp] theorem ofData_some (n : U64) (d : D) : ofData n (some d) = newNormal n d := rfl
@[simp] theorem ofData_none (n : U64) : ofData n (none : Option D) = newTombstone n := rfl
@[simp] theorem seq_ofData (n : U64) (d : Option D) : (ofData n d).seq = n := by
  cases d <;> rfl
@[simp] theorem intoData_ofData (n : U64) (d : Option D) : (ofData n d).intoData = d := by
  cases d <;> rfl

/-- A value is normal or a tombstone. -/
theorem eq_ofData (x : SeqMarked D) : x = ofData x.seq x.intoData := by
  obtain ⟨n, d | _⟩ := x <;> rfl

theorem isTombstone_eq_isNone (x : SeqMarked D) : x.isTombstone = x.intoData.isNone := by
  obtain ⟨n, d | _⟩ := x <;> rfl

/-- The marker and the data make up the value. -/
theorem eq_of_orderKey_intoData {x y : SeqMarked D} (hk : x.orderKey = y.orderKey)
    (hd : x.intoData = y.intoData) : x = y := by
  have hseq : x.seq = y.seq := by rw [← seq_orderKey, hk, seq_orderKey]
  rw [eq_ofData x, eq_ofData y, hseq, hd]

/-- Two tombstones of one marker are equal. -/
theorem eq_of_orderKey_tombstone {x y : SeqMarked D} (hk : x.orderKey = y.orderKey)
    (hx : x.isTombstone) : x = y := by
  have hy : y.isTombstone := by rwa [← isTombstone_orderKey, ← hk, isTombstone_orderKey]
  refine eq_of_orderKey_intoData hk ?_
  rw [isTombstone_eq_isNone, Option.isNone_iff_eq_none] at hx hy
  rw [hx, hy]

theorem isNotFound_iff {x : SeqMarked D} : x.isNotFound ↔ x = newNotFound := by
  obtain ⟨n, d | _⟩ := x
  · simp [isNotFound, isTombstone, newNotFound, newTombstone]
  · simp [isNotFound, isTombstone, newNotFound, newTombstone]

/-- Only the tombstone of sequence number `0` reads as *not found*. -/
theorem isNotFound_of_seq_ne {x : SeqMarked D} (h : x.seq ≠ 0) : x.isNotFound = false := by
  rw [isNotFound, decide_eq_false h, Bool.and_false]

@[simp] theorem isNotFound_newNotFound : (newNotFound : SeqMarked D).isNotFound := rfl

end SeqMarked

/-! ### Markers -/

/-- **A marker**, `SeqMarked<()>` in the source: what values are ordered by. -/
abbrev Marker : Type := SeqMarked Unit

namespace Marker

/-- The place of a marker in the order: its sequence number, then normal before tombstone. -/
def rank (m : Marker) : U64 ×ₗ Bool := toLex (m.seq, m.isTombstone)

theorem rank_injective : Function.Injective rank := by
  rintro ⟨n, d | _⟩ ⟨n', d' | _⟩ h <;> simp_all [rank, SeqMarked.isTombstone]

instance : LinearOrder Marker where
  le a b := rank a ≤ rank b
  lt a b := rank a < rank b
  le_refl a := le_refl (rank a)
  le_trans a b c := le_trans (a := rank a)
  lt_iff_le_not_ge a b := lt_iff_le_not_ge (a := rank a)
  le_antisymm a b h h' := rank_injective (le_antisymm h h')
  le_total a b := le_total (rank a) (rank b)
  toDecidableLE a b := inferInstanceAs (Decidable (rank a ≤ rank b))
  toDecidableLT a b := inferInstanceAs (Decidable (rank a < rank b))
  toDecidableEq := inferInstance

/-- The least marker, `SeqMarked::zero()`. -/
def zero : Marker := SeqMarked.newNormal 0 ()

/-- The greatest marker, `SeqMarked::max_value()`. -/
def maxValue : Marker := SeqMarked.newTombstone U64.max

/-- Markers are ordered by sequence number, and normal before tombstone at one number. -/
theorem le_iff {m m' : Marker} :
    m ≤ m' ↔ m.seq < m'.seq ∨ (m.seq = m'.seq ∧ (m.isTombstone → m'.isTombstone)) := by
  change rank m ≤ rank m' ↔ _
  rw [rank, rank, Prod.Lex.toLex_le_toLex]
  exact or_congr_right (and_congr_right fun _ => Bool.le_iff_imp)

theorem lt_iff {m m' : Marker} :
    m < m' ↔ m.seq < m'.seq ∨
      (m.seq = m'.seq ∧ m.isTombstone = false ∧ m'.isTombstone = true) := by
  change rank m < rank m' ↔ _
  rw [rank, rank, Prod.Lex.toLex_lt_toLex]
  exact or_congr_right (and_congr_right fun _ => Bool.lt_iff)

theorem seq_le_of_le {m m' : Marker} (h : m ≤ m') : m.seq ≤ m'.seq := by
  rcases le_iff.1 h with h | ⟨h, -⟩
  · exact h.le
  · exact h.le

theorem lt_of_seq_lt {m m' : Marker} (h : m.seq < m'.seq) : m < m' := lt_iff.2 (Or.inl h)

/-- A marker is below the tombstone of a sequence number when it is not of a later one. -/
@[simp] theorem le_newTombstone_iff {m : Marker} {u : U64} :
    m ≤ SeqMarked.newTombstone u ↔ m.seq ≤ u := by
  rw [le_iff, le_iff_lt_or_eq]
  simp

@[simp] theorem newTombstone_lt_iff {m : Marker} {u : U64} :
    SeqMarked.newTombstone u < m ↔ u < m.seq := by
  rw [← not_le, le_newTombstone_iff, not_le]

/-- A marker is above a normal one when it is not of an earlier sequence number. -/
@[simp] theorem newNormal_le_iff {m : Marker} {n : U64} :
    SeqMarked.newNormal n () ≤ m ↔ n ≤ m.seq := by
  rw [le_iff, le_iff_lt_or_eq]
  simp

@[simp] theorem lt_newNormal_iff {m : Marker} {n : U64} :
    m < SeqMarked.newNormal n () ↔ m.seq < n := by
  rw [← not_le, newNormal_le_iff, not_le]

theorem zero_le (m : Marker) : zero ≤ m := newNormal_le_iff.2 (Fin.zero_le _)

theorem le_maxValue (m : Marker) : m ≤ maxValue := le_newTombstone_iff.2 (U64.le_max _)

@[simp] theorem seq_zero : zero.seq = 0 := rfl

/-- A marker is normal or a tombstone. -/
theorem eq_newNormal_or_newTombstone (m : Marker) :
    (m = SeqMarked.newNormal m.seq () ∧ m.isTombstone = false) ∨
      (m = SeqMarked.newTombstone m.seq ∧ m.isTombstone = true) := by
  obtain ⟨n, d | _⟩ := m
  · exact Or.inl ⟨rfl, rfl⟩
  · exact Or.inr ⟨rfl, rfl⟩

end Marker

namespace SeqMarked

variable {D : Type}

/-- The greater of two values, by their markers. -/
def max (x y : SeqMarked D) : SeqMarked D := if y.orderKey < x.orderKey then x else y

end SeqMarked

/-! ### Record keys -/

/-- **The key of a table record**: `(K, Reverse<SeqMarked<()>>)` in the source. -/
@[ext] structure RecordKey (K : Type) where
  key : K
  seqMarked : Marker
  deriving DecidableEq, Repr

namespace RecordKey

variable {K : Type}

/-- The place of a record: its user key, then its marker in reverse. -/
def place (r : RecordKey K) : K ×ₗ Markerᵒᵈ := toLex (r.key, OrderDual.toDual r.seqMarked)

theorem place_injective : Function.Injective (place : RecordKey K → K ×ₗ Markerᵒᵈ) := by
  rintro ⟨k, m⟩ ⟨k', m'⟩ h
  have h' : (k, OrderDual.toDual m) = (k', OrderDual.toDual m') := toLex.injective h
  cases h'
  rfl

variable [LinearOrder K]

instance : LinearOrder (RecordKey K) where
  le a b := place a ≤ place b
  lt a b := place a < place b
  le_refl a := le_refl (place a)
  le_trans a b c := le_trans (a := place a)
  lt_iff_le_not_ge a b := lt_iff_le_not_ge (a := place a)
  le_antisymm a b h h' := place_injective (le_antisymm h h')
  le_total a b := le_total (place a) (place b)
  toDecidableLE a b := inferInstanceAs (Decidable (place a ≤ place b))
  toDecidableLT a b := inferInstanceAs (Decidable (place a < place b))
  toDecidableEq := inferInstance

/-- Records are ordered by user key, the newer record of one key first. -/
theorem lt_iff {r r' : RecordKey K} :
    r < r' ↔ r.key < r'.key ∨ (r.key = r'.key ∧ r'.seqMarked < r.seqMarked) := by
  change place r < place r' ↔ _
  rw [place, place, Prod.Lex.toLex_lt_toLex]
  rfl

theorem le_iff {r r' : RecordKey K} :
    r ≤ r' ↔ r.key < r'.key ∨ (r.key = r'.key ∧ r'.seqMarked ≤ r.seqMarked) := by
  change place r ≤ place r' ↔ _
  rw [place, place, Prod.Lex.toLex_le_toLex]
  rfl

theorem key_le_of_le {r r' : RecordKey K} (h : r ≤ r') : r.key ≤ r'.key := by
  rcases le_iff.1 h with h | ⟨h, -⟩
  · exact h.le
  · exact h.le

/-- The records of one key are not separated by a record of another one. -/
theorem key_eq_of_between {a b c : RecordKey K} (hab : a ≤ b) (hbc : b ≤ c)
    (h : a.key = c.key) : b.key = a.key :=
  le_antisymm (h ▸ key_le_of_le hbc) (key_le_of_le hab)

end RecordKey

end MapApi
