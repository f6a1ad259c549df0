/-
**Optimistic concurrency.**

A client reads a key, keeps the sequence number, and later asks that a write take effect only if the
number still matches.  The condition is checked against one number, so what it says about the time
in between rests on how numbers are handed out.  On a store whose writes take numbers of their own,
an exact match with the number of a value means that no call has touched the key since: a value
written and put back has another number.  Where the client has seen no value it only means that
there is none again.

Main definitions:

* `MapApi.MatchSeq`, `MapApi.ConflictSeq`, `MapApi.MatchSeqExt` — the conditions, and the check;
* `MapApi.SeqMarked.toSeqV` — the sequenced value of a record, a tombstone having none;
* `MapApi.MapState.Since` — a key written after a number.

Main results:

* `MapApi.MapState.run_untouched`, `MapApi.MapState.run_touched` — a key over a run of the map;
* `MapApi.Store.run_map`, `MapApi.Store.get_cases` — a run of transactions is one run of the map,
  and what it leaves of a key;
* `MapApi.Store.exact_iff_untouched` — **an exact match detects every write**.
-/

import MapApi.Store

set_option relaxedAutoImplicit false
set_option autoImplicit false

namespace MapApi

/-! ### Conditions on sequence numbers -/

/-- **The condition a sequence number has to satisfy for an operation to take effect.** -/
inductive MatchSeq where
  | any
  | «exact» (s : U64)
  | ge (s : U64)
  deriving DecidableEq

inductive ConflictSeq where
  | notMatch (want : MatchSeq) (got : U64)
  deriving DecidableEq

/-- Match against some value containing a sequence number. -/
class MatchSeqExt (T : Type) where
  matchSeq : MatchSeq → T → Except ConflictSeq Unit

/-- A value with its sequence number and metadata. -/
structure SeqV (M T : Type) where
  seq : U64
  metadata : Option M
  data : T

namespace MatchSeq

instance : MatchSeqExt U64 where
  matchSeq self seq :=
    match self with
    | .any => .ok ()
    | .exact s => if seq = s then .ok () else .error (.notMatch self seq)
    | .ge s => if s ≤ seq then .ok () else .error (.notMatch self seq)

instance {M T : Type} : MatchSeqExt (SeqV M T) where
  matchSeq self sv := MatchSeqExt.matchSeq self sv.seq

instance {T : Type} [MatchSeqExt T] : MatchSeqExt (Option T) where
  matchSeq self sv :=
    match sv with
    | some sv => MatchSeqExt.matchSeq self sv
    | none => MatchSeqExt.matchSeq self (0 : U64)

/-- The numbers a condition admits. -/
def Admits : MatchSeq → U64 → Prop
  | any, _ => True
  | .exact s, n => n = s
  | ge s, n => s ≤ n

instance : (w : MatchSeq) → (n : U64) → Decidable (w.Admits n)
  | any, _ => isTrue trivial
  | .exact s, n => inferInstanceAs (Decidable (n = s))
  | ge s, n => inferInstanceAs (Decidable (s ≤ n))

/-- **The check**: the admitted numbers match, any other is reported with the condition. -/
theorem matchSeq_u64 (w : MatchSeq) (n : U64) :
    MatchSeqExt.matchSeq w n = if w.Admits n then .ok () else .error (.notMatch w n) := by
  cases w with
  | any => rfl
  | «exact» s => rfl
  | ge s => rfl

end MatchSeq

namespace SeqMarked

variable {V : Type}

/-- The sequenced value of a record: a tombstone has none.  The source leaves the conversion to the
crate of its record type, so this is how a record is to be read when it is matched, and no model of
code of its own. -/
def toSeqV (x : SeqMarked V) : Option (SeqV Unit V) :=
  x.intoData.map fun data => ⟨x.internalSeq, none, data⟩

/-- The number a record is matched at. -/
def number (x : SeqMarked V) : U64 := if x.isTombstone then 0 else x.seq

theorem number_cases (x : SeqMarked V) :
    (x.isTombstone = true ∧ x.number = 0) ∨ (x.isTombstone = false ∧ x.number = x.seq) := by
  obtain ⟨seq, marked⟩ := x
  cases marked with
  | normal d => exact Or.inr ⟨rfl, rfl⟩
  | tombStone => exact Or.inl ⟨rfl, rfl⟩

/-- A value at or above the tombstone of a number is above the number. -/
theorem lt_seq_of_later {x : SeqMarked V} {n : U64} (h : .newTombstone n ≤ x.orderKey)
    (hvalue : x.isTombstone = false) : n < x.seq := by
  rcases Marker.le_iff.1 h with hlt | ⟨-, ht⟩
  · rwa [seq_newTombstone, seq_orderKey] at hlt
  · rw [isTombstone_orderKey, hvalue] at ht
    cases ht rfl

theorem matchSeq_toSeqV (w : MatchSeq) (x : SeqMarked V) :
    MatchSeqExt.matchSeq w x.toSeqV =
      if w.Admits x.number then .ok () else .error (.notMatch w x.number) := by
  obtain ⟨seq, marked⟩ := x
  cases marked with
  | normal d => exact MatchSeq.matchSeq_u64 w seq
  | tombStone => exact MatchSeq.matchSeq_u64 w 0

/-- A record matches at the numbers the condition admits. -/
theorem matchSeq_toSeqV_ok {w : MatchSeq} {x : SeqMarked V} :
    MatchSeqExt.matchSeq w x.toSeqV = .ok () ↔ w.Admits x.number := by
  rw [matchSeq_toSeqV]
  split_ifs with h
  · exact iff_of_true rfl h
  · exact iff_of_false nofun h

end SeqMarked

/-! ### A key over a run of the map -/

namespace MapState

variable {K V : Type} [LinearOrder K] {inc : Bool} {k : K} {n : U64}

@[simp] theorem read_store_self (s : MapState K V) (k : K) (x : SeqMarked V) :
    (s.store k x).read k = x := by
  simp only [read, store, Function.update_self, Option.getD_some]

theorem read_store_of_ne (s : MapState K V) {k k' : K} (h : k' ≠ k) (x : SeqMarked V) :
    (s.store k x).read k' = s.read k' := by
  simp only [read, store, Function.update_of_ne h]

/-- **What one call does to the map**: nothing, if it deletes a key that is not found, or it stores
a record after the counter. -/
theorem call_cases {s s' : MapState K V} {c : Call K V} {reply : Reply V}
    (h : s.call inc c = .ok (reply, s')) :
    (s' = s ∧ (s.read c.key).isNotFound = true) ∨
      ∃ x, View.nextAt inc s.counter c = some x ∧ s' = s.store c.key x := by
  rw [call_eq] at h
  cases ho : c.outcome (.ok (s.read c.key)) (View.nextAt inc s.counter c) with
  | error f => rw [ho] at h; cases h
  | ok p =>
      obtain ⟨reply', sx⟩ := p
      rw [ho] at h
      rcases Call.outcome_cases ho with ⟨rfl, o, hold, hskip, -⟩ | ⟨x, rfl, hx, -⟩
      · cases hold
        cases h
        exact Or.inl ⟨rfl, hskip.1⟩
      · cases h
        exact Or.inr ⟨x, hx, rfl⟩

/-- **A key that was written after a number.** -/
def Since (k : K) (n : U64) (s : MapState K V) : Prop :=
  n ≤ s.counter ∧ .newTombstone n ≤ (s.read k).orderKey

/-- A call that stores a record of the key. -/
theorem since_store {s : MapState K V} (hn : n ≤ s.counter) {c : Call K V}
    (hc : c.increaseSeq = true) {x : SeqMarked V} (hx : View.nextAt inc s.counter c = some x) :
    Since c.key n (s.store c.key x) := by
  refine ⟨le_trans hn (View.seq_of_nextAt hc hx).1, ?_⟩
  rw [read_store_self]
  exact le_trans (Marker.le_newTombstone_iff.2 hn) (View.newTombstone_le_of_nextAt hc hx)

/-- A key stays written. -/
theorem since_preserved (inc : Bool) (k : K) (n : U64) :
    Machine.Preserves (Since (V := V) k n) (fun c => c.increaseSeq = true) (call inc) := by
  intro s c reply s' hs hc hstep
  rcases call_cases hstep with ⟨rfl, -⟩ | ⟨x, hx, rfl⟩
  · exact hs
  · by_cases hk : k = c.key
    · subst hk
      exact since_store hs.1 hc hx
    · refine ⟨le_trans hs.1 (View.seq_of_nextAt hc hx).1, ?_⟩
      rw [read_store_of_ne s hk]
      exact hs.2

/-- Until then it keeps its record. -/
theorem kept_preserved (inc : Bool) (k : K) (n : U64) (x : SeqMarked V) :
    Machine.Preserves (fun s => n ≤ s.counter ∧ s.read k = x)
      (fun c => c.increaseSeq = true ∧ c.key ≠ k) (call inc) := by
  rintro s c reply s' ⟨hn, hs⟩ ⟨hc, hk⟩ hstep
  rcases call_cases hstep with ⟨rfl, -⟩ | ⟨x', hx', rfl⟩
  · exact ⟨hn, hs⟩
  · exact ⟨le_trans hn (View.seq_of_nextAt hc hx').1, (read_store_of_ne s hk.symm x').trans hs⟩

variable {s s' : MapState K V} {calls : List (Call K V)} {replies : List (Reply V)}

theorem run_untouched (hcalls : ∀ c ∈ calls, c.increaseSeq = true)
    (hrun : Machine.run (call inc) s calls = .ok (replies, s')) (hk : ∀ c ∈ calls, c.key ≠ k) :
    s'.read k = s.read k :=
  ((kept_preserved inc k s.counter (s.read k)).run (fun c hc => ⟨hcalls c hc, hk c hc⟩)
    ⟨le_rfl, rfl⟩ hrun).2

/-- The first call on a key that has a record writes it, and it stays written. -/
theorem run_touched (hcalls : ∀ c ∈ calls, c.increaseSeq = true)
    (hrun : Machine.run (call inc) s calls = .ok (replies, s'))
    (hfound : (s.read k).isNotFound = false) (hn : n ≤ s.counter) (hk : ∃ c ∈ calls, c.key = k) :
    Since k n s' := by
  induction calls generalizing s replies with
  | nil => obtain ⟨c, hc, -⟩ := hk; cases hc
  | cons c calls ih =>
      have hc := hcalls c List.mem_cons_self
      have hrest : ∀ c' ∈ calls, c'.increaseSeq = true := fun c' hc' =>
        hcalls c' (List.mem_cons_of_mem _ hc')
      cases hstep : s.call inc c with
      | error f => rw [Machine.run_cons_of_error hstep] at hrun; cases hrun
      | ok p =>
          obtain ⟨reply, s₁⟩ := p
          rw [Machine.run_cons_of_ok hstep] at hrun
          cases hrun₁ : Machine.run (call inc) s₁ calls with
          | error f => rw [hrun₁] at hrun; cases hrun
          | ok q =>
              rw [hrun₁] at hrun
              cases hrun
              by_cases hck : c.key = k
              · subst hck
                rcases call_cases hstep with ⟨rfl, hnot⟩ | ⟨x, hx, rfl⟩
                · cases hfound.symm.trans hnot
                · exact (since_preserved inc c.key n).run hrest (since_store hn hc hx) hrun₁
              · obtain ⟨hn₁, hread⟩ :=
                  kept_preserved inc k n (s.read k) s c reply s₁ ⟨hn, rfl⟩ ⟨hc, hck⟩ hstep
                refine ih hrest hrun₁ (hread ▸ hfound) hn₁ ?_
                obtain ⟨c', hc', hkey⟩ := hk
                rcases List.mem_cons.1 hc' with rfl | hc'
                · exact absurd hkey hck
                · exact ⟨c', hc', hkey⟩

end MapState

/-! ### Stores -/

namespace Store

variable {K V : Type} [LinearOrder K] {P : KMerge.Picker Fault (Ent K V)} {inc : Bool}

/-- **A run of transactions is one run of the map**, applied or compacted. -/
theorem run_map {t t' : Table K V} {n n' : U64} (h : View.Settled t n)
    {txs : List (Transaction K V)} (htxs : ∀ tx ∈ txs, tx.Allocates)
    {replies : List (List (Reply V))}
    (hrun : Machine.run (transact P inc) (t, n) txs = .ok (replies, t', n')) :
    Machine.run (MapState.call inc) ⟨t.shown n, n⟩ (txs.flatMap Transaction.calls) =
      .ok (replies.flatten, ⟨t'.shown n', n'⟩) := by
  obtain ⟨u', hrun', htwin, hu⟩ := exists_applied_run h htxs hrun
  rw [← Machine.run_map] at hrun'
  obtain ⟨s, hs, -, rfl⟩ := ((applied_simulates P inc).run htxs ⟨h, rfl⟩).of_ok hrun'
  rw [Machine.run_map (fun s calls => Machine.run (MapState.call inc) s calls)
    Transaction.calls] at hs
  rw [htwin.shown_eq hu]
  exact Machine.run_flatten hs

/-- A settled table answers the records of the map it shows. -/
theorem settled_get {t : Table K V} {n : U64} (h : View.Settled t n) (k : K) :
    t.get k n = .ok ((⟨t.shown n, n⟩ : MapState K V).read k) :=
  (h.wf.paired.shows n).get_eq k

/-- A settled table has no value at `0`. -/
theorem seq_ne_zero {t : Table K V} {n : U64} (h : View.Settled t n) {k : K} {x : SeqMarked V}
    (hx : t.get k n = .ok x) (hvalue : x.isTombstone = false) : x.seq ≠ 0 := by
  intro hzero
  obtain ⟨r, hr⟩ := t.exists_sees k n
  rw [Table.get_eq_of_sees hr] at hx
  match r with
  | none =>
      cases hx
      cases hvalue
  | some (m, d) =>
      have hm : m = .newNormal 0 () := by
        rw [← orderKey_of_mapUnwrap hx]
        obtain ⟨seq, marked⟩ := x
        obtain rfl : seq = 0 := hzero
        cases marked with
        | normal d => rfl
        | tombStone => cases hvalue
      subst hm
      exact h.no_value k d hr.mem

/-- What transactions leave of a key that held a value: the value, if no call named the key, or a
record handed out since. -/
theorem get_cases {t t' : Table K V} {n n' : U64} (h : View.Settled t n)
    {txs : List (Transaction K V)} (htxs : ∀ tx ∈ txs, tx.Allocates)
    {replies : List (List (Reply V))}
    (hrun : Machine.run (transact P inc) (t, n) txs = .ok (replies, t', n')) {k : K} {s : U64}
    {v : V} (hv : t.get k n = .ok (.newNormal s v)) :
    ∃ x, t'.get k n' = .ok x ∧
      (((∀ tx ∈ txs, ∀ c ∈ tx.calls, c.key ≠ k) ∧ x = .newNormal s v) ∨
        ((∃ tx ∈ txs, ∃ c ∈ tx.calls, c.key = k) ∧ .newTombstone n ≤ x.orderKey)) := by
  have hmap := run_map h htxs hrun
  have hcalls : ∀ c ∈ txs.flatMap Transaction.calls, c.increaseSeq = true := fun c hc => by
    obtain ⟨tx, htx, hc⟩ := List.mem_flatMap.1 hc
    exact htxs tx htx c hc
  have hread := Except.ok.inj ((settled_get h k).symm.trans hv)
  refine ⟨_, settled_get (settled_run h htxs hrun) k, ?_⟩
  by_cases hk : ∃ c ∈ txs.flatMap Transaction.calls, c.key = k
  · have hfound : ((⟨t.shown n, n⟩ : MapState K V).read k).isNotFound = false := by
      rw [hread]
      exact SeqMarked.isNotFound_of_seq_ne (seq_ne_zero h hv rfl)
    have hsince := MapState.run_touched hcalls hmap (n := n) hfound le_rfl hk
    obtain ⟨c, hc, hck⟩ := hk
    obtain ⟨tx, htx, hc⟩ := List.mem_flatMap.1 hc
    exact Or.inr ⟨⟨tx, htx, c, hc, hck⟩, hsince.2⟩
  · have hall : ∀ c ∈ txs.flatMap Transaction.calls, c.key ≠ k := fun c hc hck =>
      hk ⟨c, hc, hck⟩
    refine Or.inl ⟨fun tx htx c hc => hall c (List.mem_flatMap.2 ⟨tx, htx, hc⟩), ?_⟩
    exact (MapState.run_untouched hcalls hmap hall).trans hread

/-- **An exact match detects every write.**  A key holds a value when transactions start to run.
After them, an exact match with the number of that value succeeds exactly when no call named the
key; otherwise the conflict reports the number of the value the key has now, or `0` if it has none.
A match from that number on succeeds exactly when the key has a value, and an exact match with `0`
exactly when it has none. -/
theorem exact_iff_untouched {t t' : Table K V} {n n' : U64} (h : View.Settled t n)
    {txs : List (Transaction K V)} (htxs : ∀ tx ∈ txs, tx.Allocates)
    {replies : List (List (Reply V))}
    (hrun : Machine.run (transact P inc) (t, n) txs = .ok (replies, t', n')) {k : K} {s : U64}
    {v : V} (hv : t.get k n = .ok (.newNormal s v)) :
    ∃ x, t'.get k n' = .ok x ∧
      (MatchSeqExt.matchSeq (.exact s) x.toSeqV = .ok () ↔
        ∀ tx ∈ txs, ∀ c ∈ tx.calls, c.key ≠ k) ∧
      ((∃ tx ∈ txs, ∃ c ∈ tx.calls, c.key = k) →
        MatchSeqExt.matchSeq (.exact s) x.toSeqV = .error (.notMatch (.exact s) x.number)) ∧
      (MatchSeqExt.matchSeq (.ge s) x.toSeqV = .ok () ↔ x.isTombstone = false) ∧
      (MatchSeqExt.matchSeq (.exact 0) x.toSeqV = .ok () ↔ x.isTombstone = true) := by
  obtain ⟨x, hget, hcases⟩ := get_cases h htxs hrun hv
  have hs : s ≠ 0 := seq_ne_zero h hv rfl
  have hx : x.isTombstone = false → x.seq ≠ 0 := seq_ne_zero (settled_run h htxs hrun) hget
  have hsn : s ≤ n := Table.seq_le_of_get hv
  have hle : x.isTombstone = false → s ≤ x.seq := fun hvalue => by
    rcases hcases with ⟨-, rfl⟩ | ⟨-, hlater⟩
    · exact le_rfl
    · exact le_trans hsn (SeqMarked.lt_seq_of_later hlater hvalue).le
  have hne : (∃ tx ∈ txs, ∃ c ∈ tx.calls, c.key = k) → x.number ≠ s := by
    rintro ⟨tx, htx, c, hc, hck⟩
    rcases hcases with ⟨hall, -⟩ | ⟨-, hlater⟩
    · exact absurd hck (hall tx htx c hc)
    · rcases x.number_cases with ⟨-, hzero⟩ | ⟨hvalue, hseq⟩
      · rw [hzero]
        exact hs.symm
      · rw [hseq]
        exact (lt_of_le_of_lt hsn (SeqMarked.lt_seq_of_later hlater hvalue)).ne'
  refine ⟨x, hget, ?_, fun htouched => ?_, ?_, ?_⟩
  · rw [SeqMarked.matchSeq_toSeqV_ok]
    change x.number = s ↔ _
    refine ⟨fun hnum tx htx c hc hck => hne ⟨tx, htx, c, hc, hck⟩ hnum, fun hall => ?_⟩
    rcases hcases with ⟨-, rfl⟩ | ⟨⟨tx, htx, c, hc, hck⟩, -⟩
    · rfl
    · exact absurd hck (hall tx htx c hc)
  · exact (SeqMarked.matchSeq_toSeqV _ x).trans (if_neg (hne htouched))
  · rw [SeqMarked.matchSeq_toSeqV_ok]
    change s ≤ x.number ↔ _
    rcases x.number_cases with ⟨ht, hnum⟩ | ⟨ht, hnum⟩ <;> rw [hnum, ht]
    · exact iff_of_false (fun hle => hs (Fin.le_zero_iff.1 hle)) nofun
    · exact iff_of_true (hle ht) rfl
  · rw [SeqMarked.matchSeq_toSeqV_ok]
    change x.number = 0 ↔ _
    rcases x.number_cases with ⟨ht, hnum⟩ | ⟨ht, hnum⟩ <;> rw [hnum, ht]
    · exact iff_of_true rfl rfl
    · exact iff_of_false (hx ht) nofun

/-- A value overwritten and put back, and compacted. -/
theorem exact_iff_untouched_sample :
    let txs : List (Transaction ℕ ℕ) := [⟨[.set 1 (some 10), .set 2 (some 20)], none⟩]
    let txs' : List (Transaction ℕ ℕ) := [⟨[.set 1 none], none⟩, ⟨[.set 1 (some 10)], some 4⟩]
    ∃ replies t replies' t' x, Machine.run (transact .leftmost true) (.new, 0) txs =
        .ok (replies, t, 2) ∧
      Machine.run (transact .leftmost true) (t, 2) txs' = .ok (replies', t', 4) ∧
      t'.get 1 4 = .ok x ∧
      MatchSeqExt.matchSeq (.exact 1) x.toSeqV = .error (.notMatch (.exact 1) x.number) := by
  intro txs txs'
  have htxs : ∀ tx ∈ txs, tx.Allocates := by decide
  have htxs' : ∀ tx ∈ txs', tx.Allocates := by decide
  obtain ⟨replies, t, hrun⟩ : ∃ replies t, Machine.run (transact .leftmost true) (.new, 0) txs =
    .ok (replies, t, 2) := ⟨_, _, rfl⟩
  have ht : View.Settled t 2 := settled_run View.settled_new htxs hrun
  obtain ⟨replies', t', hrun'⟩ : ∃ replies' t', Machine.run (transact .leftmost true) (t, 2) txs' =
    .ok (replies', t', 4) := by
      cases hrun
      exact ⟨_, _, rfl⟩
  have hv : t.get 1 2 = .ok (.newNormal 1 10) := by
    cases hrun
    rfl
  obtain ⟨x, hx, -, hconflict, -, -⟩ := exact_iff_untouched ht htxs' hrun' hv
  exact ⟨replies, t, replies', t', x, hrun, hrun', hx,
    hconflict ⟨_, List.mem_cons_self, _, List.mem_cons_self, rfl⟩⟩

end Store

end MapApi
