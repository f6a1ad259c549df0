/-
**Snapshots that answer as a map.**

A view reads whatever implements `GetAtSeq` and `RangeAtSeq`.  A table does, and it answers as a map
at every sequence number: a point read answers the newest record of the key up to that number, and a
range read lists these records.

Main definitions:

* `MapApi.Snapshot.Shows` — a snapshot that answers as a map;
* `MapApi.Table.shown` — the records a table shows at a sequence number.

Main results:

* `MapApi.Table.Paired.shown_eq_some`, `MapApi.Table.Paired.shown_eq_none` — what a table shows;
* `MapApi.Table.Paired.shows` — **a table answers as a map at every sequence number**.
-/

import MapApi.Shown
import MapApi.SnapshotCopy
import MapApi.View

set_option relaxedAutoImplicit false
set_option autoImplicit false

namespace MapApi

/-- What a snapshot answers, read as a map. -/
def Snapshot.Shows {D K V : Type} [LinearOrder K] [GetAtSeq D K V] [RangeAtSeq D K V]
    (s : Snapshot D) (m : Shown K V) : Prop :=
  ReadsAs (fun k => s.get k) (fun r => s.range r) m

namespace Table

variable {K V : Type} [LinearOrder K]

/-- The record of a key that a table shows at a sequence number. -/
def shown (t : Table K V) (u : U64) : Shown K V := fun k =>
  match t.range ⟨.included k, .included k⟩ u with
  | .ok ((_, x) :: _) => some x
  | _ => none

/-- The newest record of a key, as the value a read makes of it. -/
theorem Paired.exists_latest_iff {t : Table K V} (ht : t.Paired) {u : U64} {k : K}
    {x : SeqMarked V} :
    (∃ m d, Versions.IsLatest t.Holds (Upto u) k m d ∧ mapUnwrap m d = .ok x) ↔
      Versions.IsLatest t.Holds (Upto u) k x.orderKey x.intoData := by
  constructor
  · rintro ⟨m, d, hm, hx⟩
    have hfits := ht k m d hm.mem
    rw [mapUnwrap_of_fits hfits, Except.ok.injEq] at hx
    rw [← hx, SeqMarked.intoData_ofData, orderKey_ofData_of_fits hfits]
    exact hm
  · intro hm
    refine ⟨_, _, hm, ?_⟩
    rw [mapUnwrap_of_fits (fits_orderKey x), SeqMarked.seq_orderKey, ← SeqMarked.eq_ofData]

/-- A table shows the newest record of each key. -/
theorem Paired.shown_eq_some {t : Table K V} (ht : t.Paired) {u : U64} {k : K} {x : SeqMarked V} :
    t.shown u k = some x ↔ Versions.IsLatest t.Holds (Upto u) k x.orderKey x.intoData := by
  let r : RangeBounds K := ⟨.included k, .included k⟩
  have hr : ¬r.Inverted := lt_irrefl k
  obtain ⟨out, hout⟩ := ht.range_ok hr u
  have hshown : t.shown u k = out.head?.map Prod.snd := by
    rw [shown, hout]
    cases out <;> rfl
  obtain ⟨hasc, hmem⟩ := mem_range hout
  have hlatest : (k, x) ∈ out ↔
      Versions.IsLatest t.Holds (Upto u) k x.orderKey x.intoData := by
    rw [hmem, ht.exists_latest_iff]
    exact and_iff_right ⟨le_rfl, le_rfl⟩
  rw [hshown, ← hlatest]
  -- the list holds `k` only
  have hkey : ∀ e ∈ out, e.1 = k := fun e he =>
    le_antisymm ((hmem e.1 e.2).1 he).1.2 ((hmem e.1 e.2).1 he).1.1
  cases out with
  | nil => simp
  | cons e rest =>
      obtain ⟨k', y⟩ := e
      obtain rfl : k' = k := hkey _ List.mem_cons_self
      rw [List.head?_cons, Option.map_some, Option.some_inj]
      constructor
      · rintro rfl
        exact List.mem_cons_self
      · intro hx
        exact hasc.eq_of_mem List.mem_cons_self hx

theorem seq_le_of_shown {t : Table K V} (ht : t.Paired) {u : U64} {k : K} {x : SeqMarked V}
    (h : t.shown u k = some x) : x.seq ≤ u := by
  have hup := (ht.shown_eq_some.1 h).admitted
  rwa [Upto, SeqMarked.seq_orderKey] at hup

/-- A key of which a table shows no record. -/
theorem Paired.shown_eq_none {t : Table K V} (ht : t.Paired) {u : U64} {k : K} :
    t.shown u k = none ↔ ∀ m d, t.Holds k m d → ¬Upto u m := by
  obtain ⟨r, hr⟩ := t.exists_sees k u
  match r with
  | none => exact ⟨fun _ => hr, fun _ => Option.eq_none_iff_forall_ne_some.2 fun x hx =>
      hr _ _ (ht.shown_eq_some.1 hx).mem (ht.shown_eq_some.1 hx).admitted⟩
  | some (m, d) =>
      have hfits := ht k m d hr.mem
      have hx : t.shown u k = some (.ofData m.seq d) := by
        rw [ht.shown_eq_some, orderKey_ofData_of_fits hfits, SeqMarked.intoData_ofData]
        exact hr
      rw [hx]
      exact ⟨nofun, fun h => absurd hr.admitted (h m d hr.mem)⟩

/-- A range read lists what the table shows. -/
theorem Paired.lists {t : Table K V} (ht : t.Paired) {r : RangeBounds K} (hr : ¬r.Inverted)
    (u : U64) : ∃ out, t.range r u = .ok out ∧ Lists (t.shown u) r out := by
  obtain ⟨out, hout⟩ := ht.range_ok hr u
  refine ⟨out, hout, (mem_range hout).1, fun k x => ?_⟩
  rw [(mem_range hout).2, ht.exists_latest_iff, ht.shown_eq_some]

/-- **A table answers as a map at every sequence number.** -/
theorem Paired.shows {t : Table K V} (ht : t.Paired) (u : U64) :
    (Snapshot.new u t).Shows (t.shown u) := by
  refine ⟨fun k => ?_, fun r hr => ?_⟩
  · change t.get k u = _
    cases hk : t.shown u k with
    | none => exact get_eq_of_sees (r := none) (ht.shown_eq_none.1 hk)
    | some x =>
        rw [ht.get_of_sees (ht.shown_eq_some.1 hk), SeqMarked.seq_orderKey, ← SeqMarked.eq_ofData]
        rfl
  · obtain ⟨out, hout, hlist⟩ := ht.lists hr u
    refine ⟨out, ?_, hlist⟩
    change (t.range r u >>= _) = _
    rw [hout]
    rfl

end Table

end MapApi
