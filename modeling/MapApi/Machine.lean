/-
**Machines, their runs, and simulation between them.**

A machine is a function that takes a state and an action, and fails or returns a reply with the
next state.  A run takes a list of actions up to the first that fails.  Two machines are compared
by a relation between their states: when related states take each action alike, failing with the
same error or returning the same reply in related states, they take each list of actions alike.

Nothing here is about a particular kind of state or action.

Main definitions:

* `Machine`, `Machine.run` — a machine, and a run of it;
* `Machine.Agree`, `Machine.AgreeUnless` — two results are the same, up to related states, and up to
  errors that are excepted;
* `Machine.Simulates`, `Machine.SimulatesUnless`, `Machine.Preserves` — what has to be shown of one
  step.

Main results:

* `Machine.Simulates.run`, `Machine.SimulatesUnless.run` — **machines that agree step by step agree
  on runs**;
* `Machine.Preserves.run` — an invariant of one step is an invariant of runs;
* `Machine.run_append`, `Machine.run_flatten` — a run of two lists of actions, and of several.
-/

import Mathlib.Data.List.Induction
import Mathlib.Tactic.Common

set_option relaxedAutoImplicit false
set_option autoImplicit false

/-- **A machine**: it fails on an action, or returns a reply and the next state. -/
abbrev Machine (ε σ α β : Type) : Type := σ → α → Except ε (β × σ)

namespace Machine

variable {ε σ τ υ α β : Type}

/-- The replies to a list of actions, and the state after them. -/
def run (M : Machine ε σ α β) : σ → List α → Except ε (List β × σ)
  | s, [] => .ok ([], s)
  | s, a :: as =>
      match M s a with
      | .error e => .error e
      | .ok (b, s') =>
          match run M s' as with
          | .error e => .error e
          | .ok (bs, s'') => .ok (b :: bs, s'')

@[simp] theorem run_nil (M : Machine ε σ α β) (s : σ) : M.run s [] = .ok ([], s) := rfl

theorem run_cons_of_error {M : Machine ε σ α β} {s : σ} {a : α} {e : ε} (h : M s a = .error e)
    (as : List α) : M.run s (a :: as) = .error e := by
  rw [run, h]

theorem run_cons_of_ok {M : Machine ε σ α β} {s s' : σ} {a : α} {b : β}
    (h : M s a = .ok (b, s')) (as : List α) :
    M.run s (a :: as) = (M.run s' as).map fun p => (b :: p.1, p.2) := by
  simp only [run, h]
  cases M.run s' as <;> rfl

/-- A machine whose actions stand for those of another. -/
theorem run_map {α' : Type} (M : Machine ε σ α β) (f : α' → α) (as : List α') : ∀ s : σ,
    run (fun s a => M s (f a)) s as = M.run s (as.map f) := by
  induction as with
  | nil =>
      intro s
      rfl
  | cons a as ih =>
      intro s
      simp only [run, List.map_cons, ih]

/-- A run of two lists of actions. -/
theorem run_append (M : Machine ε σ α β) (as as' : List α) : ∀ s : σ,
    M.run s (as ++ as') =
      match M.run s as with
      | .error e => .error e
      | .ok (bs, s') => (M.run s' as').map fun p => (bs ++ p.1, p.2) := by
  induction as with
  | nil =>
      intro s
      simp only [List.nil_append, run_nil]
      cases M.run s as' <;> rfl
  | cons a as ih =>
      intro s
      rw [List.cons_append]
      cases hstep : M s a with
      | error e => rw [run_cons_of_error hstep, run_cons_of_error hstep]
      | ok p =>
          obtain ⟨b, s'⟩ := p
          rw [run_cons_of_ok hstep, run_cons_of_ok hstep, ih]
          cases M.run s' as with
          | error e => rfl
          | ok q =>
              obtain ⟨bs, s''⟩ := q
              change Except.map _ (Except.map _ (M.run s'' as')) = Except.map _ (M.run s'' as')
              cases M.run s'' as' <;> rfl

/-- A run of two lists of actions that succeeds. -/
theorem run_append_eq_ok {M : Machine ε σ α β} {as as' : List α} {s s'' : σ} {bs : List β} :
    M.run s (as ++ as') = .ok (bs, s'') ↔
      ∃ bs₁ s' bs₂, M.run s as = .ok (bs₁, s') ∧ M.run s' as' = .ok (bs₂, s'') ∧
        bs = bs₁ ++ bs₂ := by
  rw [run_append]
  constructor
  · intro h
    cases hfirst : M.run s as with
    | error e => rw [hfirst] at h; cases h
    | ok p =>
        rw [hfirst] at h
        cases hsecond : M.run p.2 as' with
        | error e => simp only [hsecond] at h; cases h
        | ok q =>
            simp only [hsecond] at h
            cases h
            exact ⟨p.1, p.2, q.1, rfl, hsecond, rfl⟩
  · rintro ⟨bs₁, s', bs₂, hfirst, hsecond, rfl⟩
    rw [hfirst]
    simp only [hsecond]
    rfl

/-- A run of one action. -/
theorem run_singleton_eq_ok {M : Machine ε σ α β} {a : α} {s s' : σ} {bs : List β} :
    M.run s [a] = .ok (bs, s') ↔ ∃ b, M s a = .ok (b, s') ∧ bs = [b] := by
  cases hstep : M s a with
  | error e =>
      rw [run_cons_of_error hstep]
      simp
  | ok p =>
      obtain ⟨b, s₁⟩ := p
      rw [run_cons_of_ok hstep]
      constructor
      · intro h
        cases h
        exact ⟨b, rfl, rfl⟩
      · rintro ⟨_, h, rfl⟩
        cases h
        rfl

/-- Each action has a reply. -/
theorem length_replies {M : Machine ε σ α β} {as : List α} {s s' : σ} {bs : List β}
    (h : M.run s as = .ok (bs, s')) : bs.length = as.length := by
  induction as using List.reverseRecOn generalizing s' bs with
  | nil =>
      cases h
      rfl
  | append_singleton as a ih =>
      obtain ⟨bs₁, s₁, bs₂, hfirst, hlast, rfl⟩ := run_append_eq_ok.1 h
      obtain ⟨b, -, rfl⟩ := run_singleton_eq_ok.1 hlast
      rw [List.length_append, List.length_append, ih hfirst]
      rfl

/-- A run whose actions are runs is one run. -/
theorem run_flatten {M : Machine ε σ α β} {ass : List (List α)} :
    ∀ {s s' : σ} {bss : List (List β)},
      run (fun s as => M.run s as) s ass = .ok (bss, s') →
        M.run s ass.flatten = .ok (bss.flatten, s') := by
  induction ass with
  | nil =>
      intro s s' bss hrun
      cases hrun
      rfl
  | cons as ass ih =>
      intro s s' bss hrun
      cases hstep : M.run s as with
      | error e => rw [run_cons_of_error hstep] at hrun; cases hrun
      | ok p =>
          obtain ⟨bs, s₁⟩ := p
          rw [run_cons_of_ok (M := fun s as => M.run s as) hstep] at hrun
          cases hrest : run (fun s as => M.run s as) s₁ ass with
          | error e => rw [hrest] at hrun; cases hrun
          | ok q =>
              rw [hrest] at hrun
              cases hrun
              exact run_append_eq_ok.2 ⟨bs, s₁, _, hstep, ih hrest, rfl⟩

/-- **Where a run fails**: the actions before succeed, and one step fails on what they leave. -/
theorem run_eq_error {M : Machine ε σ α β} {as : List α} : ∀ {s : σ} {e : ε},
    M.run s as = .error e ↔
      ∃ before a after bs s', as = before ++ a :: after ∧ M.run s before = .ok (bs, s') ∧
        M s' a = .error e := by
  induction as with
  | nil =>
      intro s e
      constructor
      · nofun
      · rintro ⟨before, a, after, bs, s', has, -⟩
        cases before <;> cases has
  | cons a as ih =>
      intro s e
      constructor
      · intro hrun
        cases hstep : M s a with
        | error e' =>
            rw [run_cons_of_error hstep] at hrun
            cases hrun
            exact ⟨[], a, as, [], s, rfl, rfl, hstep⟩
        | ok p =>
            obtain ⟨b, s₁⟩ := p
            rw [run_cons_of_ok hstep] at hrun
            cases hrest : M.run s₁ as with
            | ok q => rw [hrest] at hrun; cases hrun
            | error e' =>
                rw [hrest] at hrun
                cases hrun
                obtain ⟨before, a', after, bs, s', rfl, hbefore, hfail⟩ := ih.1 hrest
                refine ⟨a :: before, a', after, b :: bs, s', rfl, ?_, hfail⟩
                rw [run_cons_of_ok hstep, hbefore]
                rfl
      · rintro ⟨before, a', after, bs, s', has, hbefore, hfail⟩
        rw [has, run_append, hbefore]
        simp only [run_cons_of_error hfail]
        rfl

/-- A run fails as one of its steps does. -/
theorem run_error {M : Machine ε σ α β} {q : ε → Prop}
    (h : ∀ s a e, M s a = .error e → q e) (as : List α) {s : σ} {e : ε}
    (hrun : M.run s as = .error e) : q e := by
  obtain ⟨-, a, -, -, s', -, -, hstep⟩ := run_eq_error.1 hrun
  exact h s' a e hstep

/-! ### Simulation -/

/-- **Two results agree**: the same error, or the same reply in related states. -/
inductive Agree (R : σ → τ → Prop) : Except ε (β × σ) → Except ε (β × τ) → Prop
  | error (e : ε) : Agree R (.error e) (.error e)
  | ok (b : β) {s : σ} {t : τ} (h : R s t) : Agree R (.ok (b, s)) (.ok (b, t))

namespace Agree

variable {R : σ → τ → Prop} {x : Except ε (β × σ)} {y : Except ε (β × τ)}

theorem error_iff (h : Agree R x y) (e : ε) : x = .error e ↔ y = .error e := by
  cases h with
  | error e' => simp
  | ok b h => exact ⟨nofun, nofun⟩

/-- Where one succeeds, the other does with the same reply. -/
theorem of_ok (h : Agree R x y) {b : β} {s : σ} (hx : x = .ok (b, s)) :
    ∃ t, y = .ok (b, t) ∧ R s t := by
  cases h with
  | error e => cases hx
  | ok b' h =>
      cases hx
      exact ⟨_, rfl, h⟩

theorem mono {R' : σ → τ → Prop} (h : Agree R x y) (hR : ∀ s t, R s t → R' s t) :
    Agree R' x y := by
  cases h with
  | error e => exact .error e
  | ok b h => exact .ok b (hR _ _ h)

theorem symm (h : Agree R x y) : Agree (fun t s => R s t) y x := by
  cases h with
  | error e => exact .error e
  | ok b h => exact .ok b h

/-- Agreement composes through a common machine. -/
theorem trans {S : τ → υ → Prop} {z : Except ε (β × υ)} (h : Agree R x y) (h' : Agree S y z) :
    Agree (fun s u => ∃ t, R s t ∧ S t u) x z := by
  cases h with
  | error e => cases h' with | error => exact .error e
  | ok b h => cases h' with | ok _ h' => exact .ok b ⟨_, h, h'⟩

/-- Longer replies over the same states. -/
theorem map_reply {γ : Type} (f : β → γ) (h : Agree R x y) :
    Agree R (x.map fun p => (f p.1, p.2)) (y.map fun p => (f p.1, p.2)) := by
  cases h with
  | error e => exact .error e
  | ok b h => exact .ok (f b) h

end Agree

/-- **Two results agree, unless** the first is an error of `q`. -/
def AgreeUnless (q : ε → Prop) (R : σ → τ → Prop) (x : Except ε (β × σ)) (y : Except ε (β × τ)) :
    Prop :=
  (∃ e, q e ∧ x = .error e) ∨ Agree R x y

/-- **Related states take the actions of `p` alike**, unless the first fails with an error of
`q`. -/
def SimulatesUnless (q : ε → Prop) (R : σ → τ → Prop) (p : α → Prop) (M : Machine ε σ α β)
    (N : Machine ε τ α β) : Prop :=
  ∀ s t a, R s t → p a → AgreeUnless q R (M s a) (N t a)

/-- **Machines that agree step by step agree on runs**, up to the errors excepted. -/
theorem SimulatesUnless.run {q : ε → Prop} {R : σ → τ → Prop} {p : α → Prop}
    {M : Machine ε σ α β} {N : Machine ε τ α β} (h : SimulatesUnless q R p M N) {as : List α}
    (has : ∀ a ∈ as, p a) :
    ∀ {s : σ} {t : τ}, R s t → AgreeUnless q R (M.run s as) (N.run t as) := by
  induction as with
  | nil =>
      intro s t hst
      exact Or.inr (.ok [] hst)
  | cons a as ih =>
      intro s t hst
      rcases h s t a hst (has a List.mem_cons_self) with ⟨e, he, hs⟩ | hstep
      · exact Or.inl ⟨e, he, run_cons_of_error hs as⟩
      · cases hs : M s a with
        | error e =>
            rw [run_cons_of_error hs, run_cons_of_error ((hstep.error_iff e).1 hs)]
            exact Or.inr (.error e)
        | ok r =>
            obtain ⟨t', ht, hst'⟩ := hstep.of_ok hs
            rw [run_cons_of_ok hs, run_cons_of_ok ht]
            rcases ih (fun a' ha' => has a' (List.mem_cons_of_mem _ ha')) hst' with
              ⟨e, he, hrest⟩ | hrest
            · rw [hrest]
              exact Or.inl ⟨e, he, rfl⟩
            · exact Or.inr (hrest.map_reply _)

/-- **Related states take the actions of `p` alike.** -/
def Simulates (R : σ → τ → Prop) (p : α → Prop) (M : Machine ε σ α β) (N : Machine ε τ α β) :
    Prop :=
  ∀ s t a, R s t → p a → Agree R (M s a) (N t a)

/-- **Machines that agree step by step agree on runs.** -/
theorem Simulates.run {R : σ → τ → Prop} {p : α → Prop} {M : Machine ε σ α β}
    {N : Machine ε τ α β} (h : Simulates R p M N) {as : List α} (has : ∀ a ∈ as, p a) {s : σ}
    {t : τ} (hst : R s t) : Agree R (M.run s as) (N.run t as) := by
  have hunless : SimulatesUnless (fun _ => False) R p M N := fun s t a hst ha =>
    Or.inr (h s t a hst ha)
  rcases hunless.run has hst with ⟨_, he, -⟩ | hagree
  · exact he.elim
  · exact hagree

/-! ### Invariants -/

/-- **The actions of `p` keep an invariant.** -/
def Preserves (I : σ → Prop) (p : α → Prop) (M : Machine ε σ α β) : Prop :=
  ∀ s a b s', I s → p a → M s a = .ok (b, s') → I s'

/-- An invariant of one step is an invariant of runs. -/
theorem Preserves.run {I : σ → Prop} {p : α → Prop} {M : Machine ε σ α β}
    (h : Preserves I p M) {as : List α} (has : ∀ a ∈ as, p a) :
    ∀ {s s' : σ} {bs : List β}, I s → M.run s as = .ok (bs, s') → I s' := by
  induction as with
  | nil =>
      intro s s' bs hs hrun
      cases hrun
      exact hs
  | cons a as ih =>
      intro s s' bs hs hrun
      cases hstep : M s a with
      | error e => rw [run_cons_of_error hstep] at hrun; cases hrun
      | ok r =>
          obtain ⟨b, s₁⟩ := r
          rw [run_cons_of_ok hstep] at hrun
          have hs₁ := h s a b s₁ hs (has a List.mem_cons_self) hstep
          cases hrest : M.run s₁ as with
          | error e => rw [hrest] at hrun; cases hrun
          | ok q =>
              rw [hrest] at hrun
              cases hrun
              exact ih (fun a' ha' => has a' (List.mem_cons_of_mem _ ha')) hs₁ hrest

end Machine
