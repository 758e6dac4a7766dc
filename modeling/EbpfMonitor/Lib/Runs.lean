import Mathlib.Algebra.GroupWithZero.Nat
import Mathlib.Data.List.Basic
import Mathlib.Data.List.Induction

/-! # Runs of partial step functions

A system is given by a step function `step : σ → ι → Option σ`: `step s a` is the state
after action `a`, or `none` when `a` is not enabled in `s`.  A schedule is a list of
actions; `run step s as` executes it and fails as soon as one action is not enabled, so
that quantifying over all schedules with `run step s as = some t` is quantifying over all
interleavings of the parties that own the actions.

* `run_invariant` is the induction rule for properties of every reachable state: what one
  enabled step preserves, every run preserves.
* `run_history` is the rule for properties that relate the state to the schedule so far.
* `Meets step ok s as` says that every action of the schedule is taken in a state where
  `ok` allows it; `run_invariant_of_meets` is the same rule for steps that are only known
  to preserve the property under `ok`.
* `run_potential` bounds what a run can do: if every action is paid for by what it takes from a
  potential, the costs of a run are at most what the run put into it.
* `run_stuttering` carries runs from a system with finer steps to one with coarser steps.

A deterministic object answers a call with a result and a new state,
`exec : σ → ι → ρ × σ`; `execAll` plays a list of calls and collects the results.  When a
relation between the states of two objects is kept by every call and makes the results
equal, the objects cannot be told apart by any list of calls (`execAll_simulation`).
`mem_zip_execAll` reads a result off the history of calls before it. -/

namespace Runs

variable {σ ι : Type}

/-- Execute the actions `as` from `s`; `none` when one of them is not enabled. -/
def run (step : σ → ι → Option σ) : σ → List ι → Option σ
  | s, [] => some s
  | s, a :: as => (step s a).bind (fun s' => run step s' as)

/-- Every action of the schedule is taken in a state where `ok` allows it. -/
def Meets (step : σ → ι → Option σ) (ok : σ → ι → Prop) : σ → List ι → Prop
  | _, [] => True
  | s, a :: as => ok s a ∧ ∀ s', step s a = some s' → Meets step ok s' as

instance decidableMeets (step : σ → ι → Option σ) (ok : σ → ι → Prop) [∀ s a, Decidable (ok s a)] :
    ∀ s as, Decidable (Meets step ok s as)
  | _, [] => isTrue trivial
  | s, a :: as =>
      haveI : ∀ s', Decidable (Meets step ok s' as) := fun s' => decidableMeets step ok s' as
      inferInstanceAs (Decidable (ok s a ∧ ∀ s' ∈ step s a, Meets step ok s' as))

variable {step : σ → ι → Option σ}

@[simp] theorem run_nil (s : σ) : run step s [] = some s := rfl

theorem run_cons_eq_some {s t : σ} {a : ι} {as : List ι} :
    run step s (a :: as) = some t ↔ ∃ s', step s a = some s' ∧ run step s' as = some t := by
  simp [run, Option.bind_eq_some_iff]

theorem run_append_eq_some {s u : σ} {as bs : List ι} :
    run step s (as ++ bs) = some u ↔ ∃ t, run step s as = some t ∧ run step t bs = some u := by
  induction as generalizing s with
  | nil => simp
  | cons a as ih =>
      simp only [List.cons_append, run_cons_eq_some, ih]
      constructor
      · rintro ⟨s', hs', t, hr, ht⟩
        exact ⟨t, ⟨s', hs', hr⟩, ht⟩
      · rintro ⟨t, ⟨s', hs', hr⟩, ht⟩
        exact ⟨s', hs', t, hr, ht⟩

theorem run_append {s t u : σ} {as bs : List ι} (h : run step s as = some t)
    (h' : run step t bs = some u) : run step s (as ++ bs) = some u :=
  run_append_eq_some.mpr ⟨t, h, h'⟩

theorem run_concat {s t u : σ} {as : List ι} {a : ι} (h : run step s as = some t)
    (h' : step t a = some u) : run step s (as ++ [a]) = some u :=
  run_append h (run_cons_eq_some.mpr ⟨u, h', rfl⟩)

/-- To show where a schedule ends, evaluate it. -/
theorem exists_run_of_any {s : σ} {as : List ι} {Q : σ → Prop} [DecidablePred Q]
    (h : (run step s as).any (fun t => decide (Q t)) = true) :
    ∃ t, run step s as = some t ∧ Q t := by
  cases hr : run step s as with
  | none =>
      rw [hr] at h
      cases h
  | some t =>
      rw [hr] at h
      exact ⟨t, rfl, of_decide_eq_true h⟩

/-- **Invariant rule under a condition on the steps**: if every step allowed by `ok`
preserves `P`, every run whose steps are all allowed preserves `P`. -/
theorem run_invariant_of_meets {ok : σ → ι → Prop} {P : σ → Prop}
    (hstep : ∀ s a s', P s → ok s a → step s a = some s' → P s') :
    ∀ (as : List ι) (s t : σ), P s → Meets step ok s as → run step s as = some t → P t := by
  intro as
  induction as with
  | nil =>
      intro s t hs _ h
      rw [run_nil] at h
      exact Option.some.inj h ▸ hs
  | cons a as ih =>
      intro s t hs hm h
      obtain ⟨s', hs', hr⟩ := run_cons_eq_some.mp h
      exact ih s' t (hstep s a s' hs hm.1 hs') (hm.2 s' hs') hr

theorem meets_true (as : List ι) (s : σ) : Meets step (fun _ _ => True) s as := by
  induction as generalizing s with
  | nil => trivial
  | cons a as ih => exact ⟨trivial, fun s' _ => ih s'⟩

/-- **Invariant rule**: what every enabled step preserves, every run preserves. -/
theorem run_invariant {P : σ → Prop} (hstep : ∀ s a s', P s → step s a = some s' → P s')
    {as : List ι} {s t : σ} (hs : P s) (h : run step s as = some t) : P t :=
  run_invariant_of_meets (fun s a s' hP _ => hstep s a s' hP) as s t hs (meets_true as s) h

/-- **Invariant rule with the history**: a property of the schedule so far and the state it leads to
holds after every run if every enabled step continues it. -/
theorem run_history {P : List ι → σ → Prop} {s₀ : σ} (h₀ : P [] s₀)
    (hstep : ∀ as s a s', P as s → step s a = some s' → P (as ++ [a]) s') {as : List ι} {s : σ}
    (h : run step s₀ as = some s) : P as s := by
  induction as using List.reverseRecOn generalizing s with
  | nil => exact Option.some.inj h ▸ h₀
  | append_singleton as a ih =>
      obtain ⟨t, ht, hs⟩ := run_append_eq_some.mp h
      obtain ⟨s', hs', hr⟩ := run_cons_eq_some.mp hs
      exact Option.some.inj hr ▸ hstep as t a s' (ih ht) hs'

theorem sum_map_toNat (p : ι → Bool) (as : List ι) : (as.map (fun a => (p a).toNat)).sum = as.countP p := by
  induction as with
  | nil => rfl
  | cons a as ih =>
      rw [List.map_cons, List.sum_cons, ih, List.countP_cons]
      cases p a <;> simp [Nat.add_comm]

/-- **Potential rule**: every step takes its cost from the potential `μ`, up to what the action adds
to it; then so does every run.  The steps may rely on an invariant. -/
theorem run_potential {P : σ → Prop} {μ : σ → ℕ} {cost gain : ι → ℕ}
    (hinv : ∀ s a s', P s → step s a = some s' → P s')
    (hstep : ∀ s a s', P s → step s a = some s' → μ s' + cost a ≤ μ s + gain a)
    {as : List ι} {s t : σ} (hs : P s) (h : run step s as = some t) :
    μ t + (as.map cost).sum ≤ μ s + (as.map gain).sum := by
  induction as generalizing s with
  | nil =>
      obtain rfl := Option.some.inj h
      exact Nat.le_refl _
  | cons a as ih =>
      obtain ⟨s', hs', hr⟩ := run_cons_eq_some.mp h
      have hrest := ih (hinv s a s' hs hs') hr
      have hfirst := hstep s a s' hs hs'
      simp only [List.map_cons, List.sum_cons]
      omega

/-- **Refinement up to stuttering**: if every step of one system is, seen through `abs`, some
steps of another one, possibly none, then every run is a run of the other one.  The steps may rely
on an invariant. -/
theorem run_stuttering {τ κ : Type} {step' : τ → κ → Option τ} {abs : σ → τ} {P : σ → Prop}
    (hstep : ∀ s a s', P s → step s a = some s' →
      P s' ∧ ∃ bs, run step' (abs s) bs = some (abs s'))
    {as : List ι} {s t : σ} (hs : P s) (h : run step s as = some t) :
    P t ∧ ∃ bs, run step' (abs s) bs = some (abs t) := by
  induction as generalizing s with
  | nil =>
      obtain rfl := Option.some.inj h
      exact ⟨hs, [], rfl⟩
  | cons a as ih =>
      obtain ⟨s', hs', hr⟩ := run_cons_eq_some.mp h
      obtain ⟨hP, bs, hbs⟩ := hstep s a s' hs hs'
      obtain ⟨ht, bs', hbs'⟩ := ih hP hr
      exact ⟨ht, bs ++ bs', run_append hbs hbs'⟩

variable {τ ρ : Type}

/-- Play the calls one after the other and collect their results. -/
def execAll (exec : σ → ι → ρ × σ) : σ → List ι → List ρ × σ
  | s, [] => ([], s)
  | s, c :: cs =>
      let rest := execAll exec (exec s c).2 cs
      ((exec s c).1 :: rest.1, rest.2)

/-- **Simulation rule**: a relation kept by every call, with equal results, makes the
results of every list of calls equal. -/
theorem execAll_simulation {exec : σ → ι → ρ × σ} {exec' : τ → ι → ρ × τ} {R : σ → τ → Prop}
    (hsim : ∀ s t c, R s t → (exec s c).1 = (exec' t c).1 ∧ R (exec s c).2 (exec' t c).2) :
    ∀ (cs : List ι) (s : σ) (t : τ), R s t →
      (execAll exec s cs).1 = (execAll exec' t cs).1 ∧
        R (execAll exec s cs).2 (execAll exec' t cs).2 := by
  intro cs
  induction cs with
  | nil =>
      intro s t h
      exact ⟨rfl, h⟩
  | cons c cs ih =>
      intro s t h
      obtain ⟨hres, hrel⟩ := hsim s t c h
      obtain ⟨hres', hrel'⟩ := ih _ _ hrel
      refine ⟨?_, hrel'⟩
      simp only [execAll]
      rw [hres, hres']

theorem execAll_append_snd (exec : σ → ι → ρ × σ) (s : σ) (as bs : List ι) :
    (execAll exec s (as ++ bs)).2 = (execAll exec (execAll exec s as).2 bs).2 := by
  induction as generalizing s with
  | nil => rfl
  | cons a as ih => exact ih (exec s a).2

theorem execAll_append_fst (exec : σ → ι → ρ × σ) (s : σ) (as bs : List ι) :
    (execAll exec s (as ++ bs)).1 = (execAll exec s as).1 ++ (execAll exec (execAll exec s as).2 bs).1 := by
  induction as generalizing s with
  | nil => rfl
  | cons a as ih => exact congrArg _ (ih (exec s a).2)

/-- A call has the result `r` in a history when it answers `r` in the state its
predecessors lead to. -/
theorem mem_zip_execAll {exec : σ → ι → ρ × σ} {s : σ} {as : List ι} {a : ι} {r : ρ} :
    (a, r) ∈ as.zip (execAll exec s as).1 ↔
      ∃ pre post, as = pre ++ a :: post ∧ (exec (execAll exec s pre).2 a).1 = r := by
  induction as generalizing s with
  | nil => simp [execAll]
  | cons c cs ih =>
      simp only [execAll, List.zip_cons_cons, List.mem_cons, Prod.mk.injEq, ih]
      constructor
      · rintro (⟨rfl, rfl⟩ | ⟨pre, post, rfl, hr⟩)
        · exact ⟨[], cs, rfl, rfl⟩
        · exact ⟨c :: pre, post, rfl, hr⟩
      · rintro ⟨pre, post, hsplit, hr⟩
        cases pre with
        | nil =>
            obtain ⟨rfl, rfl⟩ := List.cons.inj hsplit
            exact Or.inl ⟨rfl, hr.symm⟩
        | cons d pre =>
            obtain ⟨rfl, rfl⟩ := List.cons.inj hsplit
            exact Or.inr ⟨pre, post, rfl, hr⟩

end Runs
