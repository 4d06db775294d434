/-
# Outcomes of steps that can fail

What follows from the result of a step.  A pure step has a value or a fault, and a successful chain of
them is taken apart link by link.  A step on a state leaves a state behind in either case, so a claim about
it has two parts: what holds of the value and the state after a success, and what holds of the state after
a failure.

* `map_eq_ok`, `bind_eq_ok`, `mapM_eq_ok` : successes of pure steps;
* `Ensures` : what a step on a state guarantees, with a rule for each way to combine steps;
* `stateAfter` : the state that a step leaves behind;
* `passes`, `fails` : whether a result is a success or a failure of some kind.
-/
import Mathlib

namespace TestScribe

/-! ## Pure steps -/

section Except

variable {ε α β γ : Type}

theorem map_eq_ok {x : Except ε α} {f : α → β} {b : β} :
    x.map f = .ok b ↔ ∃ a, x = .ok a ∧ f a = b := by
  cases x <;> simp [Except.map]

theorem mapError_eq_ok {x : Except ε α} {f : ε → β} {a : α} : x.mapError f = .ok a ↔ x = .ok a := by
  cases x <;> simp [Except.mapError]

theorem bind_eq_ok {x : Except ε α} {f : α → Except ε β} {b : β} :
    (x >>= f) = .ok b ↔ ∃ a, x = .ok a ∧ f a = .ok b := by
  cases x <;> simp [bind, Except.bind]

/-- A list of steps succeeds where all of them do. -/
theorem mapM_eq_ok {f : α → Except ε β} {xs : List α} {ys : List β} :
    xs.mapM f = .ok ys ↔ List.Forall₂ (fun x y => f x = .ok y) xs ys := by
  induction xs generalizing ys with
  | nil =>
    rw [List.mapM_nil, List.forall₂_nil_left_iff]
    exact ⟨fun h => by cases h; rfl, fun h => by rw [h]; rfl⟩
  | cons x xs ih =>
    simp only [List.mapM_cons, bind_eq_ok, List.forall₂_cons_left_iff, ih]
    constructor
    · rintro ⟨y, hy, ys, hys, h⟩
      cases h
      exact ⟨y, ys, hy, hys, rfl⟩
    · rintro ⟨y, ys, hy, hys, rfl⟩
      exact ⟨y, hy, ys, hys, rfl⟩

/-- A list of steps in two parts each is done by all the first parts and then all the second ones. -/
theorem mapM_bind_eq_ok {f : α → Except ε β} {g : β → Except ε γ} {xs : List α} {zs : List γ} :
    xs.mapM (fun x => f x >>= g) = .ok zs ↔ ∃ ys, xs.mapM f = .ok ys ∧ ys.mapM g = .ok zs := by
  induction xs generalizing zs with
  | nil =>
    refine ⟨fun h => ⟨[], rfl, h⟩, ?_⟩
    rintro ⟨_, hys, h⟩
    cases hys
    exact h
  | cons x xs ih =>
    simp only [List.mapM_cons, bind_eq_ok, ih]
    constructor
    · rintro ⟨z, ⟨y, hy, hz⟩, zs, ⟨ys, hys, hzs⟩, h⟩
      refine ⟨y :: ys, ⟨y, hy, ys, hys, rfl⟩, ?_⟩
      rw [List.mapM_cons, bind_eq_ok]
      exact ⟨z, hz, bind_eq_ok.2 ⟨zs, hzs, h⟩⟩
    · rintro ⟨_, ⟨y, hy, ys, hys, hcons⟩, h⟩
      cases hcons
      simp only [List.mapM_cons, bind_eq_ok] at h
      obtain ⟨z, hz, zs, hzs, h⟩ := h
      exact ⟨z, ⟨y, hy, hz⟩, zs, ⟨ys, hys, hzs⟩, h⟩

/-- What a list of steps gives comes from one of them. -/
theorem exists_of_mem_mapM {f : α → Except ε β} {xs : List α} {ys : List β} (h : xs.mapM f = .ok ys) {y : β}
    (hy : y ∈ ys) : ∃ x ∈ xs, f x = .ok y := by
  obtain ⟨i, hi, rfl⟩ := List.getElem_of_mem hy
  have hall := mapM_eq_ok.1 h
  have hx : i < xs.length := hall.length_eq ▸ hi
  exact ⟨xs[i], List.getElem_mem hx, hall.get hx hi⟩

end Except

/-! ## Steps on a state -/

section State

variable {ε σ α β : Type}

/-- After a success, the next step goes on from its state. -/
theorem bind_of_ok {step : EStateM ε σ α} {f : α → EStateM ε σ β} {s t : σ} {a : α}
    (h : step s = .ok a t) : (step >>= f) s = f a t := by
  show EStateM.bind step f s = _
  rw [EStateM.bind, h]

/-- A failure ends a chain. -/
theorem bind_of_error {step : EStateM ε σ α} {f : α → EStateM ε σ β} {s t : σ} {e : ε}
    (h : step s = .error e t) : (step >>= f) s = .error e t := by
  show EStateM.bind step f s = _
  rw [EStateM.bind, h]

/-- A step that begins by looking at the state goes on with it. -/
theorem bind_get (f : σ → EStateM ε σ α) (s : σ) : (get >>= f) s = f s s := rfl

/-- A chain of two steps succeeds only if both do. -/
theorem exists_of_bind_eq_ok {step : EStateM ε σ α} {f : α → EStateM ε σ β} {s u : σ} {b : β}
    (h : (step >>= f) s = .ok b u) : ∃ a t, step s = .ok a t ∧ f a t = .ok b u := by
  change EStateM.bind step f s = _ at h
  rw [EStateM.bind] at h
  cases hstep : step s with
  | ok a t =>
    rw [hstep] at h
    exact ⟨a, t, rfl, h⟩
  | error e t =>
    rw [hstep] at h
    cases h

/-- From the state `s` a step succeeds with `Q`, or fails with `E`. -/
structure Ensures (step : EStateM ε σ α) (s : σ) (Q : α → σ → Prop) (E : σ → Prop) : Prop where
  ok : ∀ {a t}, step s = .ok a t → Q a t
  error : ∀ {e t}, step s = .error e t → E t

namespace Ensures

variable {step : EStateM ε σ α} {s : σ} {Q : α → σ → Prop} {E : σ → Prop}

theorem of_eq_ok {a : α} {t : σ} (h : step s = .ok a t) (hQ : Q a t) : Ensures step s Q E where
  ok h' := by
    rw [h] at h'
    cases h'
    exact hQ
  error h' := by
    rw [h] at h'
    cases h'

theorem of_eq_error {e : ε} {t : σ} (h : step s = .error e t) (hE : E t) : Ensures step s Q E where
  ok h' := by
    rw [h] at h'
    cases h'
  error h' := by
    rw [h] at h'
    cases h'
    exact hE

theorem of_eq {step' : EStateM ε σ α} {s' : σ} (heq : step s = step' s') (h : Ensures step' s' Q E) :
    Ensures step s Q E :=
  ⟨fun h' => h.ok (heq ▸ h'), fun h' => h.error (heq ▸ h')⟩

theorem of_forall (hQ : ∀ a t, Q a t) (hE : ∀ t, E t) : Ensures step s Q E :=
  ⟨fun _ => hQ _ _, fun _ => hE _⟩

theorem pure {a : α} (h : Q a s) : Ensures (Pure.pure a : EStateM ε σ α) s Q E := of_eq_ok rfl h

theorem throw {e : ε} (h : E s) : Ensures (throw e : EStateM ε σ α) s Q E := of_eq_error rfl h

theorem get : Ensures (get : EStateM ε σ σ) s (fun a t => t = s ∧ a = s) E :=
  of_eq_ok rfl ⟨rfl, rfl⟩

/-- A chain ensures what its last link ensures from where the others lead. -/
theorem bind {f : α → EStateM ε σ β} {Q' : β → σ → Prop} (h : Ensures step s Q E)
    (hf : ∀ a t, Q a t → Ensures (f a) t Q' E) : Ensures (step >>= f) s Q' E := by
  cases hstep : step s with
  | ok a t => exact of_eq (bind_of_ok hstep) (hf a t (h.ok hstep))
  | error e t => exact of_eq_error (bind_of_error hstep) (h.error hstep)

theorem mono {Q' : α → σ → Prop} {E' : σ → Prop} (h : Ensures step s Q E)
    (hQ : ∀ a t, Q a t → Q' a t) (hE : ∀ t, E t → E' t) : Ensures step s Q' E' :=
  ⟨fun h' => hQ _ _ (h.ok h'), fun h' => hE _ (h.error h')⟩

/-- Two claims about the same step. -/
theorem and {Q' : α → σ → Prop} {E' : σ → Prop} (h : Ensures step s Q E) (h' : Ensures step s Q' E') :
    Ensures step s (fun a t => Q a t ∧ Q' a t) fun t => E t ∧ E' t :=
  ⟨fun hstep => ⟨h.ok hstep, h'.ok hstep⟩, fun hstep => ⟨h.error hstep, h'.error hstep⟩⟩

end Ensures

/-- The state that a step leaves behind, whether it succeeds or fails. -/
def stateAfter (step : EStateM ε σ α) (s : σ) : σ :=
  match step s with
  | .ok _ t => t
  | .error _ t => t

/-- Whether a result is a success that passes a test. -/
def passes (test : α → σ → Bool) : EStateM.Result ε σ α → Bool
  | .ok a t => test a t
  | .error _ _ => false

/-- A test that is passed was made on a success. -/
theorem exists_of_passes {test : α → σ → Bool} {result : EStateM.Result ε σ α}
    (h : passes test result = true) : ∃ a t, result = .ok a t ∧ test a t = true := by
  cases result with
  | ok a t => exact ⟨a, t, rfl, h⟩
  | error e t => cases h

/-- Whether a result is a failure that passes a test. -/
def fails (test : ε → σ → Bool) : EStateM.Result ε σ α → Bool
  | .ok _ _ => false
  | .error e t => test e t

/-- A test on a failure was made on one. -/
theorem exists_of_fails {test : ε → σ → Bool} {result : EStateM.Result ε σ α}
    (h : fails test result = true) : ∃ e t, result = .error e t ∧ test e t = true := by
  cases result with
  | ok a t => cases h
  | error e t => exact ⟨e, t, rfl, h⟩

/-- What is true after a success and after a failure is true afterwards. -/
theorem Ensures.stateAfter {step : EStateM ε σ α} {s : σ} {E : σ → Prop}
    (h : Ensures step s (fun _ => E) E) : E (stateAfter step s) := by
  rw [TestScribe.stateAfter]
  split
  · next hstep => exact h.ok hstep
  · next hstep => exact h.error hstep

end State

end TestScribe
