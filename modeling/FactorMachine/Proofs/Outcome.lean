import Mathlib.Tactic.Common

/-!
# FactorMachine — actions one after another

An action that may fail and keeps a state is an `EStateM`; one without a state is an `Except`.
Both are taken apart at the first part of a sequence: where it succeeds, what follows goes on
from its outcome, and where it fails, nothing follows.

## Results

* `run_bind_ok`, `run_bind_error`, `bind_ok` — a sequence whose first part is known.
* `run_bind_eq_ok`, `bind_eq_ok`             — the parts of a sequence that succeeded.
* `run_bind_eq_error`, `bind_eq_error`       — where a sequence failed.
* `toOption_eq_some_iff`                     — an answer whose errors are not told apart.
* `mapError_eq_ok`, `mapError_eq_error`      — an answer whose errors are renamed.
* `stateAfter_bind`, `stateAfter_mapM`       — what a sequence or a row of actions keeps.
-/

namespace FactorMachine

variable {ε σ α β : Type}

/-- The state that an action leaves, whether it succeeds or fails. -/
def stateAfter : EStateM.Result ε σ α → σ
  | .ok _ s => s
  | .error _ s => s

/-- The same outcome with another state. -/
def mapState (f : σ → σ) : EStateM.Result ε σ α → EStateM.Result ε σ α
  | .ok a s => .ok a (f s)
  | .error error s => .error error (f s)

/-- A part that succeeds leaves what follows to the state after it. -/
theorem run_bind_ok {x : EStateM ε σ α} {f : α → EStateM ε σ β} {s s' : σ} {a : α}
    (h : x.run s = .ok a s') : (x >>= f).run s = (f a).run s' := by
  rw [EStateM.run_bind, h]

/-- After a part that fails nothing follows. -/
theorem run_bind_error {x : EStateM ε σ α} {f : α → EStateM ε σ β} {s s' : σ} {error : ε}
    (h : x.run s = .error error s') : (x >>= f).run s = .error error s' := by
  rw [EStateM.run_bind, h]

/-- Both parts of a sequence that succeeded did. -/
theorem run_bind_eq_ok {x : EStateM ε σ α} {f : α → EStateM ε σ β} {s s'' : σ} {b : β}
    (h : (x >>= f).run s = .ok b s'') :
    ∃ a s', x.run s = .ok a s' ∧ (f a).run s' = .ok b s'' := by
  cases hFirst : x.run s with
  | ok a s' => exact ⟨a, s', rfl, (run_bind_ok hFirst).symm.trans h⟩
  | error error s' =>
    rw [run_bind_error hFirst] at h
    cases h

/-- A sequence fails where one of its parts does. -/
theorem run_bind_eq_error {x : EStateM ε σ α} {f : α → EStateM ε σ β} {s s'' : σ} {error : ε}
    (h : (x >>= f).run s = .error error s'') :
    x.run s = .error error s'' ∨ ∃ a s', x.run s = .ok a s' ∧ (f a).run s' = .error error s'' := by
  cases hFirst : x.run s with
  | ok a s' => exact .inr ⟨a, s', rfl, (run_bind_ok hFirst).symm.trans h⟩
  | error other s' =>
    rw [run_bind_error hFirst] at h
    cases h
    exact .inl rfl

/-- What both parts of a sequence keep is kept by the sequence, also where one of them fails. -/
theorem stateAfter_bind {P : σ → Prop} {x : EStateM ε σ α} {f : α → EStateM ε σ β} {s : σ}
    (hFirst : P (stateAfter (x.run s)))
    (hThen : ∀ a s', P s' → P (stateAfter ((f a).run s'))) :
    P (stateAfter ((x >>= f).run s)) := by
  cases hRun : x.run s with
  | ok a s' =>
    rw [hRun] at hFirst
    rw [run_bind_ok hRun]
    exact hThen a s' hFirst
  | error error s' =>
    rw [hRun] at hFirst
    rw [run_bind_error hRun]
    exact hFirst

/-- What every part of a row keeps is kept by the row. -/
theorem stateAfter_mapM {P : σ → Prop} {f : α → EStateM ε σ β}
    (hPart : ∀ a s, P s → P (stateAfter ((f a).run s))) (xs : List α) :
    ∀ {s : σ}, P s → P (stateAfter ((xs.mapM f).run s)) := by
  induction xs with
  | nil => exact fun {s} h => h
  | cons a rest ih =>
    intro s h
    rw [List.mapM_cons]
    exact stateAfter_bind (hPart a s h) fun b s' hs' => stateAfter_bind (ih hs') fun _ _ h => h

/-- A part without state that succeeds leaves its answer to what follows. -/
theorem bind_ok {x : Except ε α} {f : α → Except ε β} {a : α} (h : x = .ok a) :
    (x >>= f) = f a := by
  rw [h]
  rfl

/-- Both parts of a sequence without state that succeeded did. -/
theorem bind_eq_ok {x : Except ε α} {f : α → Except ε β} {b : β} (h : (x >>= f) = .ok b) :
    ∃ a, x = .ok a ∧ f a = .ok b := by
  cases x with
  | ok a => exact ⟨a, rfl, h⟩
  | error error => cases h

theorem ok_of_toOption {x : Except ε α} {a : α} (h : x.toOption = some a) : x = .ok a := by
  cases x with
  | error e => cases h
  | ok b => rw [Option.some.inj h]

/-- What is left of an answer when its errors are not told apart. -/
theorem toOption_eq_some_iff {x : Except ε α} {a : α} : x.toOption = some a ↔ x = .ok a := by
  constructor
  · exact ok_of_toOption
  · rintro rfl
    rfl

/-- Renaming errors leaves an answer alone. -/
theorem mapError_eq_ok {ε' : Type} {f : ε → ε'} {x : Except ε α} {a : α}
    (h : x.mapError f = .ok a) : x = .ok a := by
  cases x with
  | error e => cases h
  | ok b =>
    cases h
    rfl

theorem mapError_eq_error {ε' : Type} {f : ε → ε'} {x : Except ε α} {error : ε'}
    (h : x.mapError f = .error error) : ∃ cause, x = .error cause ∧ error = f cause := by
  cases x with
  | ok a => cases h
  | error cause =>
    cases h
    exact ⟨cause, rfl, rfl⟩

/-- A sequence without state fails where one of its parts does. -/
theorem bind_eq_error {x : Except ε α} {f : α → Except ε β} {error : ε}
    (h : (x >>= f) = .error error) : x = .error error ∨ ∃ a, x = .ok a ∧ f a = .error error := by
  cases x with
  | ok a => exact .inr ⟨a, rfl, h⟩
  | error other =>
    cases h
    exact .inl rfl

end FactorMachine
